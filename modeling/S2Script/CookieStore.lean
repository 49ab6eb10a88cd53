import S2Script.CookieOutboxSafety

/-! The cookie database behind the outbox. An execution of a leased attempt may come at any
later time; the revision guard of the statement lets the newest accepted write win. -/
namespace S2Script.Cookies

open WriteBehind

/-- A row of the cookies table. -/
structure Stored where
  value : String
  updated : Int
  writerEpoch : Option String
  revision : Int
  deriving DecidableEq

abbrev Database := Table CookieKey Stored

/-- Whether the statement's `WHERE` clause lets the incoming row in. -/
def Stored.yields (row : Stored) (epoch : String) (revision : Int) : Bool :=
  row.writerEpoch.isNone || row.writerEpoch != some epoch || row.revision < revision

/-- The plugin's `UPSERT`. -/
def upsert (epoch : String) (rows : Database) (payload : Payload) : Database :=
  let incoming : Stored := ⟨payload.value,payload.updated,some epoch,payload.revision⟩
  match rows.lookup payload.key with
  | none => rows.insert payload.key incoming
  | some row => if row.yields epoch payload.revision then rows.insert payload.key incoming else rows

/-- A row as a cell of one writer epoch. -/
def Stored.cell (epoch : String) (row : Stored) : Option (Cell (String × Int)) :=
  if row.writerEpoch = some epoch then some ⟨(row.value,row.updated),row.revision⟩ else none

def cells (epoch : String) (rows : Database) (key : CookieKey) : Option (Cell (String × Int)) :=
  (rows.lookup key).bind (Stored.cell epoch)

def Payload.cell (payload : Payload) : Cell (String × Int) := ⟨(payload.value,payload.updated),payload.revision⟩

theorem cells_insert (epoch : String) (rows : Database) (payload : Payload) (other : CookieKey) :
    cells epoch (rows.insert payload.key ⟨payload.value,payload.updated,some epoch,payload.revision⟩) other =
      if other = payload.key then some payload.cell else cells epoch rows other := by
  rw [cells,Table.lookup_insert_eq]
  split
  · rw [Option.bind_some,Stored.cell,if_pos rfl]
    rfl
  · rfl

/-- Within its epoch the statement is the store that takes only newer cells. -/
theorem cells_upsert (epoch : String) (rows : Database) (payload : Payload) (other : CookieKey) :
    cells epoch (upsert epoch rows payload) other =
      if other = payload.key then some (newer (cells epoch rows other) payload.cell) else cells epoch rows other := by
  cases here : rows.lookup payload.key with
  | none =>
    have absent : cells epoch rows payload.key = none := by rw [cells,here,Option.bind_none]
    simp only [upsert,here,cells_insert]
    split
    · next same => rw [same,absent,newer]
    · rfl
  | some row =>
    have present : cells epoch rows payload.key = row.cell epoch := by rw [cells,here,Option.bind_some]
    simp only [upsert,here]
    by_cases own : row.writerEpoch = some epoch
    · have cell : row.cell epoch = some ⟨(row.value,row.updated),row.revision⟩ := if_pos own
      by_cases later : row.revision < payload.revision
      · rw [if_pos (by simp [Stored.yields,later]),cells_insert]
        split
        · next same => rw [same,present,cell,newer,if_pos (by exact later)]
        · rfl
      · rw [if_neg (by simp [Stored.yields,own,later])]
        split
        · next same => rw [same,present,cell,newer,if_neg (by exact later)]
        · rfl
    · rw [if_pos (by simp [Stored.yields,own]),cells_insert]
      split
      · next same => rw [same,present,Stored.cell,if_neg own,newer]
      · rfl

/-- The outbox with its database, the attempts leased so far and those whose statement ran. -/
structure Persistence where
  run : Run
  rows : Database
  issued : List Attempt := []
  executed : List Nat := []

inductive Step where
  | outbox (action : Action)
  | execute (id : Nat)

/-- The attempts an action hands out. -/
def Run.admitted (run : Run) : Action → List Attempt
  | .lease owner maxItems maxBytes now => ((run.box.lease owner maxItems maxBytes now).map Prod.snd).getD []
  | _ => []

namespace Persistence

def epoch (sys : Persistence) : String := sys.run.box.epoch

/-- The plugin reports success only after the statement ran. -/
def reports (sys : Persistence) : Action → Bool
  | .ack _ id _ true _ => id ∈ sys.executed
  | _ => true

/-- A report that is not sent and an execution that does not come change nothing. -/
def advance (sys : Persistence) : Step → Option Persistence
  | .outbox action =>
    if sys.reports action then
      (sys.run.advance action).map fun run => { sys with run := run, issued := sys.issued ++ sys.run.admitted action }
    else some sys
  | .execute id =>
    match sys.issued.find? fun a => a.id == id with
    | none => some sys
    | some a =>
      if id ∈ sys.executed then some sys
      else some { sys with rows := upsert sys.epoch sys.rows a.payload, executed := id :: sys.executed }

def execute : List Step → Persistence → Option Persistence
  | [], sys => some sys
  | step :: rest, sys => (sys.advance step).bind (execute rest)

def start (policy : OutboxPolicy) (epoch : String) (rows : Database) : Persistence := ⟨.start policy epoch,rows,[],[]⟩

end Persistence

/-- What one action does to the leases and the ledger. -/
structure Run.Evolves (before after : Run) (admitted : List Attempt) : Prop where
  attempts : ∀ key a, attemptAt after.box.entries key = some a →
    attemptAt before.box.entries key = some a ∨ a ∈ admitted
  entered : ∀ a ∈ admitted, ∃ key, attemptAt after.box.entries key = some a
  fresh : ∀ a ∈ admitted, before.box.leaseId < a.id ∧ a.id ≤ after.box.leaseId
  ordered : admitted.Pairwise fun a b => a.id < b.id
  later : before.box.leaseId ≤ after.box.leaseId
  epoch : after.box.epoch = before.box.epoch
  writes : ∀ w ∈ before.ledger.writes, w ∈ after.ledger.writes

/-- An action that leases nothing. -/
theorem Run.Evolves.unleasing {before after : Run}
    (attempts : ∀ key a, attemptAt after.box.entries key = some a → attemptAt before.box.entries key = some a)
    (leaseId : after.box.leaseId = before.box.leaseId) (epoch : after.box.epoch = before.box.epoch)
    (writes : ∀ w ∈ before.ledger.writes, w ∈ after.ledger.writes) : before.Evolves after [] where
  attempts key a leased := .inl (attempts key a leased)
  entered _ member := nomatch member
  fresh _ member := nomatch member
  ordered := .nil
  later := leaseId.ge
  epoch := epoch
  writes := writes

theorem Run.Evolves.of_advance {run after : Run} (sound : Sound run) {action : Action}
    (step : run.advance action = some after) : run.Evolves after (run.admitted action) := by
  cases action with
  | accept sid name value updated =>
    obtain rfl := Option.some.inj step
    refine .unleasing ?_ ?_ ?_ ?_
    · exact fun key a leased => (Outbox.accept_attempts run.box sid name value updated key).symm.trans leased
    · simp only [Outbox.accept]
      split <;> rfl
    · simp only [Outbox.accept]
      split <;> rfl
    · intro w member
      simp only
      split
      · exact List.mem_append_left _ member
      · exact member
  | lease owner maxItems maxBytes now =>
    obtain ⟨box,admitted,leased,spec,_⟩ := sound.lease owner maxItems maxBytes now
    rw [Run.advance,leased] at step
    obtain rfl := Option.some.inj step
    rw [Run.admitted,leased]
    exact ⟨spec.attempts,spec.entered,spec.fresh,spec.ordered,spec.later,spec.epoch,fun _ member => member⟩
  | ack owner id revision success now =>
    cases found : run.box.leased owner id revision with
    | none =>
      simp only [Run.advance,Outbox.ack,found,Option.map_some,Option.some.injEq] at step
      subst step
      exact .unleasing (fun _ _ leased => leased) rfl rfl fun _ member => member
    | some key =>
      obtain ⟨p,a,here,leased,_⟩ := Outbox.leased_some found
      obtain ⟨box,acked,spec⟩ := Outbox.ack_known found here leased success now
      simp only [Run.advance,acked,found,Option.map_some,Option.some.injEq] at step
      subst step
      refine .unleasing (fun other b there => ?_) spec.leaseId spec.epoch fun w member => ?_
      · rw [spec.attempts] at there
        split at there
        · cases there
        · exact there
      · cases success <;> exact member
  | reclaim owner =>
    obtain rfl := Option.some.inj step
    exact .unleasing (fun _ _ leased => (Sound.reclaim_untouched leased).1) rfl rfl fun _ member => member

/-- What every run of the database keeps. -/
structure Converging (sys : Persistence) : Prop where
  sound : Sound sys.run
  follows : Follows sys.run.ledger (cells sys.epoch sys.rows)
  issued : ∀ key a, attemptAt sys.run.box.entries key = some a → a ∈ sys.issued
  id_unique : sys.issued.Pairwise fun a b => a.id < b.id
  id_le : ∀ a ∈ sys.issued, a.id ≤ sys.run.box.leaseId
  written : ∀ a ∈ sys.issued,
    (⟨a.payload.key,(a.payload.value,a.payload.updated),a.payload.revision⟩ : Write _ _) ∈ sys.run.ledger.writes
  executed : ∀ a ∈ sys.issued, a.id ∈ sys.executed →
    ∃ cell, cells sys.epoch sys.rows a.payload.key = some cell ∧ a.payload.revision ≤ cell.revision
  known : ∀ id ∈ sys.executed, ∃ a ∈ sys.issued, a.id = id

namespace Converging

variable {sys after : Persistence}

theorem issued_unique (converging : Converging sys) {a b : Attempt} (aIn : a ∈ sys.issued) (bIn : b ∈ sys.issued)
    (same : a.id = b.id) : a = b := by
  by_contra differ
  have symmetric : Std.Symm fun a b : Attempt => a.id ≠ b.id := ⟨fun _ _ ne => ne.symm⟩
  have apart : sys.issued.Pairwise fun a b => a.id ≠ b.id := converging.id_unique.imp Nat.ne_of_lt
  exact apart.forall aIn bIn differ same

/-- The ledger after an action is followed as well: what it acknowledges was executed. -/
theorem follows_advance (converging : Converging sys) {action : Action} (reports : sys.reports action)
    {run : Run} (step : sys.run.advance action = some run) : Follows run.ledger (cells sys.epoch sys.rows) := by
  cases action with
  | accept sid name value updated =>
    obtain rfl := Option.some.inj step
    simp only
    split
    · exact converging.follows.accept _
    · exact converging.follows
  | lease owner maxItems maxBytes now =>
    obtain ⟨out,_,rfl⟩ := Option.map_eq_some_iff.mp step
    exact converging.follows
  | ack owner id revision success now =>
    obtain ⟨out,_,rfl⟩ := Option.map_eq_some_iff.mp step
    cases found : sys.run.box.leased owner id revision with
    | none => exact converging.follows
    | some key =>
      cases success with
      | false => exact converging.follows
      | true =>
        obtain ⟨p,a,here,leased,sameId,_,rfl⟩ := Outbox.leased_some found
        have current := (attemptAt_of_lookup here).trans leased
        have ran : id ∈ sys.executed := by simpa [Persistence.reports] using reports
        obtain ⟨cell,stored,reached⟩ := converging.executed a (converging.issued key a current) (sameId ▸ ran)
        rw [converging.sound.named key _ (attempt_held current)] at stored
        exact converging.follows.acknowledge stored reached
  | reclaim owner =>
    obtain rfl := Option.some.inj step
    exact converging.follows

theorem outbox (converging : Converging sys) (action : Action) (reports : sys.reports action) {run : Run}
    (step : sys.run.advance action = some run) :
    Converging { sys with run := run, issued := sys.issued ++ sys.run.admitted action } := by
  obtain ⟨same,stepped,sound⟩ := converging.sound.advance action
  obtain rfl : same = run := Option.some.inj (stepped.symm.trans step)
  have evolves := Run.Evolves.of_advance converging.sound step
  have follows := converging.follows_advance reports step
  rw [← show ({ sys with run := same, issued := sys.issued ++ sys.run.admitted action } : Persistence).epoch = sys.epoch
    from evolves.epoch] at follows
  constructor
  · exact sound
  · exact follows
  · intro key a leased
    rcases evolves.attempts key a leased with old | new
    · exact List.mem_append_left _ (converging.issued key a old)
    · exact List.mem_append_right _ new
  · refine List.pairwise_append.mpr ⟨converging.id_unique,evolves.ordered,fun a old b new => ?_⟩
    have := converging.id_le a old
    have := evolves.fresh b new
    omega
  · intro a member
    rcases List.mem_append.mp member with old | new
    · exact (converging.id_le a old).trans evolves.later
    · exact (evolves.fresh a new).2
  · intro a member
    rcases List.mem_append.mp member with old | new
    · exact evolves.writes _ (converging.written a old)
    · obtain ⟨key,leased⟩ := evolves.entered a new
      have held := attempt_held leased
      rw [sound.named key _ held]
      exact sound.keeps.written key _ (List.mem_map_of_mem (f := Payload.piece) held)
  · intro a member ran
    rcases List.mem_append.mp member with old | new
    · rw [Persistence.epoch,evolves.epoch]
      exact converging.executed a old ran
    · obtain ⟨b,issued,equal⟩ := converging.known a.id ran
      have := converging.id_le b issued
      have := evolves.fresh a new
      omega
  · intro id ran
    obtain ⟨a,issued,equal⟩ := converging.known id ran
    exact ⟨a,List.mem_append_left _ issued,equal⟩

theorem run_statement (converging : Converging sys) {a : Attempt} (issued : a ∈ sys.issued) :
    Converging { sys with rows := upsert sys.epoch sys.rows a.payload, executed := a.id :: sys.executed } := by
  have stored : ∀ other, cells sys.epoch (upsert sys.epoch sys.rows a.payload) other =
      if other = a.payload.key then some (newer (cells sys.epoch sys.rows other) a.payload.cell)
      else cells sys.epoch sys.rows other := cells_upsert sys.epoch sys.rows a.payload
  constructor
  · exact converging.sound
  · exact converging.follows.write a.payload.cell (converging.written a issued) ((stored _).trans (if_pos rfl))
      fun other differ => (stored other).trans (if_neg differ)
  · exact converging.issued
  · exact converging.id_unique
  · exact converging.id_le
  · exact converging.written
  · intro b member ran
    change ∃ cell, cells sys.epoch (upsert sys.epoch sys.rows a.payload) b.payload.key = some cell ∧ _
    rw [stored]
    rcases List.mem_cons.mp ran with same | before
    · obtain rfl := converging.issued_unique member issued same
      exact ⟨_,if_pos rfl,incoming_le_newer _ _⟩
    · obtain ⟨cell,here,reached⟩ := converging.executed b member before
      split
      · next same =>
        rw [here]
        exact ⟨_,rfl,reached.trans (stored_le_newer cell a.payload.cell)⟩
      · exact ⟨cell,here,reached⟩
  · intro id ran
    rcases List.mem_cons.mp ran with rfl | before
    · exact ⟨a,issued,rfl⟩
    · exact converging.known id before

end Converging

/-- No stored revision goes down. -/
def NeverDecreases (epoch : String) (before after : Database) : Prop :=
  ∀ key cell, cells epoch before key = some cell → ∃ later, cells epoch after key = some later ∧
    cell.revision ≤ later.revision

theorem NeverDecreases.refl (epoch : String) (rows : Database) : NeverDecreases epoch rows rows :=
  fun _ cell here => ⟨cell,here,Int.le_refl _⟩

theorem NeverDecreases.trans {epoch : String} {first second third : Database}
    (one : NeverDecreases epoch first second) (two : NeverDecreases epoch second third) :
    NeverDecreases epoch first third := by
  intro key cell here
  obtain ⟨mid,there,le⟩ := one key cell here
  obtain ⟨last,found,bound⟩ := two key mid there
  exact ⟨last,found,le.trans bound⟩

theorem NeverDecreases.upsert (epoch : String) (rows : Database) (payload : Payload) :
    NeverDecreases epoch rows (upsert epoch rows payload) := by
  intro key cell here
  rw [cells_upsert]
  split
  · rw [here]
    exact ⟨_,rfl,stored_le_newer cell payload.cell⟩
  · exact ⟨cell,here,Int.le_refl _⟩

namespace Converging

variable {sys : Persistence}

theorem advance (converging : Converging sys) (step : Step) :
    ∃ after, sys.advance step = some after ∧ Converging after ∧ after.epoch = sys.epoch ∧
      NeverDecreases sys.epoch sys.rows after.rows := by
  cases step with
  | outbox action =>
    by_cases reports : sys.reports action
    · obtain ⟨run,stepped,_⟩ := converging.sound.advance action
      refine ⟨_,?_,converging.outbox _ reports stepped,(Run.Evolves.of_advance converging.sound stepped).epoch,.refl _ _⟩
      rw [Persistence.advance,if_pos reports,stepped]
      rfl
    · exact ⟨sys,by rw [Persistence.advance,if_neg reports],converging,rfl,.refl _ _⟩
  | execute id =>
    rw [Persistence.advance]
    cases found : sys.issued.find? fun a => a.id == id with
    | none => exact ⟨sys,rfl,converging,rfl,.refl _ _⟩
    | some a =>
      have named : a.id = id := by simpa using List.find?_some found
      subst named
      by_cases ran : a.id ∈ sys.executed
      · exact ⟨sys,if_pos ran,converging,rfl,.refl _ _⟩
      · exact ⟨_,if_neg ran,converging.run_statement (List.mem_of_find?_eq_some found),rfl,.upsert _ _ _⟩

theorem execute (steps : List Step) : ∀ {sys : Persistence}, Converging sys →
    ∃ after, sys.execute steps = some after ∧ Converging after ∧ after.epoch = sys.epoch ∧
      NeverDecreases sys.epoch sys.rows after.rows := by
  induction steps with
  | nil => exact fun converging => ⟨_,rfl,converging,rfl,.refl _ _⟩
  | cons step rest ih =>
    intro sys converging
    obtain ⟨mid,stepped,midConverging,midEpoch,midRows⟩ := converging.advance step
    obtain ⟨after,ran,kept,epoch,rows⟩ := ih midConverging
    rw [midEpoch] at epoch rows
    exact ⟨after,by rw [Persistence.execute,stepped,Option.bind_some,ran],kept,epoch,midRows.trans rows⟩

theorem start (policy : OutboxPolicy) (epoch : String) {rows : Database}
    (foreign : ∀ key row, rows.lookup key = some row → row.writerEpoch ≠ some epoch) :
    Converging (Persistence.start policy epoch rows) where
  sound := Sound.start policy epoch
  follows := Follows.initial fun key => by
    change cells epoch rows key = none
    cases here : rows.lookup key with
    | none => rw [cells,here,Option.bind_none]
    | some row => rw [cells,here,Option.bind_some,Stored.cell,if_neg (foreign key row here)]
  issued _ _ leased := nomatch leased
  id_unique := .nil
  id_le _ member := nomatch member
  written _ member := nomatch member
  executed _ member := nomatch member
  known _ member := nomatch member

theorem reached (converging : Converging sys) {key : CookieKey} {revision : Int}
    (settled : sys.run.ledger.Settled key revision) :
    ∃ row, sys.rows.lookup key = some row ∧ row.writerEpoch = some sys.epoch ∧ revision ≤ row.revision := by
  obtain ⟨cell,here,le⟩ := converging.follows.reached settled
  obtain ⟨row,found,own⟩ := Option.bind_eq_some_iff.mp here
  obtain ⟨epoch,same⟩ := Option.ite_none_right_eq_some.mp own
  obtain rfl := Option.some.inj same
  exact ⟨row,found,epoch,le⟩

/-- A key the outbox has nothing for is stored as last accepted. -/
theorem stored_last (converging : Converging sys) {w : Write CookieKey (String × Int)} (last : sys.run.ledger.Last w)
    (nothing : w.key ∉ sys.run.box.entries) :
    ∃ row, sys.rows.lookup w.key = some row ∧ (row.value,row.updated) = w.value ∧ row.revision = w.revision := by
  have empty : pieces sys.run.box.entries w.key = [] := by
    rw [pieces,heldAt,AList.lookup_eq_none.mpr nothing]
    rfl
  have settled := converging.sound.keeps.settled_of_empty last.1 empty
  have cell := converging.follows.converged converging.sound.keeps last settled
  obtain ⟨row,found,own⟩ := Option.bind_eq_some_iff.mp cell
  obtain ⟨_,equal⟩ := Option.ite_none_right_eq_some.mp own
  have same := Option.some.inj equal
  exact ⟨row,found,congrArg Cell.value same,congrArg Cell.revision same⟩

end Converging

/-- In every run stored revisions never go down, a reached fence is in the database, and a
key the outbox is done with is stored as last accepted. -/
theorem stored_cookies_converge (policy : OutboxPolicy) (epoch : String) (rows : Database)
    (foreign : ∀ key row, rows.lookup key = some row → row.writerEpoch ≠ some epoch) (steps : List Step) :
    ∃ sys, (Persistence.start policy epoch rows).execute steps = some sys ∧
      (∀ more, ∃ after, sys.execute more = some after ∧ NeverDecreases epoch sys.rows after.rows) ∧
      (∀ account fence, sys.run.box.done account fence → ∀ w ∈ sys.run.ledger.writes, w.key.1 = account →
        w.revision ≤ fence → ∃ row, sys.rows.lookup w.key = some row ∧ row.writerEpoch = some epoch ∧
          w.revision ≤ row.revision) ∧
      (∀ w, sys.run.ledger.Last w → w.key ∉ sys.run.box.entries →
        ∃ row, sys.rows.lookup w.key = some row ∧ (row.value,row.updated) = w.value ∧ row.revision = w.revision) := by
  obtain ⟨sys,ran,converging,same,_⟩ := (Converging.start policy epoch foreign).execute steps
  have own : sys.epoch = epoch := same
  refine ⟨sys,ran,?_,?_,?_⟩
  · intro more
    obtain ⟨after,further,_,_,rows⟩ := converging.execute more
    exact ⟨after,further,own ▸ rows⟩
  · intro account fence done w member sameAccount le
    have settled := (converging.sound.done_iff account fence).mp done w member sameAccount le
    exact own ▸ converging.reached settled
  · exact fun w last nothing => converging.stored_last last nothing

/-- An old attempt executes after it was reclaimed and its replacement stored. -/
theorem stored_cookies_converge_late_execution :
    let policy : OutboxPolicy := { versions := 8, bytes := 4096, writeBytes := 1024, bytes_bound := by decide }
    let steps : List Step := [.outbox (.accept "A" "k" "old" 1),.outbox (.lease ("writer",1) 4 4096 0),
      .outbox (.accept "A" "k" "new" 2),.outbox (.reclaim (some "writer")),.outbox (.lease ("writer",2) 4 4096 0),
      .execute 2,.execute 1,.outbox (.ack ("writer",2) 2 2 true 0)]
    ∃ sys, (Persistence.start policy "epoch" ∅).execute steps = some sys ∧
      (∀ more, ∃ after, sys.execute more = some after ∧ NeverDecreases "epoch" sys.rows after.rows) ∧
      (∀ account fence, sys.run.box.done account fence → ∀ w ∈ sys.run.ledger.writes, w.key.1 = account →
        w.revision ≤ fence → ∃ row, sys.rows.lookup w.key = some row ∧ row.writerEpoch = some "epoch" ∧
          w.revision ≤ row.revision) ∧
      (∀ w, sys.run.ledger.Last w → w.key ∉ sys.run.box.entries →
        ∃ row, sys.rows.lookup w.key = some row ∧ (row.value,row.updated) = w.value ∧ row.revision = w.revision) :=
  stored_cookies_converge _ "epoch" ∅ (fun _ _ here => nomatch here) _

end S2Script.Cookies
