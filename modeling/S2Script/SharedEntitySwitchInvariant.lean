import S2Script.SharedEntitySwitch

/-! The switch's invariant. Each key is either idle, when its entry says what the engine
was last told, or called out for by exactly one suspended frame. -/
namespace S2Script.SharedEntitySwitch

open Liveness Reentrant

/-- The successful engine calls for one key, oldest first. -/
def State.callsFor (s : State) (key : Key) : List Bool :=
  s.calls.filterMap (fun call => if call.1 = key then some call.2 else none)

/-- The engine's switch: the last successful call, off before any. -/
def State.engineOn (s : State) (key : Key) : Bool := (s.callsFor key).getLast?.getD false

/-- On, off, on, …: exactly the calls at even places switch on. -/
def Alternates (calls : List Bool) : Prop :=
  ∀ (i : Nat) (on : Bool), calls[i]? = some on → on = decide (i % 2 = 0)

theorem Alternates.getLast {calls : List Bool} (alternates : Alternates calls) :
    calls.getLast?.getD false = decide (calls.length % 2 = 1) := by
  cases last : calls.getLast? with
  | none => simp [List.getLast?_eq_none_iff.mp last]
  | some on =>
    rw [List.getLast?_eq_getElem?] at last
    have bound := (List.getElem?_eq_some_iff.mp last).1
    rw [Option.getD_some,alternates _ on last]
    exact decide_eq_decide.mpr (by omega)

/-- A call that flips the switch keeps the alternation. -/
theorem Alternates.concat {calls : List Bool} (alternates : Alternates calls) {on : Bool}
    (flips : calls.getLast?.getD false = !on) : Alternates (calls ++ [on]) := by
  rw [alternates.getLast] at flips
  intro i value found
  rcases Nat.lt_trichotomy i calls.length with inside | rfl | beyond
  · rw [List.getElem?_append_left inside] at found
    exact alternates i value found
  · simp only [List.getElem?_concat_length,Option.some.injEq] at found
    subst found
    cases on <;> simp at flips ⊢ <;> omega
  · have absent : (calls ++ [on])[i]? = none := by
      simp only [List.getElem?_eq_none_iff,List.length_append,List.length_singleton]
      omega
    rw [absent] at found
    cases found

/-- The operations that may take a holder off a key. -/
inductive Removes (key : Key) (holder : Holder) : Op → Prop where
  | token : Removes key holder (.change holder.1 key (some holder.2) false)
  | owner : Removes key holder (.change holder.1 key none false)
  | recorded : Removes key holder (.releaseRecorded holder.1 key holder.2)
  | unload : Removes key holder (.removeOwner holder.1)
  | slot : Removes key holder (.clearSlot key.slot)

/-- An acquisition in flight will record its holder, or is already refused. -/
def Frame.Acquires (owner : String) (key : Key) (token : String) : Frame → Prop
  | .change target next wantOn _ => target = key ∧ wantOn = true ∧ (owner,token) ∈ next
  | .retry _ _ result => result.isOk = false

/-- What an operation suspended in an engine call can rely on when it resumes. -/
structure Suspended (s : State) (op : Op) (frame : Frame) : Prop where
  direction : s.engineOn frame.key = !frame.wantOn
  kept : frame.wantOn = false → s.live frame.key = true → (s.leases[frame.key]?).isSome
  releasing : ∀ {holders holder}, s.leases[frame.key]? = some holders → holder ∈ holders →
    Removes frame.key holder op
  acquiring : ∀ {owner key token}, op = .change owner key (some token) true →
    frame.Acquires owner key token

abbrev Configuration := Config State Op Frame

/-- The keys with an engine call under way. -/
def calling (stack : List (Op × Frame)) : List Key := stack.map (fun entry => entry.2.key)

structure Invariant (config : Configuration) : Prop where
  minted : config.state.books.Minted
  distinct : (calling config.stack).Nodup
  busy : ∀ key, key ∈ config.state.busy ↔ key ∈ calling config.stack
  alternates : ∀ key, Alternates (config.state.callsFor key)
  held : ∀ key, (config.state.leases[key]?).isSome → config.state.engineOn key = true
  idle : ∀ key, key ∉ config.state.busy → config.state.live key = true →
    config.state.engineOn key = true → (config.state.leases[key]?).isSome
  unminted : ∀ key, config.state.books.nextId ≤ key.id →
    config.state.callsFor key = [] ∧ key ∉ config.state.busy
  suspended : ∀ entry ∈ config.stack, Suspended config.state entry.1 entry.2

theorem initial_invariant : Invariant ⟨initial,[]⟩ where
  minted := .new
  distinct := List.nodup_nil
  busy := by simp [initial,calling]
  alternates := by simp [initial,State.callsFor,Alternates]
  held := by simp [initial]
  idle := by simp [initial,State.engineOn,State.callsFor]
  unminted := by simp [initial,State.callsFor]
  suspended := by simp

/-- What the sweeps and notifications do to the books: identities may die or be
minted, holders may go, and an entry goes only with its entity. -/
structure Decays (s after : State) : Prop where
  books : s.books.Evolves after.books
  calls : after.calls = s.calls
  busy : after.busy = s.busy
  shrinks : ∀ {key : Key} {holders : Finset Holder}, after.leases[key]? = some holders →
    ∃ previous : Finset Holder, s.leases[key]? = some previous ∧ holders ⊆ previous
  keeps : ∀ {key : Key}, after.live key = true → (s.leases[key]?).isSome →
    (after.leases[key]?).isSome

namespace Decays

theorem callsFor {s after : State} (decays : Decays s after) (key : Key) :
    after.callsFor key = s.callsFor key := by simp [State.callsFor,decays.calls]

theorem engineOn {s after : State} (decays : Decays s after) (key : Key) :
    after.engineOn key = s.engineOn key := by simp [State.engineOn,decays.callsFor]

end Decays

namespace Invariant

variable {s after : State} {stack : List (Op × Frame)}

/-- An identity with calls on record that is live now was live before. -/
theorem live_before (valid : Invariant ⟨s,stack⟩) (decays : Decays s after) {key : Key}
    (live : after.live key = true) (used : s.engineOn key = true ∨ key ∈ s.busy) :
    s.live key = true := by
  have minted := valid.minted.evolves decays.books
  have entry := (EntityBooks.live_iff minted key.index key.id).mp live
  rcases decays.books.live entry with old | fresh
  · exact (EntityBooks.live_iff valid.minted key.index key.id).mpr old
  · have unused := valid.unminted key fresh.1
    rcases used with on | busy
    · simp [State.engineOn,unused.1] at on
    · exact absurd busy unused.2

theorem decays (valid : Invariant ⟨s,stack⟩) (decays : Decays s after) :
    Invariant ⟨after,stack⟩ where
  minted := valid.minted.evolves decays.books
  distinct := valid.distinct
  busy key := by
    simp only [decays.busy]
    exact valid.busy key
  alternates key := by
    simp only [decays.callsFor]
    exact valid.alternates key
  held key present := by
    obtain ⟨holders,entry⟩ := Option.isSome_iff_exists.mp present
    obtain ⟨previous,found,_⟩ := decays.shrinks entry
    rw [decays.engineOn]
    exact valid.held key (by simp [found])
  idle key free live on := by
    simp only [decays.busy] at free
    rw [decays.engineOn] at on
    exact decays.keeps live (valid.idle key free (valid.live_before decays live (.inl on)) on)
  unminted key fresh := by
    have unused := valid.unminted key (Nat.le_trans decays.books.minting fresh)
    simpa only [decays.callsFor,decays.busy] using unused
  suspended entry member := by
    have before := valid.suspended entry member
    have busy : entry.2.key ∈ s.busy := (valid.busy _).mpr (List.mem_map_of_mem member)
    refine ⟨?_,?_,?_,before.acquiring⟩
    · rw [decays.engineOn]
      exact before.direction
    · intro off live
      exact decays.keeps live (before.kept off (valid.live_before decays live (.inr busy)))
    · intro holders holder found mem
      obtain ⟨previous,entry,subset⟩ := decays.shrinks found
      exact before.releasing entry (subset mem)

/-- A key that is not busy, called out for. -/
theorem push (valid : Invariant ⟨s,stack⟩) {op : Op} {frame : Frame}
    (ready : Suspended s op frame) (free : frame.key ∉ s.busy)
    (live : s.live frame.key = true) :
    Invariant ⟨{ s with busy := insert frame.key s.busy },(op,frame) :: stack⟩ where
  minted := valid.minted
  distinct := List.nodup_cons.mpr ⟨fun member => free ((valid.busy _).mpr member),valid.distinct⟩
  busy key := by
    have before := valid.busy key
    simp only [calling] at before
    simp [calling,before]
  alternates := valid.alternates
  held := valid.held
  idle key free := valid.idle key (fun busy => free (Finset.mem_insert_of_mem busy))
  unminted key fresh := by
    have unused := valid.unminted key fresh
    refine ⟨unused.1,fun busy => ?_⟩
    rcases Finset.mem_insert.mp busy with rfl | busy
    · have entry := (EntityBooks.live_iff valid.minted _ _).mp live
      exact absurd (valid.minted.minted entry).2 (Nat.not_lt.mpr fresh)
    · exact unused.2 busy
  suspended entry member := by
    rcases List.mem_cons.mp member with rfl | member
    · exact ⟨ready.direction,ready.kept,ready.releasing,ready.acquiring⟩
    · have before := valid.suspended entry member
      exact ⟨before.direction,before.kept,before.releasing,before.acquiring⟩

/-- Operations act on one key at a time: an update of `key` alone keeps the invariant
when it settles `key`. In `top` is the frame that answered, if one did. -/
theorem settle {key : Key} (top : List (Op × Frame)) (valid : Invariant ⟨s,top ++ stack⟩)
    (own : ∀ entry ∈ top, entry.2.key = key) (apart : key ∉ calling stack)
    (minted : key.id < s.books.nextId) (books : after.books = s.books)
    (busy : ∀ other, other ∈ after.busy ↔ other ∈ calling stack)
    (leases : ∀ other, other ≠ key → after.leases[other]? = s.leases[other]?)
    (calls : ∀ other, other ≠ key → after.callsFor other = s.callsFor other)
    (alternates : Alternates (after.callsFor key))
    (held : (after.leases[key]?).isSome → after.engineOn key = true)
    (idle : s.live key = true → after.engineOn key = true → (after.leases[key]?).isSome) :
    Invariant ⟨after,stack⟩ := by
  have live : ∀ other, after.live other = s.live other := by simp [State.live,books]
  have engineOn : ∀ other, other ≠ key → after.engineOn other = s.engineOn other := by
    intro other different
    simp [State.engineOn,calls other different]
  have calling_iff : ∀ other, other ≠ key → (other ∈ calling (top ++ stack) ↔
      other ∈ calling stack) := by
    intro other different
    simp only [calling,List.map_append,List.mem_append,List.mem_map,or_iff_right_iff_imp]
    rintro ⟨entry,member,rfl⟩
    exact absurd (own entry member) different
  refine ⟨by rw [books]; exact valid.minted,?_,busy,?_,?_,?_,?_,?_⟩
  · have distinct := valid.distinct
    simp only [calling,List.map_append] at distinct
    exact distinct.of_append_right
  · intro other
    by_cases same : other = key
    · exact same ▸ alternates
    · change Alternates (after.callsFor other)
      rw [calls other same]
      exact valid.alternates other
  · intro other
    by_cases same : other = key
    · exact same ▸ held
    · simp only [leases other same,engineOn other same]
      exact valid.held other
  · intro other free
    by_cases same : other = key
    · subst same
      simp only [live]
      exact idle
    · simp only [leases other same,engineOn other same,live]
      refine valid.idle other fun before => free ?_
      exact (busy other).mpr ((calling_iff other same).mp ((valid.busy other).mp before))
  · intro other fresh
    simp only [books] at fresh
    have unused := valid.unminted other fresh
    have different : other ≠ key := by
      rintro rfl
      exact absurd minted (Nat.not_lt.mpr fresh)
    refine ⟨by simpa only [calls other different] using unused.1,fun now => unused.2 ?_⟩
    exact (valid.busy other).mpr ((calling_iff other different).mpr ((busy other).mp now))
  · intro entry member
    have before := valid.suspended entry (List.mem_append_right _ member)
    have different : entry.2.key ≠ key := by
      rintro rfl
      exact apart (List.mem_map_of_mem member)
    refine ⟨?_,?_,?_,before.acquiring⟩
    · simpa only [engineOn _ different] using before.direction
    · simpa only [leases _ different,live] using before.kept
    · simpa only [leases _ different] using @before.releasing

end Invariant

/-- Dropping the entry of a dead key. -/
theorem Decays.erase_dead {s : State} {key : Key} (dead : s.live key = false) :
    Decays s { s with leases := s.leases.erase key } where
  books := .refl _
  calls := rfl
  busy := rfl
  shrinks := by
    intro other holders found
    simp only [Std.HashMap.getElem?_erase,beq_iff_eq] at found
    split at found
    · cases found
    · exact ⟨holders,found,Finset.Subset.refl _⟩
  keeps := by
    intro other live present
    have different : key ≠ other := by
      rintro rfl
      have : s.live key = true := live
      simp [dead] at this
    simpa [Std.HashMap.getElem?_erase,different] using present

section Retry

variable {stack : List (Op × Frame)}

theorem State.retryKeys_books (keys : List Key) (result : Outcome) (s : State) :
    (retryKeys keys result s).1.books = s.books := by
  induction keys generalizing s with
  | nil => rfl
  | cons key rest previous =>
    simp only [retryKeys]
    split
    · exact previous s
    split
    · exact previous s
    split
    · exact previous _
    · rfl

/-- The retry loop stops with the invariant, in an engine call or at its end. -/
theorem Invariant.retryKeys {s : State} (valid : Invariant ⟨s,stack⟩) {op : Op}
    {result : Outcome} (refused : ∀ owner key token,
      op = .change owner key (some token) true → result.isOk = false) (keys : List Key) :
    Invariant (.after op stack (State.retryKeys keys result s)) := by
  induction keys generalizing s with
  | nil => exact valid
  | cons key rest previous =>
    simp only [State.retryKeys]
    split
    · exact previous valid
    next owed =>
    split
    · exact previous valid
    next free =>
    split
    next dead => exact previous (valid.decays (.erase_dead (by simpa using dead)))
    next alive =>
    have live : s.live key = true := by simpa using alive
    have owed : s.leases[key]? = some ∅ := not_not.mp owed
    have on : s.engineOn key = true := valid.held key (by simp [owed])
    have ready : Suspended s op (.retry key rest result) := by
      refine ⟨?_,?_,?_,?_⟩
      · simpa [Frame.wantOn,Frame.key] using on
      · simp [Frame.key,owed]
      · intro holders holder found member
        simp only [Frame.key,owed,Option.some.injEq] at found
        simp [← found] at member
      · exact fun acquires => refused _ _ _ acquires
    exact valid.push ready free live

end Retry

section Change

variable {s : State} {stack : List (Op × Frame)} {op : Op} {owner : String} {key : Key}
  {token : Option String} {on : Bool}

/-- The operation is a change with these arguments, by either entry. -/
def Runs (op : Op) (owner : String) (key : Key) (token : Option String) (on : Bool) : Prop :=
  op = .change owner key token on ∨
    ∃ name, op = .releaseRecorded owner key name ∧ token = some name ∧ on = false

/-- A holder a change drops is one the operation may remove. -/
theorem Runs.removes (runs : Runs op owner key token on) (named : ¬(on && token.isNone) = true)
    {previous : Finset Holder} {holder : Holder} (member : holder ∈ previous)
    (lost : holder ∉ State.nextHolders owner token on previous) : Removes key holder op := by
  match on, token with
  | true, none => simp at named
  | true, some name => exact absurd (Finset.mem_insert_of_mem member) lost
  | false, none =>
    have same : holder.1 = owner := by simpa [State.nextHolders,member] using lost
    obtain rfl | ⟨name,_,impossible,_⟩ := runs
    · exact same ▸ .owner
    · cases impossible
  | false, some name =>
    have same : holder = (owner,name) := by simpa [State.nextHolders,member] using lost
    subst same
    obtain rfl | ⟨other,rfl,rename,_⟩ := runs
    · exact .token
    · cases rename
      exact .recorded

theorem Invariant.id_lt (valid : Invariant ⟨s,stack⟩) (live : s.live key = true) :
    key.id < s.books.nextId :=
  (valid.minted.minted ((EntityBooks.live_iff valid.minted _ _).mp live)).2

/-- Outside a call, a live key is in the books exactly when the engine is on. -/
theorem Invariant.present_iff (valid : Invariant ⟨s,stack⟩) (free : key ∉ s.busy)
    (live : s.live key = true) : (s.leases[key]?).isSome = s.engineOn key :=
  Bool.eq_iff_iff.mpr ⟨valid.held key,valid.idle key free live⟩

theorem Invariant.change (valid : Invariant ⟨s,stack⟩) (runs : Runs op owner key token on) :
    Invariant (.after op stack (s.change owner key token on)) := by
  unfold State.change
  split
  · exact valid
  split
  · exact valid
  next named =>
  split
  · exact valid
  next free =>
  split
  next dead => exact valid.decays (.erase_dead (by simpa using dead))
  next alive =>
  have live : s.live key = true := by simpa using alive
  have present := valid.present_iff free live
  have apart : key ∉ calling stack := fun member => free ((valid.busy key).mpr member)
  extract_lets previous next wasOn wantOn
  split
  next same =>
    by_cases wanted : wantOn = true
    · rw [if_pos wanted]
      have on : s.engineOn key = true := by rw [← present]; exact same.trans wanted
      exact Invariant.settle [] valid (by simp) apart (valid.id_lt live) rfl valid.busy
        (fun other different => by simp [Std.HashMap.getElem?_insert,Ne.symm different])
        (fun _ _ => rfl) (valid.alternates key) (fun _ => on) (fun _ _ => by simp)
    · rw [if_neg wanted]
      exact valid
  next differ =>
    have flips : wasOn = !wantOn := by
      revert differ
      cases wasOn <;> cases wantOn <;> simp
    have ready : Suspended s op (.change key next wantOn s.epoch) := by
      refine ⟨present.symm.trans flips,?_,?_,?_⟩
      · intro off _
        have off : wantOn = false := off
        exact flips.trans (by simp [off])
      · intro holders holder found member
        have found : previous = some holders := found
        have off : wantOn = false := by simpa [wasOn,found] using flips
        have empty : State.nextHolders owner token on holders = ∅ := by
          simpa [wantOn,next,found] using off
        exact runs.removes named member (by simp [empty])
      · intro who target name acquires
        obtain rfl | ⟨_,rfl,_,_⟩ := runs
        · obtain ⟨rfl,rfl,rfl,rfl⟩ := Op.change.inj acquires
          have wanted : next ≠ ∅ := Finset.insert_ne_empty _ _
          exact ⟨rfl,by simpa [wantOn] using wanted,Finset.mem_insert_self _ _⟩
        · cases acquires
    exact valid.push ready free live

end Change

section Answers

variable {s : State} {stack : List (Op × Frame)} {op : Op} {frame : Frame}

theorem State.callsFor_answered (s : State) (key : Key) (on : Bool) (result : Outcome)
    (other : Key) : (s.answered key on result).callsFor other =
      if result.isOk ∧ other = key then s.callsFor key ++ [on] else s.callsFor other := by
  cases ok : result.isOk <;> by_cases same : other = key <;>
    simp [callsFor,answered,ok,same,List.filterMap_append,Ne.symm]

/-- Popping the frame that answered. What the entry of its key becomes is the
caller's: `after` differs from the answered state at most there. -/
theorem Invariant.answered (valid : Invariant ⟨s,(op,frame) :: stack⟩) (result : Outcome)
    (leases : Std.HashMap Key (Finset Holder))
    (others : ∀ other, other ≠ frame.key → leases[other]? = s.leases[other]?)
    (held : (leases[frame.key]?).isSome →
      if result.isOk then frame.wantOn = true else frame.wantOn = false)
    (idle : s.live frame.key = true → (if result.isOk then frame.wantOn = true else
      frame.wantOn = false) → (leases[frame.key]?).isSome) :
    Invariant ⟨{ s.answered frame.key frame.wantOn result with leases },stack⟩ := by
  have member : (op,frame) ∈ (op,frame) :: stack := List.mem_cons_self
  have waiting := valid.suspended _ member
  have fresh := List.nodup_cons.mp valid.distinct
  have minted : frame.key.id < s.books.nextId := by
    by_contra unminted
    exact (valid.unminted frame.key (Nat.le_of_not_lt unminted)).2
      ((valid.busy _).mpr List.mem_cons_self)
  -- the switch after the answer, told by the direction of the call and its success
  have switched : (s.answered frame.key frame.wantOn result).engineOn frame.key = true ↔
      if result.isOk then frame.wantOn = true else frame.wantOn = false := by
    have direction := waiting.direction
    simp only [State.engineOn] at direction
    cases ok : result.isOk with
    | false => simp [State.engineOn,State.callsFor_answered,ok,direction]
    | true => simp [State.engineOn,State.callsFor_answered,ok]
  refine Invariant.settle [(op,frame)] valid (by simp) fresh.1 minted rfl ?_ others ?_ ?_ ?_ ?_
  · intro other
    have before := valid.busy other
    simp only [calling,List.map_cons,List.mem_cons] at before
    simp only [State.answered,Finset.mem_erase,before,calling]
    constructor
    · rintro ⟨different,same | below⟩
      · exact absurd same different
      · exact below
    · intro below
      exact ⟨fun same => fresh.1 (by simpa [calling,same] using below),.inr below⟩
  · intro other different
    exact (State.callsFor_answered ..).trans (if_neg (fun both => different both.2))
  · change Alternates ((s.answered frame.key frame.wantOn result).callsFor frame.key)
    rw [State.callsFor_answered]
    split
    · exact (valid.alternates frame.key).concat waiting.direction
    · exact valid.alternates frame.key
  · exact fun present => switched.mpr (held present)
  · exact fun live on => idle live (switched.mp on)

/-- The answer leaves the entry as it is: a failure, or a key that died meanwhile. -/
theorem Invariant.answered_unchanged (valid : Invariant ⟨s,(op,frame) :: stack⟩)
    (result : Outcome) (failed : result.isOk = true → frame.wantOn = true ∧
      s.live frame.key = false) :
    Invariant ⟨s.answered frame.key frame.wantOn result,stack⟩ := by
  have waiting := valid.suspended _ List.mem_cons_self
  have off (present : (s.leases[frame.key]?).isSome) : frame.wantOn = false := by
    have on := valid.held _ present
    simpa [waiting.direction] using on
  refine valid.answered result s.leases (fun _ _ => rfl) ?_ ?_
  · intro present
    split
    next ok =>
      have clash := (failed ok).1.symm.trans (off present)
      cases clash
    next => exact off present
  · intro live switched
    split at switched
    next ok => simp [(failed ok).2] at live
    next => exact waiting.kept switched live

theorem Invariant.finishRetry {key : Key} {rest : List Key} {result : Outcome}
    (valid : Invariant ⟨s,(op,.retry key rest result) :: stack⟩) (answer : Outcome) :
    Invariant (.after op stack (s.finishRetry key rest result answer)) := by
  have waiting := valid.suspended _ List.mem_cons_self
  have refused : ∀ owner target token, op = .change owner target (some token) true →
      result.isOk = false := fun _ _ _ acquires => waiting.acquiring acquires
  unfold State.finishRetry
  refine Invariant.retryKeys ?_ refused rest
  split
  next ok =>
    exact valid.answered answer (s.leases.erase key)
      (fun other different => by
        have different : key ≠ other := Ne.symm different
        simp [Std.HashMap.getElem?_erase,different])
      (by simp [Frame.key]) (by simp [Frame.wantOn,ok])
  next failed => exact valid.answered_unchanged answer (fun ok => absurd ok failed)

theorem State.orDefault_eq (s : State) (key : Key) :
    s.orDefault key = { s with leases := (s.orDefault key).leases } := by
  unfold orDefault
  split <;> rfl

theorem State.orDefault_present (s : State) (key : Key) :
    ((s.orDefault key).leases[key]?).isSome := by
  unfold orDefault
  split
  next found => simp [found]
  next => simp

theorem State.orDefault_other (s : State) {key other : Key} (different : other ≠ key) :
    (s.orDefault key).leases[other]? = s.leases[other]? := by
  unfold orDefault
  split
  · rfl
  · simp [Std.HashMap.getElem?_insert,Ne.symm different]

theorem Invariant.finishChange {key : Key} {next : Finset Holder} {wantOn : Bool} {epoch : Nat}
    (valid : Invariant ⟨s,(op,.change key next wantOn epoch) :: stack⟩) (result : Outcome) :
    Invariant (.after op stack (s.finishChange key next wantOn epoch result)) := by
  have erased (off : wantOn = false) (ok : result.isOk = true) :
      Invariant ⟨{ s.answered key wantOn result with leases := s.leases.erase key },stack⟩ :=
    valid.answered result (s.leases.erase key)
      (fun other different => by
        have different : key ≠ other := Ne.symm different
        simp [Std.HashMap.getElem?_erase,different])
      (by simp [Frame.key]) (by simp [Frame.wantOn,off,ok])
  have recorded (holders : Finset Holder)
      (on : if result.isOk then wantOn = true else wantOn = false) :
      Invariant ⟨{ s.answered key wantOn result with leases := s.leases.insert key holders },
        stack⟩ :=
    valid.answered result (s.leases.insert key holders)
      (fun other different => by
        have different : key ≠ other := Ne.symm different
        simp [Std.HashMap.getElem?_insert,different])
      (fun _ => on) (by simp [Frame.key])
  unfold State.finishChange
  extract_lets s₁ superseded
  split
  · split
    next rolls =>
      have rolls : (wantOn = true ∧ result.isOk = true) ∧ s₁.live key = true := by
        simpa using rolls
      -- the superseded first-on leaves an owed disable, which the retry makes good
      refine Invariant.retryKeys ?_ (fun _ _ _ _ => rfl) [key]
      rw [State.orDefault_eq]
      exact valid.answered result ((s₁.orDefault key).leases)
        (fun other different => State.orDefault_other s₁ different)
        (fun _ => by simp [Frame.wantOn,rolls.1])
        (fun _ _ => State.orDefault_present s₁ key)
    next kept =>
      split
      next off =>
        have off : wantOn = false ∧ result.isOk = true := by simpa using off
        exact erased off.1 off.2
      next other =>
        refine valid.answered_unchanged result fun ok => ?_
        have on : wantOn = true := by simpa [ok] using other
        have dead : s.live key = false := by simpa [on,ok,s₁,State.live,State.answered] using kept
        exact ⟨on,dead⟩
  · split
    next message =>
      split
      next off => exact recorded ∅ (by simpa [Except.isOk,Except.toBool] using off)
      next => exact valid.answered_unchanged _ (fun ok => by cases ok)
    next =>
      split
      next on => exact recorded next on
      next off => exact erased (by simpa using off) rfl

end Answers

section Sweeps

variable {s : State} {stack : List (Op × Frame)}

theorem State.sweep_getElem? (s : State) (matching : Key → Holder → Bool) (key : Key) :
    (s.sweep matching).leases[key]? = ((s.leases[key]?).filter (fun _ => s.live key)).map
      (fun holders => holders.filter (fun holder => !matching key holder)) := by
  simp only [sweep,Std.HashMap.getElem?_map,Std.HashMap.getElem?_filter']
  rfl

theorem Decays.sweep (s : State) (matching : Key → Holder → Bool) :
    Decays s (s.sweep matching) where
  books := .refl _
  calls := rfl
  busy := rfl
  shrinks := by
    intro key holders found
    rw [State.sweep_getElem?] at found
    obtain ⟨previous,entry,rfl⟩ := Option.map_eq_some_iff.mp found
    exact ⟨previous,(Option.filter_eq_some_iff.mp entry).1,Finset.filter_subset _ _⟩
  keeps := by
    intro key live present
    have live : s.live key = true := live
    obtain ⟨holders,entry⟩ := Option.isSome_iff_exists.mp present
    simp [State.sweep_getElem?,entry,live]

/-- Keeping the entries of some keys only, with new entity books under which the
others are dead. -/
theorem Decays.retain {books : EntityBooks} (evolves : s.books.Evolves books) (epoch : Nat)
    (keep : Key → Bool) (dropped : ∀ key, keep key = false → books.live key.index key.id = false) :
    Decays s { s with books, epoch, leases := s.leases.filter (fun key _ => keep key) } where
  books := evolves
  calls := rfl
  busy := rfl
  shrinks := by
    intro key holders found
    simp only [Std.HashMap.getElem?_filter',Option.filter_eq_some_iff] at found
    exact ⟨holders,found.1,Finset.Subset.refl _⟩
  keeps := by
    intro key live present
    obtain ⟨holders,entry⟩ := Option.isSome_iff_exists.mp present
    have kept : keep key = true := by
      by_contra lost
      have dead := dropped key (by simpa using lost)
      have live : books.live key.index key.id = true := live
      simp [dead] at live
    simp [entry,kept]

/-- New entity books and a new epoch, with every entry kept. -/
theorem Decays.renew {books : EntityBooks} (evolves : s.books.Evolves books) (epoch : Nat) :
    Decays s { s with books, epoch } where
  books := evolves
  calls := rfl
  busy := rfl
  shrinks := fun found => ⟨_,found,Finset.Subset.refl _⟩
  keeps := fun _ present => present

/-- An entity notification drops the entries of the identity it retired, if any. -/
theorem State.notified_decays {index : Int} {change : EntityBooks × Option Nat}
    (minted : s.books.Minted) (evolves : s.books.Evolves change.1)
    (retires : ∀ id, change.2 = some id → change.1.idOf index ≠ some id) :
    Decays s (s.notified index change) ∧ ∀ {key : Key} {holders : Finset Holder},
      (s.notified index change).leases[key]? = some holders → s.leases[key]? = some holders := by
  obtain ⟨books,retired⟩ := change
  cases retired with
  | none => exact ⟨.renew evolves _,fun found => found⟩
  | some id =>
    refine ⟨.retain evolves _ (fun key => key.index ≠ index || key.id ≠ id) ?_,?_⟩
    · intro key gone
      have same : key.index = index ∧ key.id = id := by simpa using gone
      rw [same.1,same.2,← Bool.not_eq_true,EntityBooks.live_iff (minted.evolves evolves)]
      exact retires id rfl
    · intro key holders found
      simp only [notified,onEntityLifecycle,invalidatePending,Std.HashMap.getElem?_filter',
        Option.filter_eq_some_iff] at found
      exact found.1

theorem State.pruneDead_decays {books : EntityBooks} (evolves : s.books.Evolves books) :
    Decays s ({ s with books }.pruneDead) ∧ ∀ {key : Key} {holders : Finset Holder},
      ({ s with books }.pruneDead).leases[key]? = some holders →
        s.leases[key]? = some holders := by
  refine ⟨.retain evolves _ (fun key => books.live key.index key.id) (fun _ dead => dead),?_⟩
  intro key holders found
  simp only [pruneDead,invalidatePending,Std.HashMap.getElem?_filter',
    Option.filter_eq_some_iff] at found
  exact found.1

theorem State.reset_decays : Decays s ({ s with books := s.books.clear }.reset) where
  books := EntityBooks.clear_evolves _
  calls := rfl
  busy := rfl
  shrinks := by simp [reset]
  keeps := by simp [State.live,reset,invalidatePending,EntityBooks.live,
    EntityBooks.engineSerialFor,LiveTable.clear]

end Sweeps

/-- Every operation keeps the invariant up to its engine call or its return. -/
theorem start_invariant (op : Op) (s : State) (stack : List (Op × Frame))
    (valid : Invariant ⟨s,stack⟩) : Invariant (.after op stack (start op s)) := by
  cases op with
  | change owner key token on => exact valid.change (.inl rfl)
  | releaseRecorded owner key token => exact valid.change (.inr ⟨token,rfl,rfl,rfl⟩)
  | removeOwner owner =>
    exact (valid.decays (.sweep s _)).retryKeys (fun _ _ _ other => by cases other) _
  | clearSlot slot =>
    exact (valid.decays (.sweep s _)).retryKeys (fun _ _ _ other => by cases other) _
  | retryPending => exact valid.retryKeys (fun _ _ _ other => by cases other) _
  | pruneDead => exact valid.decays (State.pruneDead_decays (.refl s.books)).1
  | created index serial =>
    exact valid.decays (State.notified_decays valid.minted
      (EntityBooks.onCreated_evolves s.books index serial)
      (fun _ => EntityBooks.onCreated_retires valid.minted)).1
  | spawned index serial =>
    exact valid.decays (State.notified_decays valid.minted
      (EntityBooks.onSpawned_evolves s.books index serial)
      (fun _ => EntityBooks.onSpawned_retires valid.minted)).1
  | deleted index serial =>
    exact valid.decays (State.notified_decays valid.minted
      (EntityBooks.onDeleted_evolves s.books index serial)
      (fun _ => EntityBooks.onDeleted_retires)).1
  | repaired slots =>
    exact valid.decays (State.pruneDead_decays
      (EntityBooks.repairReconcile_evolves s.books slots)).1
  | mapTransition => exact valid.decays State.reset_decays

theorem resume_invariant (op : Op) (frame : Frame) (answer : Outcome) (s : State)
    (stack : List (Op × Frame)) (valid : Invariant ⟨s,(op,frame) :: stack⟩) :
    Invariant (.after op stack (resume frame answer s)) := by
  cases frame with
  | change key next wantOn epoch => exact valid.finishChange answer
  | retry key rest result => exact valid.finishRetry answer

theorem execute_invariant (events : List (Event Op Outcome)) :
    Invariant (process.execute events ⟨initial,[]⟩) :=
  process.execute_invariant start_invariant resume_invariant initial_invariant events

end S2Script.SharedEntitySwitch
