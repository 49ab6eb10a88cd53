import S2Script.CookieOutboxLeases

/-! Runs of the outbox beside the ledger of what it accepted and what was acknowledged.
Every operation keeps the ledger's unsettled writes in the entries. -/
namespace S2Script.Cookies

open WriteBehind

theorem satAdd_le {a b n : Nat} (small : n < wordMax) (le : satAdd a b ≤ n) : a + b ≤ n := by
  rw [satAdd] at le
  omega

theorem OutboxPolicy.bytes_small (policy : OutboxPolicy) : policy.bytes < wordMax := by
  have := policy.bytes_bound
  rw [wordMax]
  omega

namespace Pending

variable {p : Pending} {a : Attempt}

@[simp] theorem restore_attempt (p : Pending) (payload : Payload) : (p.restore payload).attempt = p.attempt := by
  cases ready : p.ready <;> simp [restore,ready]

/-- What giving an attempt back leaves under its key. -/
theorem restore_held (leased : p.attempt = some a) :
    let q := restore { p with attempt := none } a.payload
    q.held = p.held ∨ ∃ v, p.held = [v,a.payload] ∧ q.held = [{ v with coversFrom := min v.coversFrom a.payload.coversFrom }] := by
  cases ready : p.ready with
  | none => exact .inl (by simp only [held,restore,ready,leased]; rfl)
  | some v => exact .inr ⟨v,by simp [held,ready,leased],by simp only [held,restore]; rfl⟩

theorem answered_attempt (success : Bool) (now : Nat) : (p.answered a success now).attempt = none := by
  cases success <;> simp [answered]

theorem answered_held_success (now : Nat) : (p.answered a true now).held = p.ready.toList := by
  simp [answered,held]

theorem answered_held_failure (now : Nat) :
    (p.answered a false now).held = (restore { p with attempt := none } a.payload).held := by
  simp [answered,held]

/-- An answered entry is smaller, by the attempt or by what merged. -/
theorem restore_smaller (leased : p.attempt = some a) :
    (restore { p with attempt := none } a.payload).count ≤ p.count ∧
      (restore { p with attempt := none } a.payload).bytes ≤ p.bytes := by
  rcases restore_held leased with same | ⟨v,before,after⟩
  · simp [count,bytes,same]
  · simp [count,bytes,before,after,Payload.bytes]

theorem answered_smaller (leased : p.attempt = some a) (success : Bool) (now : Nat) :
    (p.answered a success now).count ≤ p.count ∧ (p.answered a success now).bytes ≤ p.bytes := by
  cases success with
  | true =>
    rw [count,bytes,answered_held_success,count,bytes]
    simp [held]
  | false =>
    rw [count,bytes,answered_held_failure]
    exact restore_smaller leased

theorem reclaim_cases (p : Pending) (owner : Option String) :
    p.reclaim owner = p ∨ ∃ a, p.attempt = some a ∧
      p.reclaim owner = { restore { p with attempt := none } a.payload with nextAttempt := 0 } := by
  cases leased : p.attempt with
  | none => exact .inl (by simp [reclaim,leased])
  | some a =>
    by_cases taken : owner.all (· == a.owner.1)
    · exact .inr ⟨a,rfl,by simp [reclaim,leased,taken]⟩
    · exact .inl (by simp [reclaim,leased,taken])

theorem reclaim_smaller (p : Pending) (owner : Option String) :
    (p.reclaim owner).count ≤ p.count ∧ (p.reclaim owner).bytes ≤ p.bytes := by
  rcases p.reclaim_cases owner with same | ⟨a,leased,same⟩
  · rw [same]
    exact ⟨Nat.le_refl _,Nat.le_refl _⟩
  · rw [same]
    exact restore_smaller leased

theorem reclaim_attempt {owner : Option String} (kept : (p.reclaim owner).attempt = some a) : p.reclaim owner = p := by
  rcases p.reclaim_cases owner with same | ⟨b,_,same⟩
  · exact same
  · rw [same] at kept
    simp at kept

end Pending

/-- An entry's usage under a key. -/
theorem heldAt_split (entries : Table CookieKey Pending) (key : CookieKey) :
    heldAt entries key = ((entries.lookup key).bind Pending.ready).toList ++
      ((attemptAt entries key).map Attempt.payload).toList := by
  cases here : entries.lookup key <;> simp [heldAt,attemptAt,here,Pending.held]

namespace Outbox

variable {box : Outbox}

theorem leased_some {owner : WriterOwner} {id : Nat} {revision : Int} {key : CookieKey}
    (found : box.leased owner id revision = some key) :
    ∃ p a, box.entries.lookup key = some p ∧ p.attempt = some a ∧ a.id = id ∧ a.owner = owner ∧
      a.payload.revision = revision := by
  obtain ⟨⟨_,p⟩,first,rfl⟩ := Option.map_eq_some_iff.mp found
  have named := List.find?_some first
  have here := (Table.lookup_iff_entry box.entries _ p).mpr (List.mem_of_find?_eq_some first)
  simp only [Pending.isLease,Option.any_eq_true,Bool.and_eq_true,beq_iff_eq] at named
  obtain ⟨a,attempt,⟨id,owner⟩,revision⟩ := named
  exact ⟨p,a,here,attempt,id,owner,revision⟩

theorem leased_none {owner : WriterOwner} {id : Nat} {revision : Int}
    (unnamed : ∀ key a, attemptAt box.entries key = some a → ¬(a.id = id ∧ a.owner = owner ∧ a.payload.revision = revision)) :
    box.leased owner id revision = none := by
  rw [Outbox.leased,Option.map_eq_none_iff,List.find?_eq_none]
  rintro ⟨key,p⟩ entry named
  simp only [Pending.isLease,Option.any_eq_true,Bool.and_eq_true,beq_iff_eq] at named
  obtain ⟨a,attempt,⟨id,owner⟩,revision⟩ := named
  have here := (Table.lookup_iff_entry box.entries key p).mpr entry
  exact unnamed key a ((attemptAt_of_lookup here).trans attempt) ⟨id,owner,revision⟩

/-- What an acknowledgement of a current lease does, whichever way the entry goes. -/
structure AckStep (box : Outbox) (key : CookieKey) (q : Pending) (after : Outbox) : Prop where
  held : ∀ other, heldAt after.entries other = if other = key then q.held else heldAt box.entries other
  attempts : ∀ other, attemptAt after.entries other = if other = key then none else attemptAt box.entries other
  entries : after.entries = if q.ready.isNone then box.entries.erase key else box.entries.insert key q
  order : after.order = if q.ready.isNone then box.order.filter (· != key) else box.order
  policy : after.policy = box.policy
  revision : after.revision = box.revision
  leaseId : after.leaseId = box.leaseId
  epoch : after.epoch = box.epoch

theorem ack_known {owner : WriterOwner} {id : Nat} {revision : Int} {key : CookieKey} {p : Pending} {a : Attempt}
    (found : box.leased owner id revision = some key) (here : box.entries.lookup key = some p)
    (leased : p.attempt = some a) (success : Bool) (now : Nat) :
    ∃ after, box.ack owner id revision success now =
        some (after,⟨true,if success && (p.answered a success now).ready.isNone then some key else none⟩) ∧
      AckStep box key (p.answered a success now) after := by
  have unleased := Pending.answered_attempt (p := p) (a := a) success now
  simp only [ack,found,here,leased]
  generalize p.answered a success now = q at unleased
  by_cases empty : q.ready.isNone
  · have none : q.held = [] := by
      rw [Option.isNone_iff_eq_none] at empty
      simp [Pending.held,empty,unleased]
    refine ⟨_,by rw [if_pos empty,empty,Bool.and_true],?_⟩
    constructor
    · intro other
      rw [none]
      cases success <;> exact heldAt_erase
    · intro other
      cases success <;> exact attemptAt_erase
    · rw [if_pos empty]
      cases success <;> rfl
    · rw [if_pos empty]
      cases success <;> rfl
    all_goals cases success <;> rfl
  · refine ⟨_,by rw [if_neg empty,Bool.not_eq_true _ |>.mp empty,Bool.and_false]; rfl,?_⟩
    constructor
    · intro other
      cases success <;> exact heldAt_insert
    · intro other
      rw [← unleased]
      cases success <;> exact attemptAt_insert
    · rw [if_neg empty]
      cases success <;> rfl
    · rw [if_neg empty]
      cases success <;> rfl
    all_goals cases success <;> rfl

end Outbox

inductive Action where
  | accept (sid name value : String) (updated : Int)
  | lease (owner : WriterOwner) (maxItems maxBytes now : Nat)
  | ack (owner : WriterOwner) (id : Nat) (revision : Int) (success : Bool) (now : Nat)
  | reclaim (owner : Option String)

/-- The outbox and the ledger of its answers. -/
structure Run where
  box : Outbox
  ledger : Ledger CookieKey (String × Int)

namespace Run

def start (policy : OutboxPolicy) (epoch : String) : Run := ⟨{ policy := policy, epoch := epoch },{}⟩

/-- The ledger learns of accepted writes and of successful acknowledgements of a lease. -/
def advance (run : Run) : Action → Option Run
  | .accept sid name value updated =>
    let after := run.box.accept sid name value updated
    some ⟨after.1,if after.2 then run.ledger.accept ⟨(sid,name),(value,updated),after.1.revision⟩ else run.ledger⟩
  | .lease owner maxItems maxBytes now =>
    (run.box.lease owner maxItems maxBytes now).map fun after => ⟨after.1,run.ledger⟩
  | .ack owner id revision success now =>
    (run.box.ack owner id revision success now).map fun after =>
      ⟨after.1,match run.box.leased owner id revision with
        | some key => if success then run.ledger.acknowledge key revision else run.ledger
        | none => run.ledger⟩
  | .reclaim owner => some { run with box := run.box.reclaim owner }

def execute : List Action → Run → Option Run
  | [], run => some run
  | action :: rest, run => (run.advance action).bind (execute rest)

end Run

/-- What every run keeps. -/
structure Sound (run : Run) : Prop where
  keeps : Keeps run.ledger (pieces run.box.entries)
  order_nodup : run.box.order.Nodup
  order_iff : ∀ key, key ∈ run.box.order ↔ key ∈ run.box.entries
  occupied : ∀ key ∈ run.box.entries, heldAt run.box.entries key ≠ []
  named : ∀ key, ∀ payload ∈ heldAt run.box.entries key, payload.key = key
  newest : ∀ w ∈ run.ledger.writes, w.revision ≤ run.box.revision
  leases : Leases run.box.policy.concurrent run.box.entries run.box.leaseId
  versions : run.box.usage.1 ≤ run.box.policy.versions
  bytes : run.box.usage.2 ≤ run.box.policy.bytes

namespace Outbox

variable {box : Outbox} {sid name value : String}

/-- What admission checked. -/
theorem admitted (admits : box.refuses sid name value = false) :
    box.usage.1 + (if (box.replaced (sid,name)).isNone then 1 else 0) ≤ box.policy.versions ∧
      box.usage.2 - ((box.replaced (sid,name)).map Payload.bytes).getD 0 +
        (128 + sid.utf8ByteSize + name.utf8ByteSize + value.utf8ByteSize) ≤ box.policy.bytes := by
  simp only [refuses,Bool.or_eq_false_iff,decide_eq_false_iff_not,Nat.not_lt] at admits
  obtain ⟨⟨⟨_,versions⟩,bytes⟩,_⟩ := admits
  have small := box.policy.bytes_small
  have whole := satAdd_le small bytes
  have values := satAdd_le small (Nat.le_of_add_left_le whole)
  have names := satAdd_le small (Nat.le_of_add_right_le values)
  have sids := satAdd_le small (Nat.le_of_add_right_le names)
  simp only [satAdd] at whole values names sids ⊢
  omega

theorem accept_admitted (admits : box.refuses sid name value = false) (updated : Int) :
    (box.accept sid name value updated).2 = true := by
  simp [accept,admits]

theorem accept_attempts (box : Outbox) (sid name value : String) (updated : Int) (key : CookieKey) :
    attemptAt (box.accept sid name value updated).1.entries key = attemptAt box.entries key := by
  simp only [accept]
  split
  · rfl
  · rw [attemptAt_insert]
    split
    · next same =>
      subst same
      cases here : box.entries.lookup (sid,name) <;> simp [attemptAt,here]
    · rfl

theorem accept_refused (refused : box.refuses sid name value = true) (updated : Int) :
    box.accept sid name value updated = ({ box with rejected := satAdd box.rejected 1 },false) := by
  simp [accept,refused]

end Outbox

/-- The entry of a key once a payload became its ready one. -/
theorem refilled_charge (charge : Payload → Nat) (lookup : Option Pending) (payload : Payload) :
    let held (p : Pending) := (p.held.map charge).sum
    held { lookup.getD {} with ready := some payload } + ((lookup.bind Pending.ready).map charge).getD 0 =
      (lookup.map held).getD 0 + charge payload := by
  cases lookup with
  | none => simp [Pending.held]
  | some p =>
    cases ready : p.ready <;> simp [Pending.held,ready] <;> omega

theorem count_eq_sum (p : Pending) : p.count = (p.held.map fun _ => 1).sum := by
  simp [Pending.count]

namespace Sound

variable {run : Run}

theorem accept (sound : Sound run) {sid name value : String} (admits : run.box.refuses sid name value = false)
    (updated : Int) :
    let after := (run.box.accept sid name value updated).1
    Sound ⟨after,run.ledger.accept ⟨(sid,name),(value,updated),after.revision⟩⟩ := by
  obtain ⟨versions,bytes⟩ := Outbox.admitted admits
  let key : CookieKey := (sid,name)
  let old := run.box.replaced key
  let payload : Payload := ⟨sid,name,value,updated,run.box.revision + 1,(old.map Payload.coversFrom).getD (run.box.revision + 1)⟩
  let p : Pending := { (run.box.entries.lookup key).getD {} with ready := some payload }
  have whole : (run.box.accept sid name value updated).1 = { run.box with
      revision := run.box.revision + 1
      coalesced := if old.isSome then satAdd run.box.coalesced 1 else run.box.coalesced
      order := if key ∈ run.box.entries then run.box.order else run.box.order ++ [key]
      entries := run.box.entries.insert key p
      accepted := satAdd run.box.accepted 1 } := by
    simp only [Outbox.accept,admits,Bool.false_eq_true,if_false]
    rfl
  have above : ∀ w ∈ run.ledger.writes, w.revision < run.box.revision + 1 := fun w member => by
    have := sound.newest w member
    omega
  have attempts : ∀ other, attemptAt (run.box.entries.insert key p) other = attemptAt run.box.entries other := by
    intro other
    have same := run.box.accept_attempts sid name value updated other
    rw [whole] at same
    exact same
  have attempt : p.attempt = attemptAt run.box.entries key := by
    rw [← attempts,attemptAt_insert,if_pos rfl]
  have oldHeld : heldAt run.box.entries key = old.toList ++ ((attemptAt run.box.entries key).map Attempt.payload).toList :=
    heldAt_split run.box.entries key
  have newHeld : p.held = payload :: ((attemptAt run.box.entries key).map Attempt.payload).toList := by
    rw [← attempt]
    rfl
  have held : ∀ other, heldAt (run.box.entries.insert key p) other =
      if other = key then p.held else heldAt run.box.entries other := fun _ => heldAt_insert
  -- a ready payload that is replaced gives its range to the new one
  have starts : ∀ start, (∀ v ∈ heldAt run.box.entries key, start ≤ v.coversFrom) → start ≤ run.box.revision + 1 →
      start ≤ payload.coversFrom := by
    intro start least last
    cases replaced : old with
    | none => simpa [payload,replaced] using last
    | some v =>
      have := least v (by simp [oldHeld,replaced])
      simpa [payload,replaced] using this
  rw [whole]
  constructor
  · refine sound.keeps.accept (old.map Payload.piece)
      (((attemptAt run.box.entries key).map Attempt.payload).toList.map Payload.piece) above ?_ ?_ ?_
    · change (heldAt run.box.entries key).map Payload.piece = _
      rw [oldHeld,List.map_append]
      cases old <;> rfl
    · change (heldAt (run.box.entries.insert key p) key).map Payload.piece = _
      rw [held,if_pos rfl,newHeld,List.map_cons]
      cases replaced : old <;> simp [payload,replaced,Payload.piece]
    · intro other differ
      change (heldAt (run.box.entries.insert key p) other).map Payload.piece = _
      rw [held,if_neg differ]
      rfl
  · change (if key ∈ run.box.entries then run.box.order else run.box.order ++ [key]).Nodup
    split
    · exact sound.order_nodup
    · next absent =>
      refine List.nodup_append.mpr ⟨sound.order_nodup,List.nodup_singleton _,fun other member last new => ?_⟩
      rw [List.mem_singleton.mp new]
      rintro same
      exact absent ((sound.order_iff key).mp (same ▸ member))
  · intro other
    change other ∈ (if key ∈ run.box.entries then run.box.order else run.box.order ++ [key]) ↔
      other ∈ run.box.entries.insert key p
    rw [AList.mem_insert,← sound.order_iff other]
    split
    · next present =>
      have := (sound.order_iff key).mpr present
      constructor
      · exact .inr
      · rintro (rfl | member)
        · exact this
        · exact member
    · rw [List.mem_append,List.mem_singleton,or_comm]
  · intro other member
    rw [held]
    split
    · simp [newHeld]
    · next differ => exact sound.occupied other ((AList.mem_insert _).mp member |>.resolve_left differ)
  · intro other v member
    rw [held] at member
    split at member
    · next same =>
      rw [newHeld] at member
      rcases List.mem_cons.mp member with rfl | inAttempt
      · exact same.symm
      · exact same ▸ sound.named key v (oldHeld ▸ List.mem_append_right _ inAttempt)
    · exact sound.named other v member
  · intro w member
    rcases List.mem_append.mp member with earlier | new
    · have := above w earlier
      exact Int.le_of_lt this
    · rw [List.mem_singleton.mp new]
  · refine sound.leases.shrink (fun other a leased => (attempts other).symm.trans leased) ?_
    intro one other a leased same v member
    have before := (attempts one).symm.trans leased
    have least := fun third (equal : third.1 = one.1) => sound.leases.first one third a before equal
    rw [held] at member
    split at member
    · next isKey =>
      subst isKey
      rw [newHeld] at member
      rcases List.mem_cons.mp member with rfl | inAttempt
      · refine starts _ (least key same) ?_
        obtain ⟨w,inLedger,_,first⟩ := sound.keeps.begins one a.payload.piece (List.mem_map_of_mem (attempt_held before))
        have := above w inLedger
        have covers : a.payload.coversFrom = w.revision := first.symm
        omega
      · exact least key same v (oldHeld ▸ List.mem_append_right _ inAttempt)
    · exact least other same v member
  · have counts := refilled_charge (fun _ => 1) (run.box.entries.lookup key) payload
    have before := Table.weight_split (fun _ p => Pending.count p) run.box.entries key
    change Table.weight (fun _ p => Pending.count p) (run.box.entries.insert key p) ≤ run.box.policy.versions
    rw [Table.weight_insert_erase]
    simp only [← count_eq_sum] at counts
    change run.box.entries.weight (fun _ p => Pending.count p) + (if old.isNone then 1 else 0) ≤ _ at versions
    change p.count + (old.map fun _ => 1).getD 0 = _ at counts
    cases replaced : old <;> simp only [replaced,Option.isNone_none,Option.isNone_some,Option.map_none,Option.map_some,
      Option.getD_none,Option.getD_some,if_true,Bool.false_eq_true,if_false] at versions counts <;> omega
  · have sizes := refilled_charge Payload.bytes (run.box.entries.lookup key) payload
    have before : run.box.entries.weight (fun _ p => Pending.bytes p) =
        Table.weight (fun _ p => Pending.bytes p) (run.box.entries.erase key) +
          ((run.box.entries.lookup key).map Pending.bytes).getD 0 := Table.weight_split _ run.box.entries key
    change Table.weight (fun _ p => Pending.bytes p) (run.box.entries.insert key p) ≤ run.box.policy.bytes
    rw [Table.weight_insert_erase]
    have contains : payload.bytes ≤ p.bytes := by
      rw [Pending.bytes,newHeld,List.map_cons,List.sum_cons]
      exact Nat.le_add_right _ _
    change run.box.entries.weight (fun _ p => Pending.bytes p) - (old.map Payload.bytes).getD 0 + payload.bytes ≤ _ at bytes
    change p.bytes + (old.map Payload.bytes).getD 0 = ((run.box.entries.lookup key).map Pending.bytes).getD 0 + _ at sizes
    omega

/-- Nothing a refusal changes is part of the invariant. -/
theorem reject (sound : Sound run) (rejected : Nat) : Sound { run with box := { run.box with rejected := rejected } } where
  __ := sound

theorem stale (sound : Sound run) (staleAcks : Nat) : Sound { run with box := { run.box with staleAcks := staleAcks } } where
  __ := sound

end Sound

/-- What `lease` does to the outbox. -/
structure Outbox.LeaseStep (box after : Outbox) (admitted : List Attempt) : Prop where
  held : ∀ key, heldAt after.entries key = heldAt box.entries key
  keys : ∀ key, key ∈ after.entries ↔ key ∈ box.entries
  usage : after.usage = box.usage
  leases : Leases box.policy.concurrent after.entries after.leaseId
  entered : ∀ a ∈ admitted, ∃ key, attemptAt after.entries key = some a
  attempts : ∀ key a, attemptAt after.entries key = some a → attemptAt box.entries key = some a ∨ a ∈ admitted
  later : box.leaseId ≤ after.leaseId
  fresh : ∀ a ∈ admitted, box.leaseId < a.id ∧ a.id ≤ after.leaseId
  ordered : admitted.Pairwise fun a b => a.id < b.id
  policy : after.policy = box.policy
  revision : after.revision = box.revision
  epoch : after.epoch = box.epoch

namespace Sound

variable {run : Run}

theorem lease (sound : Sound run) (owner : WriterOwner) (maxItems maxBytes now : Nat) :
    ∃ after admitted, run.box.lease owner maxItems maxBytes now = some (after,admitted) ∧
      run.box.LeaseStep after admitted ∧ Sound ⟨after,run.ledger⟩ := by
  let terms := run.box.terms owner maxItems maxBytes now
  let start : Round :=
    { entries := run.box.entries, order := run.box.order, busy := busyAccounts run.box.entries, leaseId := run.box.leaseId }
  have room : (busyAccounts run.box.entries).card + terms.limit ≤ run.box.policy.concurrent := by
    have := sound.leases.few
    change _ + min (min maxItems run.box.policy.batchItems)
      (run.box.policy.concurrent - (busyAccounts run.box.entries).card) ≤ _
    omega
  have initial : Round.Sound run.box terms start := by
    constructor <;> first | exact sound.leases | simp [start]
  obtain ⟨round,ran,done,order⟩ := Round.Sound.loop room rfl run.box.order [] initial (List.append_nil _).symm
    (fun key member => (sound.order_iff key).mp member)
  rw [List.nil_append] at order
  have known : ∀ a ∈ round.result, a.payload.key ∈ round.order := by
    intro a member
    obtain ⟨key,leased⟩ := done.entered a member
    have held := attempt_held leased
    rw [done.held] at held
    have present : key ∈ round.entries := Table.mem_of_lookup (lookup_of_attemptAt leased).choose_spec.1
    rw [sound.named key _ held,order]
    exact (sound.order_iff key).mpr ((done.keys key).mp present)
  obtain ⟨nodup,same⟩ := toBack_all round.result (order ▸ sound.order_nodup) known
  refine ⟨_,_,by rw [Outbox.lease,ran]; rfl,?_,?_⟩
  · exact ⟨done.held,done.keys,Prod.ext done.count done.size,done.leases,done.entered,done.attempts,done.later,
      done.fresh,done.ordered,rfl,rfl,rfl⟩
  · have pieces : pieces round.entries = pieces run.box.entries := by
      funext key
      rw [S2Script.Cookies.pieces,done.held]
      rfl
    constructor
    · exact pieces ▸ sound.keeps
    · exact nodup
    · intro key
      rw [same,order,sound.order_iff]
      exact (done.keys key).symm
    · intro key member
      rw [done.held]
      exact sound.occupied key ((done.keys key).mp member)
    · intro key payload member
      rw [done.held] at member
      exact sound.named key payload member
    · exact sound.newest
    · exact done.leases
    · exact done.count.trans_le sound.versions
    · exact done.size.trans_le sound.bytes

/-- Usage of an entry that is replaced by a smaller one, or removed when nothing is left of it. -/
theorem weight_answered (charge : Pending → Nat) {entries : Table CookieKey Pending} {key : CookieKey} {p q : Pending}
    (here : entries.lookup key = some p) (smaller : charge q ≤ charge p) :
    Table.weight (fun _ r => charge r) (if q.ready.isNone then entries.erase key else entries.insert key q) ≤
      entries.weight fun _ r => charge r := by
  rw [Table.weight_erase (fun _ r => charge r) here]
  split
  · exact Nat.le_add_right _ _
  · rw [Table.weight_insert_erase]
    exact Nat.add_le_add_left smaller _

/-- An answered lease: settled when it succeeded, merged back when it failed. -/
theorem ack (sound : Sound run) {owner : WriterOwner} {id : Nat} {revision : Int} {key : CookieKey} {p : Pending}
    {a : Attempt} (found : run.box.leased owner id revision = some key) (here : run.box.entries.lookup key = some p)
    (leased : p.attempt = some a) (named : a.payload.revision = revision) {success : Bool} {now : Nat} {after : Outbox}
    (step : run.box.AckStep key (p.answered a success now) after) :
    Sound ⟨after,if success then run.ledger.acknowledge key revision else run.ledger⟩ := by
  have before : heldAt run.box.entries key = p.ready.toList ++ [a.payload] := by
    rw [heldAt_of_lookup here,Pending.held,leased]
    rfl
  have unleased := Pending.answered_attempt (p := p) (a := a) success now
  have smaller := Pending.answered_smaller leased success now
  have empty : (p.answered a success now).ready.isNone ↔ (p.answered a success now).held = [] := by
    simp [Pending.held,unleased]
  have each : ∀ v ∈ (p.answered a success now).held, v.key = key := by
    intro v member
    cases success with
    | true =>
      rw [Pending.answered_held_success] at member
      exact sound.named key v (before ▸ List.mem_append_left _ member)
    | false =>
      rw [Pending.answered_held_failure] at member
      rcases Pending.restore_held leased with same | ⟨w,both,merged⟩
      · exact sound.named key v (heldAt_of_lookup here ▸ same ▸ member)
      · rw [merged,List.mem_singleton] at member
        rw [member]
        exact sound.named key w (heldAt_of_lookup here ▸ both ▸ List.mem_cons_self)
  constructor
  · have others : ∀ other, other ≠ key → pieces after.entries other = pieces run.box.entries other := by
      intro other differ
      rw [pieces,step.held,if_neg differ]
      rfl
    cases success with
    | true =>
      rw [if_pos rfl,← named]
      refine sound.keeps.settle a.payload.piece (p.ready.toList.map Payload.piece) ?_ ?_ others
      · rw [pieces,before,List.map_append]
        rfl
      · rw [pieces,step.held,if_pos rfl,Pending.answered_held_success]
    | false =>
      refine sound.keeps.merge fun other => ?_
      by_cases same : other = key
      · subst same
        rw [pieces,pieces,step.held,if_pos rfl,Pending.answered_held_failure,heldAt_of_lookup here]
        rcases Pending.restore_held leased with same | ⟨w,both,merged⟩
        · exact .inl (congrArg _ same)
        · rw [both,merged]
          exact .inr ⟨w.piece,a.payload.piece,rfl,rfl⟩
      · exact .inl (others other same)
  · rw [step.order]
    split
    · exact sound.order_nodup.filter _
    · exact sound.order_nodup
  · intro other
    change other ∈ after.order ↔ other ∈ after.entries
    rw [step.order,step.entries]
    split
    · rw [AList.mem_erase,List.mem_filter,bne_iff_ne,sound.order_iff,and_comm]
    · rw [AList.mem_insert,sound.order_iff,iff_or_self]
      rintro rfl
      exact Table.mem_of_lookup here
  · intro other member
    change other ∈ after.entries at member
    change heldAt after.entries other ≠ []
    rw [step.entries] at member
    rw [step.held]
    split at member
    · obtain ⟨differ,old⟩ := AList.mem_erase.mp member
      rw [if_neg differ]
      exact sound.occupied other old
    · next ready =>
      split
      · exact fun none => ready (empty.mpr none)
      · next differ => exact sound.occupied other ((AList.mem_insert _).mp member |>.resolve_left differ)
  · intro other v member
    change v ∈ heldAt after.entries other at member
    rw [step.held] at member
    split at member
    · next same => exact same ▸ each v member
    · exact sound.named other v member
  · intro w member
    change w.revision ≤ after.revision
    rw [step.revision]
    cases success <;> exact sound.newest w member
  · change Leases after.policy.concurrent after.entries after.leaseId
    rw [step.policy,step.leaseId]
    have fewer : ∀ other b, attemptAt after.entries other = some b → other ≠ key ∧ attemptAt run.box.entries other = some b := by
      intro other b there
      rw [step.attempts] at there
      split at there
      · cases there
      · next differ => exact ⟨differ,there⟩
    refine sound.leases.shrink (fun other b there => (fewer other b there).2) ?_
    intro one other b there same v member
    obtain ⟨differ,old⟩ := fewer one b there
    have apart : other ≠ key := by
      rintro rfl
      exact differ (sound.leases.single one other b a old ((attemptAt_of_lookup here).trans leased) same.symm)
    rw [step.held,if_neg apart] at member
    exact sound.leases.first one other b old same v member
  · change Table.weight (fun _ r => Pending.count r) after.entries ≤ after.policy.versions
    rw [step.entries,step.policy]
    exact (weight_answered Pending.count here smaller.1).trans sound.versions
  · change Table.weight (fun _ r => Pending.bytes r) after.entries ≤ after.policy.bytes
    rw [step.entries,step.policy]
    exact (weight_answered Pending.bytes here smaller.2).trans sound.bytes

theorem heldAt_reclaim (box : Outbox) (owner : Option String) (key : CookieKey) :
    heldAt (box.reclaim owner).entries key = (((box.entries.lookup key).map (Pending.reclaim owner)).map Pending.held).getD [] := by
  rw [heldAt,Outbox.reclaim,Table.lookup_mapValues]

/-- A key that is still leased was not touched. -/
theorem reclaim_untouched {box : Outbox} {owner : Option String} {key : CookieKey} {a : Attempt}
    (leased : attemptAt (box.reclaim owner).entries key = some a) :
    attemptAt box.entries key = some a ∧ heldAt (box.reclaim owner).entries key = heldAt box.entries key := by
  obtain ⟨q,there,attempt⟩ := lookup_of_attemptAt leased
  rw [Outbox.reclaim,Table.lookup_mapValues] at there
  obtain ⟨p,here,rfl⟩ := Option.map_eq_some_iff.mp there
  have same := Pending.reclaim_attempt attempt
  rw [same] at attempt
  refine ⟨(attemptAt_of_lookup here).trans attempt,?_⟩
  rw [heldAt_reclaim,here,heldAt_of_lookup here]
  simp only [Option.map_some,Option.getD_some,same]

theorem weight_reclaim (charge : Pending → Nat) (box : Outbox) (owner : Option String)
    (smaller : ∀ p : Pending, charge (p.reclaim owner) ≤ charge p) :
    (box.reclaim owner).entries.weight (fun _ p => charge p) ≤ box.entries.weight fun _ p => charge p := by
  simp only [Outbox.reclaim,Table.weight,Table.mapValues,List.map_map]
  exact List.sum_le_sum fun entry _ => smaller entry.2

theorem reclaim (sound : Sound run) (owner : Option String) : Sound { run with box := run.box.reclaim owner } := by
  have cases : ∀ key, heldAt (run.box.reclaim owner).entries key = heldAt run.box.entries key ∨
      ∃ v payload, heldAt run.box.entries key = [v,payload] ∧
        heldAt (run.box.reclaim owner).entries key = [{ v with coversFrom := min v.coversFrom payload.coversFrom }] := by
    intro key
    rw [heldAt_reclaim]
    cases here : run.box.entries.lookup key with
    | none => exact .inl (by simp [heldAt,here])
    | some p =>
      rw [heldAt_of_lookup here]
      rcases p.reclaim_cases owner with same | ⟨a,leased,same⟩
      · exact .inl (by simp [same])
      · rcases Pending.restore_held leased with kept | ⟨v,both,merged⟩
        · refine .inl ?_
          rw [Option.map_some,Option.map_some,Option.getD_some,same]
          exact kept
        · refine .inr ⟨v,a.payload,both,?_⟩
          rw [Option.map_some,Option.map_some,Option.getD_some,same]
          exact merged
  have keys : ∀ key, key ∈ (run.box.reclaim owner).entries ↔ key ∈ run.box.entries := by
    intro key
    rw [← AList.lookup_isSome,← AList.lookup_isSome,Outbox.reclaim,Table.lookup_mapValues,Option.isSome_map]
  constructor
  · refine sound.keeps.merge fun key => ?_
    rcases cases key with same | ⟨v,payload,before,after⟩
    · exact .inl (congrArg (List.map Payload.piece) same)
    · refine .inr ⟨v.piece,payload.piece,?_,?_⟩
      · rw [pieces,before]
        rfl
      · rw [pieces,after]
        rfl
  · exact sound.order_nodup
  · exact fun key => (sound.order_iff key).trans (keys key).symm
  · intro key member
    rcases cases key with same | ⟨v,payload,_,after⟩
    · rw [same]
      exact sound.occupied key ((keys key).mp member)
    · rw [after]
      exact List.cons_ne_nil _ _
  · intro key w member
    rcases cases key with same | ⟨v,payload,before,after⟩
    · exact sound.named key w (same ▸ member)
    · rw [after,List.mem_singleton] at member
      rw [member]
      exact sound.named key v (before ▸ List.mem_cons_self)
  · exact sound.newest
  · refine sound.leases.shrink (fun key a leased => (reclaim_untouched leased).1) ?_
    intro key other a leased same v member
    have old := (reclaim_untouched leased).1
    -- the account's other keys are not leased, so nothing of them came back
    have kept : heldAt (run.box.reclaim owner).entries other = heldAt run.box.entries other := by
      by_cases equal : other = key
      · exact equal ▸ (reclaim_untouched leased).2
      · rw [heldAt_reclaim]
        cases here : run.box.entries.lookup other with
        | none => simp [heldAt,here]
        | some p =>
          have unleased : p.attempt = none := by
            by_contra some
            obtain ⟨b,attempt⟩ := Option.ne_none_iff_exists'.mp some
            exact equal (sound.leases.single other key b a ((attemptAt_of_lookup here).trans attempt) old same)
          rw [heldAt_of_lookup here]
          simp [Pending.reclaim,unleased]
    exact sound.leases.first key other a old same v (kept ▸ member)
  · exact (weight_reclaim Pending.count run.box owner fun p => (p.reclaim_smaller owner).1).trans sound.versions
  · exact (weight_reclaim Pending.bytes run.box owner fun p => (p.reclaim_smaller owner).2).trans sound.bytes

end Sound

end S2Script.Cookies
