import S2Script.AsyncPolicy
import S2Script.CookieOutboxSafety
import S2Script.Utf8Lossy

/-! Progress of the outbox. A lease takes the first key of the order that is offered, so each round
brings a waiting account one key closer to its turn, as long as its payload fits a batch. -/
namespace S2Script.Cookies

open WriteBehind

/-- The limits the cookies take from the policy of the asynchronous services. -/
def outboxPolicy (policy : AsyncPolicy) (valid : policy.validate = true) : OutboxPolicy where
  versions := policy.cookieVersions
  bytes := policy.cookieBytes
  writeBytes := policy.cookieWriteBytes
  bytes_bound := (AsyncPolicy.cookieLimits valid).bytes

/-! ### What a lease takes -/

/-- A ready payload that is its account's oldest, is due, and fits a batch of its own. -/
structure Offered (terms : Terms) (entries : Table CookieKey Pending) (key : CookieKey) : Prop where
  offered : ∃ p payload, entries.lookup key = some p ∧ p.ready = some payload ∧ p.attempt = none ∧ p.nextAttempt ≤ terms.now ∧
    terms.oldest key.1 = some payload.coversFrom ∧ payload.bytes ≤ terms.maxBytes

namespace Round

/-- A round that has taken nothing yet. -/
structure Fresh (terms : Terms) (round : Round) : Prop where
  idle : round.busy = ∅
  bytes : round.bytes = 0
  leaseId : round.leaseId < wordMax
  result : round.result = []
  limit : 0 < terms.limit

theorem Fresh.reorder {terms : Terms} {round : Round} (fresh : Fresh terms round) (order : List CookieKey) :
    Fresh terms { round with order := order } where
  __ := fresh

/-- A visit changes nothing or takes the ready payload of its key. -/
theorem visit_cases {terms : Terms} {round after : Round} {key : CookieKey} (visited : round.visit terms key = some after) :
    after = round ∨ ∃ p payload, round.entries.lookup key = some p ∧ p.ready = some payload ∧ round.admits terms key p = true ∧
      round.fits terms key payload = true ∧ after = round.take terms key p payload := by
  rw [visit.eq_def] at visited
  split at visited
  · contradiction
  · next p here =>
    split at visited
    · exact .inl (Option.some.inj visited).symm
    · next payload ready =>
      split at visited
      · next eligible =>
        rw [Bool.and_eq_true] at eligible
        exact .inr ⟨p,payload,here,ready,eligible.1,eligible.2,(Option.some.inj visited).symm⟩
      · exact .inl (Option.some.inj visited).symm

/-- The loop takes back nothing it has taken. -/
theorem loop_keeps {terms : Terms} {n : Nat} {round final : Round} (ran : round.loop terms n = some final) {a : Attempt}
    (member : a ∈ round.result) : a ∈ final.result := by
  induction n generalizing round with
  | zero =>
    cases ran
    exact member
  | succ n ih =>
    rw [loop.eq_def] at ran
    simp only at ran
    split at ran
    · contradiction
    · next key rest order =>
      obtain ⟨mid,visited,ran⟩ := Option.bind_eq_some_iff.mp ran
      refine ih ran ?_
      obtain rfl | ⟨p,payload,_,_,_,_,rfl⟩ := visit_cases visited
      · exact member
      · exact List.mem_append_left _ member

/-- A fresh round takes the payload it is offered. -/
theorem visit_offered {terms : Terms} {round : Round} {key : CookieKey} (fresh : Fresh terms round)
    (offered : Offered terms round.entries key) :
    ∃ p payload, round.entries.lookup key = some p ∧ p.ready = some payload ∧ round.visit terms key = some (round.take terms key p payload) := by
  obtain ⟨p,payload,here,ready,unleased,due,oldest,fits⟩ := offered
  have admits : round.admits terms key p = true := by simp [Round.admits,fresh.result,fresh.limit,fresh.idle,due,unleased]
  have room : round.fits terms key payload = true := by simp [Round.fits,oldest,fresh.bytes,fits,fresh.leaseId]
  exact ⟨p,payload,here,ready,by simp only [Round.visit,here,ready,admits,room,Bool.and_self,if_true]⟩

/-- The first payload a fresh round takes is at an offered key or at one in front of it. -/
theorem loop_offered {terms : Terms} {key : CookieKey} (front : List CookieKey) {n : Nat} {round final : Round} {back : List CookieKey}
    (fresh : Fresh terms round) (offered : Offered terms round.entries key) (order : round.order = front ++ key :: back)
    (named : ∀ key p payload, round.entries.lookup key = some p → p.ready = some payload → payload.key = key)
    (ran : round.loop terms n = some final) (enough : front.length < n) :
    ∃ a ∈ final.result, a.payload.key = key ∨ a.payload.key ∈ front := by
  induction front generalizing n round back with
  | nil =>
    obtain ⟨n,rfl⟩ := Nat.exists_eq_succ_of_ne_zero (Nat.ne_of_gt enough)
    rw [List.nil_append] at order
    rw [loop,order] at ran
    obtain ⟨mid,visited,ran⟩ := Option.bind_eq_some_iff.mp ran
    obtain ⟨p,payload,here,ready,taken⟩ := visit_offered (fresh.reorder back) offered
    obtain rfl := Option.some.inj (taken.symm.trans visited)
    exact ⟨_,loop_keeps ran (List.mem_append_right _ (List.mem_singleton_self _)),.inl (named key p payload here ready)⟩
  | cons first front ih =>
    obtain ⟨n,rfl⟩ := Nat.exists_eq_succ_of_ne_zero (Nat.ne_of_gt (Nat.lt_of_le_of_lt (Nat.zero_le _) enough))
    rw [List.cons_append] at order
    rw [loop,order] at ran
    obtain ⟨mid,visited,ran⟩ := Option.bind_eq_some_iff.mp ran
    obtain rfl | ⟨p,payload,here,ready,_,_,rfl⟩ := visit_cases visited
    · rw [List.length_cons] at enough
      have shape : (front ++ key :: back) ++ [first] = front ++ key :: (back ++ [first]) := by simp
      obtain ⟨a,member,near⟩ := ih ((fresh.reorder (front ++ key :: back)).reorder (front ++ key :: back ++ [first])) offered shape named ran (by omega)
      exact ⟨a,member,near.imp_right (List.mem_cons_of_mem _)⟩
    · refine ⟨_,loop_keeps ran (List.mem_append_right _ (List.mem_singleton_self _)),.inr ?_⟩
      rw [named first p payload here ready]
      exact List.mem_cons_self

end Round

/-! ### The order -/

/-- Moving other keys to the back keeps what is behind a key behind it, and takes them out of its way. -/
theorem toBack_all_front {key : CookieKey} (admitted : List Attempt) (apart : ∀ a ∈ admitted, a.payload.key ≠ key)
    (front back : List CookieKey) : ∃ after, admitted.foldl (fun order a => toBack order a.payload.key) (front ++ key :: back) =
      front.filter (fun other => ∀ a ∈ admitted, a.payload.key ≠ other) ++ key :: after := by
  induction admitted generalizing front back with
  | nil => exact ⟨back,by simp⟩
  | cons a rest ih =>
    have differ := apart a List.mem_cons_self
    have moved : toBack (front ++ key :: back) a.payload.key =
        front.filter (· != a.payload.key) ++ key :: (back.filter (· != a.payload.key) ++ [a.payload.key]) := by
      simp [toBack,List.filter_append,List.filter_cons,Ne.symm differ]
    obtain ⟨after,folded⟩ := ih (fun b member => apart b (List.mem_cons_of_mem _ member)) (front.filter (· != a.payload.key))
      (back.filter (· != a.payload.key) ++ [a.payload.key])
    refine ⟨after,?_⟩
    rw [List.foldl_cons,moved,folded,List.filter_filter]
    congr 2
    funext other
    rw [Bool.eq_iff_iff,Bool.and_eq_true,decide_eq_true_eq,decide_eq_true_eq,bne_iff_ne,List.forall_mem_cons,and_comm,ne_comm]

/-- At most so many keys are in front of a key. -/
def Within (order : List CookieKey) (key : CookieKey) (ahead : Nat) : Prop :=
  ∃ front back, order = front ++ key :: back ∧ front.length ≤ ahead

theorem Within.of_mem {order : List CookieKey} {key : CookieKey} (member : key ∈ order) : Within order key (order.length - 1) := by
  obtain ⟨front,back,rfl⟩ := List.append_of_mem member
  exact ⟨front,back,rfl,by simp⟩

theorem Within.append {order : List CookieKey} {key : CookieKey} {ahead : Nat} (within : Within order key ahead)
    (added : List CookieKey) : Within (order ++ added) key ahead := by
  obtain ⟨front,back,rfl,few⟩ := within
  exact ⟨front,back ++ added,by simp,few⟩

theorem Within.remove {order : List CookieKey} {key other : CookieKey} {ahead : Nat} (within : Within order key ahead)
    (differ : key ≠ other) : Within (order.filter (· != other)) key ahead := by
  obtain ⟨front,back,rfl,few⟩ := within
  have shorter := List.length_filter_le (· != other) front
  exact ⟨front.filter (· != other),back.filter (· != other),by simp [List.filter_append,differ],by omega⟩

/-! ### What is held fits -/

/-- Everything held is at most so large. -/
def Small (limit : Nat) (entries : Table CookieKey Pending) : Prop := ∀ key, ∀ payload ∈ heldAt entries key, payload.bytes ≤ limit

theorem restore_bytes {p : Pending} {a : Attempt} (leased : p.attempt = some a) :
    ∀ v ∈ (Pending.restore { p with attempt := none } a.payload).held, ∃ u ∈ p.held, v.bytes = u.bytes := by
  intro v member
  rcases Pending.restore_held leased with same | ⟨u,before,after⟩
  · exact ⟨v,same ▸ member,rfl⟩
  · rw [after,List.mem_singleton] at member
    rw [before]
    exact ⟨u,List.mem_cons_self,by rw [member]; rfl⟩

theorem answered_bytes {p : Pending} {a : Attempt} (leased : p.attempt = some a) (success : Bool) (now : Nat) :
    ∀ v ∈ (p.answered a success now).held, ∃ u ∈ p.held, v.bytes = u.bytes := by
  intro v member
  cases success with
  | true =>
    rw [Pending.answered_held_success] at member
    exact ⟨v,List.mem_append_left _ member,rfl⟩
  | false =>
    rw [Pending.answered_held_failure] at member
    exact restore_bytes leased v member

theorem Outbox.charge_le {box : Outbox} {sid name value : String} (admits : box.refuses sid name value = false) :
    128 + sid.utf8ByteSize + name.utf8ByteSize + value.utf8ByteSize ≤ box.policy.writeBytes := by
  obtain ⟨_,bytes⟩ := Outbox.admitted admits
  have small := box.policy.bytes_small
  simp only [refuses,Bool.or_eq_false_iff,decide_eq_false_iff_not,Nat.not_lt] at admits
  obtain ⟨⟨⟨⟨_,writes⟩,_⟩,_⟩,_⟩ := admits
  simp only [satAdd] at writes
  omega

theorem Small.accept {box : Outbox} (small : Small box.policy.writeBytes box.entries) (sid name value : String) (updated : Int) :
    Small box.policy.writeBytes (box.accept sid name value updated).1.entries := by
  cases refused : box.refuses sid name value with
  | true =>
    rw [Outbox.accept_refused refused]
    exact small
  | false =>
    intro key payload member
    simp only [Outbox.accept,refused,Bool.false_eq_true,if_false,heldAt_insert] at member
    split at member
    · next same =>
      rcases List.mem_append.mp member with new | leased
      · obtain rfl := Option.mem_some_iff.mp (Option.mem_toList.mp new)
        exact Outbox.charge_le refused
      · cases here : box.entries.lookup (sid,name) with
        | none =>
          rw [here] at leased
          cases leased
        | some p =>
          rw [here] at leased
          exact small (sid,name) payload (heldAt_of_lookup here ▸ List.mem_append_right _ leased)
    · exact small key payload member

theorem Small.reclaim {box : Outbox} {limit : Nat} (small : Small limit box.entries) (owner : Option String) :
    Small limit (box.reclaim owner).entries := by
  intro key payload member
  rw [Sound.heldAt_reclaim] at member
  cases here : box.entries.lookup key with
  | none =>
    rw [here] at member
    exact nomatch member
  | some p =>
    simp only [here,Option.map_some,Option.getD_some] at member
    have held := small key
    rw [heldAt_of_lookup here] at held
    rcases p.reclaim_cases owner with same | ⟨a,leased,same⟩
    · exact held payload (same ▸ member)
    · rw [same] at member
      obtain ⟨u,old,bytes⟩ := restore_bytes leased payload member
      rw [bytes]
      exact held u old

/-- A sound run under a policy, with nothing larger than a write may be. -/
structure Steady (policy : OutboxPolicy) (run : Run) : Prop where
  sound : Sound run
  same : run.box.policy = policy
  small : Small policy.writeBytes run.box.entries

theorem Steady.start (policy : OutboxPolicy) (epoch : String) : Steady policy (Run.start policy epoch) :=
  ⟨Sound.start policy epoch,rfl,fun _ _ member => nomatch member⟩

theorem Steady.advance {policy : OutboxPolicy} {run after : Run} (steady : Steady policy run) {action : Action}
    (step : run.advance action = some after) : Steady policy after := by
  obtain ⟨sound,rfl,small⟩ := steady
  obtain ⟨_,same,kept⟩ := sound.advance action
  obtain rfl := Option.some.inj (same.symm.trans step)
  cases action with
  | accept sid name value updated =>
    cases step
    refine ⟨kept,?_,small.accept sid name value updated⟩
    simp only [Outbox.accept]
    split <;> rfl
  | lease owner maxItems maxBytes now =>
    obtain ⟨box,admitted,leased,effect,_⟩ := sound.lease owner maxItems maxBytes now
    rw [Run.advance,leased] at step
    cases step
    refine ⟨kept,effect.policy,fun key payload member => ?_⟩
    rw [effect.held] at member
    exact small key payload member
  | ack owner id revision success now =>
    cases found : run.box.leased owner id revision with
    | none =>
      simp only [Run.advance,Outbox.ack,found,Option.map_some] at step
      cases step
      exact ⟨kept,rfl,small⟩
    | some key =>
      obtain ⟨p,a,here,leased,_,_,_⟩ := Outbox.leased_some found
      obtain ⟨box,acked,effect⟩ := Outbox.ack_known found here leased success now
      simp only [Run.advance,acked,Option.map_some] at step
      cases step
      refine ⟨kept,effect.policy,fun other payload member => ?_⟩
      rw [effect.held] at member
      split at member
      · obtain ⟨u,old,bytes⟩ := answered_bytes leased success now payload member
        rw [bytes]
        exact small key u (heldAt_of_lookup here ▸ old)
      · exact small other payload member
  | reclaim owner =>
    cases step
    exact ⟨kept,rfl,small.reclaim owner⟩

theorem Steady.execute {policy : OutboxPolicy} {run after : Run} (steady : Steady policy run) {actions : List Action}
    (ran : run.execute actions = some after) : Steady policy after := by
  induction actions generalizing run with
  | nil =>
    cases ran
    exact steady
  | cons action rest ih =>
    obtain ⟨mid,step,ran⟩ := Option.bind_eq_some_iff.mp ran
    exact ih (steady.advance step) ran

/-! ### An account that waits -/

/-- Writes, and acknowledgements that succeed. -/
def Action.Quiet : Action → Prop
  | .accept _ _ _ _ => True
  | .ack _ _ _ success _ => success = true
  | .lease _ _ _ _ | .reclaim _ => False

/-- A key whose ready payload is its account's oldest, is due, and has so many keys in front of it. -/
structure Waits (run : Run) (key : CookieKey) (start : Int) (now ahead : Nat) : Prop where
  ready : ∃ p payload, run.box.entries.lookup key = some p ∧ p.ready = some payload ∧ payload.coversFrom = start ∧ p.nextAttempt ≤ now
  first : ∀ other p payload, other.1 = key.1 → run.box.entries.lookup other = some p → p.ready = some payload →
    start ≤ payload.coversFrom
  begun : start ≤ run.box.revision
  within : Within run.box.order key ahead

theorem Waits.accept {run : Run} {key : CookieKey} {start : Int} {now ahead : Nat} (waits : Waits run key start now ahead)
    (sid name value : String) (updated : Int) {ledger : Ledger CookieKey (String × Int)} :
    Waits ⟨(run.box.accept sid name value updated).1,ledger⟩ key start now ahead := by
  obtain ⟨⟨p,payload,here,ready,starts,due⟩,first,begun,within⟩ := waits
  cases refused : run.box.refuses sid name value with
  | true =>
    rw [Outbox.accept_refused refused]
    exact ⟨⟨p,payload,here,ready,starts,due⟩,first,begun,within⟩
  | false =>
    simp only [Outbox.accept,refused,Bool.false_eq_true,if_false]
    refine ⟨?_,?_,by simp only; omega,?_⟩
    · by_cases same : key = (sid,name)
      · subst same
        refine ⟨_,_,Table.lookup_insert_eq .. |>.trans (if_pos rfl),rfl,?_,?_⟩
        · simp [Outbox.replaced,here,ready,starts]
        · simpa [here] using due
      · exact ⟨p,payload,(Table.lookup_insert_eq ..).trans ((if_neg same).trans here),ready,starts,due⟩
    · intro other q v account there filled
      rw [Table.lookup_insert_eq] at there
      split at there
      · next same =>
        obtain rfl := Option.some.inj there
        obtain rfl := Option.some.inj filled
        cases replaced : run.box.replaced (sid,name) with
        | none =>
          simp only [Option.map_none,Option.getD_none]
          omega
        | some old =>
          obtain ⟨r,found,held⟩ := Option.bind_eq_some_iff.mp replaced
          exact first (sid,name) r old (same ▸ account) found held
      · exact first other q v account there filled
    · simp only
      split
      · exact within
      · exact within.append _

theorem Waits.ack {run : Run} {key : CookieKey} {start : Int} {now ahead : Nat} (waits : Waits run key start now ahead)
    {other : CookieKey} {p : Pending} {a : Attempt} {at_ : Nat} (here : run.box.entries.lookup other = some p) {after : Outbox}
    (step : Outbox.AckStep run.box other (p.answered a true at_) after) {ledger : Ledger CookieKey (String × Int)} :
    Waits ⟨after,ledger⟩ key start now ahead := by
  obtain ⟨⟨q,payload,found,ready,starts,due⟩,first,begun,within⟩ := waits
  have kept : (p.answered a true at_).ready = p.ready := rfl
  have lookups : ∀ k, after.entries.lookup k = if k = other then (if p.ready.isNone then none else some (p.answered a true at_))
      else run.box.entries.lookup k := by
    intro k
    rw [step.entries,kept]
    split
    · rw [Table.lookup_erase_eq]
    · rw [Table.lookup_insert_eq]
  refine ⟨?_,?_,by rw [step.revision]; exact begun,?_⟩
  · by_cases same : key = other
    · subst same
      obtain rfl := Option.some.inj (found.symm.trans here)
      refine ⟨q.answered a true at_,payload,?_,ready,starts,Nat.zero_le _⟩
      rw [lookups,if_pos rfl,ready]
      rfl
    · exact ⟨q,payload,(lookups key).trans ((if_neg same).trans found),ready,starts,due⟩
  · intro k r v account there filled
    rw [lookups] at there
    split at there
    · next same =>
      subst same
      split at there
      · contradiction
      · obtain rfl := Option.some.inj there
        exact first k p v account here filled
    · exact first k r v account there filled
  · rw [step.order,kept]
    split
    · next none =>
      refine within.remove fun same => ?_
      subst same
      obtain rfl := Option.some.inj (found.symm.trans here)
      rw [ready] at none
      exact nomatch none
    · exact within

/-- Between two leases the key keeps its turn. -/
theorem Waits.quiet {run after : Run} {key : CookieKey} {start : Int} {now ahead : Nat} (waits : Waits run key start now ahead)
    {actions : List Action} (quiet : ∀ action ∈ actions, action.Quiet) (ran : run.execute actions = some after) :
    Waits after key start now ahead := by
  induction actions generalizing run with
  | nil =>
    cases ran
    exact waits
  | cons action rest ih =>
    obtain ⟨mid,step,ran⟩ := Option.bind_eq_some_iff.mp ran
    refine ih ?_ (fun other member => quiet other (List.mem_cons_of_mem _ member)) ran
    have allowed := quiet action List.mem_cons_self
    cases action with
    | accept sid name value updated =>
      cases step
      exact waits.accept sid name value updated
    | ack owner id revision success at_ =>
      obtain rfl : success = true := allowed
      cases found : run.box.leased owner id revision with
      | none =>
        simp only [Run.advance,Outbox.ack,found,Option.map_some] at step
        cases step
        exact ⟨waits.ready,waits.first,waits.begun,waits.within⟩
      | some other =>
        obtain ⟨p,a,here,leased,_,_,_⟩ := Outbox.leased_some found
        obtain ⟨box,acked,effect⟩ := Outbox.ack_known found here leased true at_
        simp only [Run.advance,acked,Option.map_some] at step
        cases step
        exact waits.ack here effect
    | lease => exact allowed.elim
    | reclaim => exact allowed.elim

/-! ### Rounds -/

/-- The loop of a lease moves no attempt in time. -/
theorem Round.loop_due {terms : Terms} {n : Nat} {round final : Round} (ran : round.loop terms n = some final) {key : CookieKey}
    {q : Pending} (there : final.entries.lookup key = some q) :
    ∃ p, round.entries.lookup key = some p ∧ q.nextAttempt = p.nextAttempt := by
  induction n generalizing round with
  | zero =>
    cases ran
    exact ⟨q,there,rfl⟩
  | succ n ih =>
    rw [loop.eq_def] at ran
    simp only at ran
    split at ran
    · contradiction
    · next first rest order =>
      obtain ⟨mid,visited,ran⟩ := Option.bind_eq_some_iff.mp ran
      obtain ⟨p,here,same⟩ := ih ran
      obtain rfl | ⟨r,payload,found,_,_,_,rfl⟩ := visit_cases visited
      · exact ⟨p,here,same⟩
      · simp only [take,Table.lookup_insert_eq] at here
        split at here
        · next isFirst =>
          obtain rfl := Option.some.inj here
          exact ⟨r,isFirst ▸ found,same⟩
        · exact ⟨p,here,same⟩

/-- No payload is leased. -/
def Idle (run : Run) : Prop := ∀ key, attemptAt run.box.entries key = none

/-- The terms of a lease that is not held back by its caller. -/
structure Generous (box : Outbox) (maxItems maxBytes : Nat) : Prop where
  items : 1 ≤ maxItems
  bytes : box.policy.batchBytes ≤ maxBytes
  ids : box.leaseId < wordMax

/-- The limits that let a lease take something. -/
structure Roomy (policy : OutboxPolicy) : Prop where
  items : 0 < policy.batchItems
  concurrent : 0 < policy.concurrent

theorem outboxPolicy_roomy (policy : AsyncPolicy) (valid : policy.validate = true) : Roomy (outboxPolicy policy valid) :=
  ⟨Nat.succ_pos 3,Nat.succ_pos 3⟩

theorem Idle.busy {run : Run} (idle : Idle run) : busyAccounts run.box.entries = ∅ := by
  refine Finset.eq_empty_of_forall_notMem fun account busy => ?_
  obtain ⟨key,a,_,leased⟩ := mem_busyAccounts.mp busy
  exact nomatch (idle key).symm.trans leased

/-- Where nothing is leased all that is held is ready. -/
theorem Idle.ready {run : Run} (idle : Idle run) {key : CookieKey} {payload : Payload}
    (member : payload ∈ heldAt run.box.entries key) :
    ∃ p, run.box.entries.lookup key = some p ∧ p.ready = some payload ∧ p.attempt = none := by
  cases here : run.box.entries.lookup key with
  | none => simp [heldAt,here] at member
  | some p =>
    have unleased : p.attempt = none := (attemptAt_of_lookup here).symm.trans (idle key)
    rw [heldAt_of_lookup here,Pending.held,unleased,Option.map_none,Option.toList_none,List.append_nil] at member
    exact ⟨p,rfl,Option.mem_toList.mp member,unleased⟩

theorem Idle.fresh {policy : OutboxPolicy} {run : Run} (idle : Idle run) (same : run.box.policy = policy) (roomy : Roomy policy)
    {maxItems maxBytes : Nat} (generous : Generous run.box maxItems maxBytes) (owner : WriterOwner) (now : Nat) :
    Round.Fresh (run.box.terms owner maxItems maxBytes now)
      { entries := run.box.entries, order := run.box.order, busy := busyAccounts run.box.entries, leaseId := run.box.leaseId } := by
  refine ⟨idle.busy,rfl,generous.ids,rfl,?_⟩
  have items := roomy.items
  have concurrent := roomy.concurrent
  have asked := generous.items
  simp only [Outbox.terms,idle.busy,Finset.card_empty,same]
  omega

/-- The waiting payload is offered by the next lease, if it fits a batch. -/
theorem Waits.offered {run : Run} {key : CookieKey} {start : Int} {now ahead : Nat} (waits : Waits run key start now ahead)
    (idle : Idle run) {owner : WriterOwner} {maxItems maxBytes later : Nat} (generous : Generous run.box maxItems maxBytes)
    (clock : now ≤ later) (fits : ∀ payload ∈ heldAt run.box.entries key, payload.bytes ≤ run.box.policy.batchBytes) :
    Offered (run.box.terms owner maxItems maxBytes later) run.box.entries key := by
  obtain ⟨⟨p,payload,here,ready,starts,due⟩,first,_,_⟩ := waits
  have unleased : p.attempt = none := (attemptAt_of_lookup here).symm.trans (idle key)
  have held : payload ∈ heldAt run.box.entries key := by
    rw [heldAt_of_lookup here,Pending.held,ready]
    exact List.mem_append_left _ (List.mem_singleton_self payload)
  refine ⟨p,payload,here,ready,unleased,due.trans clock,?_,?_⟩
  · refine List.min?_eq_some_iff.mpr ⟨List.mem_map_of_mem (mem_accountHeld.mpr ⟨key,rfl,held⟩),fun other member => ?_⟩
    obtain ⟨v,inAccount,rfl⟩ := List.mem_map.mp member
    obtain ⟨k,account,inKey⟩ := mem_accountHeld.mp inAccount
    obtain ⟨q,there,filled,_⟩ := idle.ready inKey
    rw [starts]
    exact first k q v account there filled
  · have size := fits payload held
    have bytes := generous.bytes
    simp only [Outbox.terms]
    omega

/-- A lease takes the offered payload or one in front of it. -/
theorem Sound.lease_offered {run : Run} (sound : Sound run) {owner : WriterOwner} {maxItems maxBytes now : Nat} {box : Outbox}
    {admitted : List Attempt} (leased : run.box.lease owner maxItems maxBytes now = some (box,admitted))
    (fresh : Round.Fresh (run.box.terms owner maxItems maxBytes now)
      { entries := run.box.entries, order := run.box.order, busy := busyAccounts run.box.entries, leaseId := run.box.leaseId })
    {key : CookieKey} (offered : Offered (run.box.terms owner maxItems maxBytes now) run.box.entries key)
    {front back : List CookieKey} (order : run.box.order = front ++ key :: back) :
    ∃ a ∈ admitted, a.payload.key = key ∨ a.payload.key ∈ front := by
  obtain ⟨round,ran,same⟩ := Option.map_eq_some_iff.mp leased
  obtain ⟨-,rfl⟩ := Prod.mk.inj same
  refine Round.loop_offered front fresh offered order (fun k p payload here ready => ?_) ran ?_
  · refine sound.named k payload ?_
    rw [heldAt_of_lookup here,Pending.held,ready]
    exact List.mem_append_left _ (List.mem_singleton_self payload)
  · rw [order,List.length_append,List.length_cons]
    omega

/-- A whole turn of the loop leaves the order as it was. -/
theorem Round.loop_order {terms : Terms} (rest visited : List CookieKey) {round final : Round} (order : round.order = rest ++ visited)
    (ran : round.loop terms rest.length = some final) : final.order = visited ++ rest := by
  induction rest generalizing visited round with
  | nil =>
    cases ran
    simpa using order
  | cons key rest ih =>
    rw [List.cons_append] at order
    rw [List.length_cons,loop,order] at ran
    obtain ⟨mid,visit,ran⟩ := Option.bind_eq_some_iff.mp ran
    have kept : mid.order = rest ++ visited := by
      obtain rfl | ⟨_,_,_,_,_,_,rfl⟩ := visit_cases visit <;> rfl
    have ends := ih (visited ++ [key]) (by simp [kept]) ran
    rw [ends,List.append_assoc,List.singleton_append]

/-- A round in which the account is not leased brings it closer to its turn. -/
theorem Waits.lease {run : Run} {key : CookieKey} {start : Int} {now ahead : Nat} (waits : Waits run key start now ahead)
    (sound : Sound run) (idle : Idle run) {owner : WriterOwner} {maxItems maxBytes later : Nat} {box : Outbox}
    {admitted : List Attempt} (leased : run.box.lease owner maxItems maxBytes later = some (box,admitted))
    (near : ∀ front back, run.box.order = front ++ key :: back → ∃ a ∈ admitted, a.payload.key = key ∨ a.payload.key ∈ front)
    (passed : ∀ a ∈ admitted, a.payload.steamId ≠ key.1) : ∃ closer, closer < ahead ∧ Waits ⟨box,run.ledger⟩ key start now closer := by
  obtain ⟨⟨p,payload,here,ready,starts,due⟩,first,begun,front,back,order,few⟩ := waits
  obtain ⟨box',admitted',same,step,kept⟩ := sound.lease owner maxItems maxBytes later
  obtain ⟨rfl,rfl⟩ := Prod.mk.inj (Option.some.inj (same.symm.trans leased))
  have apart : ∀ a ∈ admitted', a.payload.key ≠ key := fun a member equal => passed a member (congrArg Prod.fst equal)
  obtain ⟨round,ran,split⟩ := Option.map_eq_some_iff.mp leased
  obtain ⟨rfl,rfl⟩ := Prod.mk.inj split
  obtain ⟨after,moved⟩ := toBack_all_front round.result apart front back
  obtain ⟨a,member,inFront⟩ := near front back order
  -- what the account holds is still ready
  have unleased : ∀ k : CookieKey, k.1 = key.1 → attemptAt round.entries k = none := by
    intro k account
    cases found : attemptAt round.entries k with
    | none => rfl
    | some b =>
      rcases step.attempts k b found with old | new
      · exact nomatch (idle k).symm.trans old
      · have owns := kept.named k b.payload (attempt_held found)
        exact absurd ((congrArg Prod.fst owns).trans account) (passed b new)
  have still : ∀ (k : CookieKey) q v, k.1 = key.1 → round.entries.lookup k = some q → (v ∈ heldAt run.box.entries k ↔ q.ready = some v) := by
    intro k q v account there
    rw [← step.held k,heldAt_of_lookup there,Pending.held,(attemptAt_of_lookup there).symm.trans (unleased k account)]
    simp
  have held : payload ∈ heldAt run.box.entries key := by
    rw [heldAt_of_lookup here,Pending.held,ready]
    exact List.mem_append_left _ (List.mem_singleton_self payload)
  obtain ⟨q,there⟩ := Table.lookup_of_mem ((step.keys key).mpr (Table.mem_of_lookup here))
  refine ⟨(front.filter fun other => ∀ a ∈ round.result, a.payload.key ≠ other).length,?_,?_,?_,?_,?_⟩
  · have shorter : (front.filter fun other => decide (∀ a ∈ round.result, a.payload.key ≠ other)).length < front.length := by
      refine List.length_filter_lt_length_iff_exists.mpr ⟨a.payload.key,inFront.resolve_left (apart a member),?_⟩
      simpa using ⟨a,member,rfl⟩
    omega
  · obtain ⟨r,found,sameDue⟩ := Round.loop_due ran there
    obtain rfl := Option.some.inj (found.symm.trans here)
    exact ⟨q,payload,there,(still key q payload rfl there).mp held,starts,sameDue ▸ due⟩
  · intro other r v account found filled
    obtain ⟨old,before,wasReady,_⟩ := idle.ready ((still other r v account found).mpr filled)
    exact first other old v account before wasReady
  · exact begun
  · refine ⟨_,after,?_,Nat.le_refl _⟩
    have turned := Round.loop_order run.box.order [] (List.append_nil _).symm ran
    rw [List.nil_append] at turned
    simp only [turned,order]
    exact moved

/-- Rounds of leases no earlier than a moment: before each lease all that was leased is acknowledged. -/
inductive Rounds (now : Nat) : Run → List (List Attempt) → Prop
  | done {run : Run} : Rounds now run []
  | round {run idle : Run} {between : List Action} {owner : WriterOwner} {maxItems maxBytes later : Nat} {box : Outbox}
    {admitted : List Attempt} {rest : List (List Attempt)} (quiet : ∀ action ∈ between, action.Quiet)
    (ran : run.execute between = some idle) (unleased : Idle idle) (generous : Generous idle.box maxItems maxBytes)
    (clock : now ≤ later) (leased : idle.box.lease owner maxItems maxBytes later = some (box,admitted))
    (next : Rounds now ⟨box,idle.ledger⟩ rest) : Rounds now run (admitted :: rest)

/-- A waiting account has its turn after the keys in front of it. -/
theorem Rounds.turn {policy : OutboxPolicy} (roomy : Roomy policy) (fits : policy.writeBytes ≤ policy.batchBytes) {run : Run}
    {now ahead : Nat} {batches : List (List Attempt)} (rounds : Rounds now run batches) (steady : Steady policy run) {key : CookieKey}
    {start : Int} (waits : Waits run key start now ahead) (enough : ahead < batches.length) :
    ∃ batch ∈ batches.take (ahead + 1), ∃ a ∈ batch, a.payload.steamId = key.1 := by
  induction rounds generalizing ahead with
  | done => exact absurd enough (Nat.not_lt_zero _)
  | @round run idle between owner maxItems maxBytes later box admitted rest quiet ran unleased generous clock leased _ ih =>
    have calm := steady.execute ran
    have turn := waits.quiet quiet ran
    by_cases served : ∃ a ∈ admitted, a.payload.steamId = key.1
    · exact ⟨admitted,by simp,served⟩
    · have passed : ∀ a ∈ admitted, a.payload.steamId ≠ key.1 := fun a member same => served ⟨a,member,same⟩
      have offered : Offered (idle.box.terms owner maxItems maxBytes later) idle.box.entries key :=
        turn.offered unleased generous clock fun payload member => by
        have size := calm.small key payload member
        rw [calm.same]
        omega
      have near : ∀ front back, idle.box.order = front ++ key :: back → ∃ a ∈ admitted, a.payload.key = key ∨ a.payload.key ∈ front :=
        fun _ _ => calm.sound.lease_offered leased (unleased.fresh calm.same roomy generous owner later) offered
      obtain ⟨closer,fewer,waiting⟩ := turn.lease calm.sound unleased leased near passed
      have next : Run.advance idle (.lease owner maxItems maxBytes later) = some ⟨box,idle.ledger⟩ := by
        rw [Run.advance,leased]
        rfl
      rw [List.length_cons] at enough
      obtain ⟨batch,member,a,inBatch,same⟩ := ih (calm.advance next) waiting (by omega)
      refine ⟨batch,?_,a,inBatch,same⟩
      rw [List.take_succ_cons]
      exact List.mem_cons_of_mem _ (List.take_subset_take_left rest (by omega) member)

/-! ### Progress -/

/-- The oldest write of its account that is not acknowledged yet. -/
structure OldestUnsettled (run : Run) (w : Write CookieKey (String × Int)) : Prop where
  accepted : w ∈ run.ledger.writes
  unsettled : ¬run.ledger.Settled w.key w.revision
  oldest : ∀ v ∈ run.ledger.writes, v.key.1 = w.key.1 → ¬run.ledger.Settled v.key v.revision → w.revision ≤ v.revision

/-- A key waits from where its account's ready payloads begin. -/
theorem Sound.waits {run : Run} (sound : Sound run) {key : CookieKey} {p : Pending} {payload : Payload} {now : Nat}
    (here : run.box.entries.lookup key = some p) (ready : p.ready = some payload) (due : p.nextAttempt ≤ now)
    (first : ∀ other q v, other.1 = key.1 → run.box.entries.lookup other = some q → q.ready = some v →
      payload.coversFrom ≤ v.coversFrom) : Waits run key payload.coversFrom now (run.box.order.length - 1) := by
  have held : payload ∈ heldAt run.box.entries key := by
    rw [heldAt_of_lookup here,Pending.held,ready]
    exact List.mem_append_left _ (List.mem_singleton_self payload)
  obtain ⟨w,member,_,starts⟩ := sound.keeps.begins key _ (List.mem_map_of_mem held)
  have begun := sound.newest w member
  have same : w.revision = payload.coversFrom := starts
  exact ⟨⟨p,payload,here,ready,rfl,due⟩,first,by omega,.of_mem ((sound.order_iff key).mpr (Table.mem_of_lookup here))⟩

/-- Where nothing is leased the oldest unsettled write of an account begins its ready payload. -/
theorem Sound.oldest_waits {run : Run} (sound : Sound run) (idle : Idle run) {w : Write CookieKey (String × Int)}
    (oldest : OldestUnsettled run w) {now : Nat} (due : ∀ p, run.box.entries.lookup w.key = some p → p.nextAttempt ≤ now) :
    ∃ start, Waits run w.key start now (run.box.order.length - 1) := by
  obtain ⟨accepted,unsettled,first⟩ := oldest
  obtain ⟨piece,member,covers,_⟩ := sound.keeps.covers w accepted unsettled
  obtain ⟨payload,held,rfl⟩ := List.mem_map.mp member
  obtain ⟨p,here,ready,_⟩ := idle.ready held
  have before : payload.coversFrom ≤ w.revision := covers
  refine ⟨_,sound.waits here ready (due p here) fun other q v account there filled => ?_⟩
  have inOther : v ∈ heldAt run.box.entries other := by
    rw [heldAt_of_lookup there,Pending.held,filled]
    exact List.mem_append_left _ (List.mem_singleton_self v)
  obtain ⟨u,inLedger,sameKey,starts⟩ := sound.keeps.begins other _ (List.mem_map_of_mem inOther)
  have owed := sound.keeps.owed other _ (List.mem_map_of_mem inOther)
  have later := first u inLedger (sameKey ▸ account) (by rw [sameKey,starts]; exact owed)
  have same : u.revision = v.coversFrom := starts
  omega

/-- What is accepted can be leased: a due write is never stuck, and a busy account never starves another. -/
structure Leasable (run : Run) : Prop where
  progress : Idle run → ∀ w, OldestUnsettled run w → ∀ p, run.box.entries.lookup w.key = some p →
    ∀ owner maxItems maxBytes now, Generous run.box maxItems maxBytes → p.nextAttempt ≤ now →
      ∃ box admitted, run.box.lease owner maxItems maxBytes now = some (box,admitted) ∧ admitted ≠ []
  fair : ∀ key p payload now, run.box.entries.lookup key = some p → p.ready = some payload → p.nextAttempt ≤ now →
    (∀ other q v, other.1 = key.1 → run.box.entries.lookup other = some q → q.ready = some v → payload.coversFrom ≤ v.coversFrom) →
    ∀ batches, Rounds now run batches → run.box.entries.keys.length ≤ batches.length →
      ∃ batch ∈ batches.take run.box.entries.keys.length, ∃ a ∈ batch, a.payload.steamId = key.1

theorem Sound.order_length {run : Run} (sound : Sound run) : run.box.order.length = run.box.entries.keys.length := by
  have perm := (List.perm_ext_iff_of_nodup sound.order_nodup run.box.entries.keys_nodup).mpr fun key =>
    (sound.order_iff key).trans AList.mem_keys
  exact perm.length_eq

theorem Steady.leasable {policy : OutboxPolicy} (roomy : Roomy policy) (fits : policy.writeBytes ≤ policy.batchBytes) {run : Run}
    (steady : Steady policy run) : Leasable run where
  progress idle w oldest p here owner maxItems maxBytes now generous due := by
    have calm : ∀ q, run.box.entries.lookup w.key = some q → q.nextAttempt ≤ now := fun q there => by
      obtain rfl := Option.some.inj (here.symm.trans there)
      exact due
    obtain ⟨start,waits⟩ := steady.sound.oldest_waits idle oldest calm
    obtain ⟨box,admitted,leased,_,_⟩ := steady.sound.lease owner maxItems maxBytes now
    have offered : Offered (run.box.terms owner maxItems maxBytes now) run.box.entries w.key :=
      waits.offered idle generous (Nat.le_refl now) fun payload member => by
      have size := steady.small w.key payload member
      rw [steady.same]
      omega
    obtain ⟨front,back,order,_⟩ := waits.within
    obtain ⟨a,member,_⟩ := steady.sound.lease_offered leased (idle.fresh steady.same roomy generous owner now) offered order
    exact ⟨box,admitted,leased,List.ne_nil_of_mem member⟩
  fair key p payload now here ready due first batches rounds enough := by
    have waits := steady.sound.waits here ready due first
    have length := steady.sound.order_length
    have present := List.length_pos_of_mem (AList.mem_keys.mp (Table.mem_of_lookup here))
    have turn := rounds.turn roomy fits steady waits (by omega)
    rwa [Nat.sub_add_cancel (by omega),length] at turn

/-! ### A payload no batch holds -/

/-- A lease takes nothing larger than its batch. -/
theorem Round.loop_fits {terms : Terms} {n : Nat} {round final : Round} (ran : round.loop terms n = some final)
    (small : ∀ a ∈ round.result, a.payload.bytes ≤ terms.maxBytes) : ∀ a ∈ final.result, a.payload.bytes ≤ terms.maxBytes := by
  induction n generalizing round with
  | zero =>
    cases ran
    exact small
  | succ n ih =>
    rw [loop.eq_def] at ran
    simp only at ran
    split at ran
    · contradiction
    · obtain ⟨mid,visited,ran⟩ := Option.bind_eq_some_iff.mp ran
      refine ih ran ?_
      obtain rfl | ⟨p,payload,_,_,_,fits,rfl⟩ := visit_cases visited
      · exact small
      · simp only [Round.fits,Bool.and_eq_true,decide_eq_true_eq] at fits
        intro a member
        rcases List.mem_append.mp member with old | new
        · exact small a old
        · rw [List.mem_singleton.mp new]
          simp only
          omega

theorem Sound.lease_nothing {run : Run} (sound : Sound run)
    (large : ∀ key, ∀ payload ∈ heldAt run.box.entries key, run.box.policy.batchBytes < payload.bytes)
    (owner : WriterOwner) (maxItems maxBytes now : Nat) : ∃ box, run.box.lease owner maxItems maxBytes now = some (box,[]) := by
  obtain ⟨box,admitted,leased,step,_⟩ := sound.lease owner maxItems maxBytes now
  cases admitted with
  | nil => exact ⟨box,leased⟩
  | cons a rest =>
    obtain ⟨round,ran,same⟩ := Option.map_eq_some_iff.mp leased
    obtain ⟨-,result⟩ := Prod.mk.inj same
    have fits := Round.loop_fits ran (fun b member => nomatch member) a (result ▸ List.mem_cons_self)
    obtain ⟨key,entered⟩ := step.entered a List.mem_cons_self
    have held := attempt_held entered
    rw [step.held] at held
    have size := large key a.payload held
    simp only [Outbox.terms] at fits
    omega

/-- A text of so many bytes. -/
def letters (n : Nat) : String := String.ofList (List.replicate n 'a')

theorem letters_size (n : Nat) : (letters n).utf8ByteSize = n := by
  have one : Char.utf8Size 'a' = 1 := by decide
  rw [letters,Utf8.ofList_size,List.map_replicate,one]
  simp

/-- The run of one large write. -/
def largeRun (policy : OutboxPolicy) (value : String) : Run where
  box := { policy := policy
           epoch := ""
           entries := (∅ : Table CookieKey Pending).insert ("1","k") { ready := some ⟨"1","k",value,0,1,1⟩ }
           order := [("1","k")]
           revision := 1
           accepted := 1 }
  ledger := { writes := [⟨("1","k"),(value,0),1⟩] }

section Large

variable (policy : OutboxPolicy) {value : String} (large : value.utf8ByteSize = 262015)

include large in
theorem largeRun_accepted (versions : 0 < policy.versions) (writes : 262145 ≤ policy.writeBytes) (bytes : policy.writeBytes ≤ policy.bytes) :
    (Run.start policy "").execute [.accept "1" "k" value 0] = some (largeRun policy value) := by
  have refused : (Run.start policy "").box.refuses "1" "k" value = false := by
    have key : ("1" : String).utf8ByteSize = 1 ∧ ("k" : String).utf8ByteSize = 1 := by decide
    have named : ("1" : String).isEmpty = false ∧ (("1" : String) == "0") = false := by decide
    have charge : satAdd (satAdd (satAdd 128 1) 1) 262015 = 262145 := by decide
    have whole : satAdd 0 262145 = 262145 := by decide
    have empty : (Run.start policy "").box.replaced ("1","k") = none := rfl
    have usage : (Run.start policy "").box.usage = (0,0) := rfl
    have same : (Run.start policy "").box.policy = policy := rfl
    have revision : ((Run.start policy "").box.revision == revisionMax) = false := by
      change ((0 : Int) == revisionMax) = false
      decide
    simp only [Outbox.refuses,key,large,charge,empty,usage,same,revision,Option.isNone_none,if_true,Option.map_none,
      Option.getD_none,Nat.sub_zero,whole,named,Bool.false_or,Bool.or_false,Bool.or_eq_false_iff,decide_eq_false_iff_not]
    omega
  simp only [Run.execute,Run.advance,Outbox.accept,refused]
  rfl

include large in
theorem largeRun_held : ∀ key, ∀ payload ∈ heldAt (largeRun policy value).box.entries key, payload.bytes = 262145 := by
  intro key payload member
  rw [largeRun,heldAt_insert] at member
  split at member
  · obtain rfl : payload = ⟨"1","k",value,0,1,1⟩ := List.mem_singleton.mp member
    have key : ("1" : String).utf8ByteSize = 1 ∧ ("k" : String).utf8ByteSize = 1 := by decide
    simp only [Payload.bytes,key,large]
  · cases member

theorem largeRun_idle : Idle (largeRun policy value) := by
  intro key
  rw [largeRun,attemptAt_insert]
  split <;> rfl

theorem largeRun_oldest : OldestUnsettled (largeRun policy value) ⟨("1","k"),(value,0),1⟩ where
  accepted := List.mem_singleton_self _
  unsettled settled := by
    obtain ⟨_,known,_⟩ := settled
    exact nomatch known
  oldest v member _ _ := by rw [List.mem_singleton.mp member]

include large in
theorem largeRun_stuck (fits : policy.batchBytes < 262145) (versions : 0 < policy.versions) (writes : 262145 ≤ policy.writeBytes)
    (bytes : policy.writeBytes ≤ policy.bytes) (owner : WriterOwner) (maxItems maxBytes now : Nat) :
    ∃ box, (largeRun policy value).box.lease owner maxItems maxBytes now = some (box,[]) := by
  have sound := ((Steady.start policy "").execute (largeRun_accepted policy large versions writes bytes)).sound
  refine sound.lease_nothing (fun key payload member => ?_) owner maxItems maxBytes now
  rw [largeRun_held policy large key payload member]
  exact fits

end Large

/-- The outbox of a policy leases every write it accepts exactly when the policy accepts none that is
larger than a batch. -/
theorem writes_are_leased_iff (policy : AsyncPolicy) (valid : policy.validate = true) :
    (∀ epoch actions run, (Run.start (outboxPolicy policy valid) epoch).execute actions = some run → Leasable run) ↔
      policy.cookieWriteBytes ≤ 256 * 1024 := by
  have limits := AsyncPolicy.cookieLimits valid
  constructor
  · intro leasable
    by_contra large
    have writes : 262145 ≤ (outboxPolicy policy valid).writeBytes := Nat.lt_of_not_le large
    have ran := largeRun_accepted (outboxPolicy policy valid) (letters_size 262015) limits.versions writes limits.writes
    obtain ⟨_,empty⟩ := largeRun_stuck (outboxPolicy policy valid) (letters_size 262015) (Nat.lt_succ_self _) limits.versions writes
      limits.writes ("",0) 1 (256 * 1024) 0
    have ids : (largeRun (outboxPolicy policy valid) (letters 262015)).box.leaseId < wordMax := by
      change 0 < wordMax
      decide
    obtain ⟨_,admitted,leased,some⟩ := (leasable "" _ _ ran).progress (largeRun_idle _) _ (largeRun_oldest _) _
      (Table.lookup_insert_eq .. |>.trans (if_pos rfl)) ("",0) 1 (256 * 1024) 0 ⟨Nat.le_refl _,Nat.le_refl _,ids⟩ (Nat.zero_le _)
    obtain ⟨-,rfl⟩ := Prod.mk.inj (Option.some.inj (empty.symm.trans leased))
    exact some rfl
  · intro small epoch actions run ran
    exact ((Steady.start (outboxPolicy policy valid) epoch).execute ran).leasable (outboxPolicy_roomy policy valid) small

theorem defaultPolicy_valid : ({} : AsyncPolicy).validate = true := by decide

theorem writes_are_leased_default : ({} : AsyncPolicy).validate = true ∧
    ((∀ epoch actions run, (Run.start (outboxPolicy {} defaultPolicy_valid) epoch).execute actions = some run → Leasable run) ↔
      ({} : AsyncPolicy).cookieWriteBytes ≤ 256 * 1024) :=
  ⟨defaultPolicy_valid,writes_are_leased_iff {} defaultPolicy_valid⟩

/-- Writes of up to 512 KiB, which a validated policy may admit. -/
def widePolicy : AsyncPolicy := { cookieWriteBytes := 524288 }

theorem widePolicy_valid : widePolicy.validate = true := by decide

/-- The large write is accepted and due, and no lease ever takes it. -/
theorem large_write_never_leased :
    ∃ run, (Run.start (outboxPolicy widePolicy widePolicy_valid) "").execute [.accept "1" "k" (letters 262015) 0] = some run ∧
      Idle run ∧ OldestUnsettled run ⟨("1","k"),(letters 262015,0),1⟩ ∧
      ∀ owner maxItems maxBytes now, ∃ box, run.box.lease owner maxItems maxBytes now = some (box,[]) := by
  have versions : 0 < widePolicy.cookieVersions := by decide
  have writes : 262145 ≤ widePolicy.cookieWriteBytes := by decide
  have bytes : widePolicy.cookieWriteBytes ≤ widePolicy.cookieBytes := by decide
  exact ⟨_,largeRun_accepted _ (letters_size 262015) versions writes bytes,largeRun_idle _,largeRun_oldest _,
    largeRun_stuck _ (letters_size 262015) (Nat.lt_succ_self _) versions writes bytes⟩

end S2Script.Cookies
