import S2Script.CookieOutboxRuns

/-! What holds of the outbox after any run: no unwrap fails, nothing accepted is lost, and
a fence is reached exactly when the writes behind it are acknowledged. -/
namespace S2Script.Cookies

open WriteBehind

theorem Sound.start (policy : OutboxPolicy) (epoch : String) : Sound (Run.start policy epoch) where
  keeps := Keeps.initial
  order_nodup := .nil
  order_iff key := by simp [Run.start]
  occupied key member := absurd member (AList.notMem_empty key)
  named key payload member := nomatch member
  newest w member := nomatch member
  leases := by
    constructor <;> first | exact Nat.zero_le _ | (intros; contradiction)
  versions := Nat.zero_le _
  bytes := Nat.zero_le _

/-- Every step of a sound run is taken and keeps it sound. -/
theorem Sound.advance {run : Run} (sound : Sound run) (action : Action) :
    ∃ after, run.advance action = some after ∧ Sound after := by
  cases action with
  | accept sid name value updated =>
    refine ⟨_,rfl,?_⟩
    cases refused : run.box.refuses sid name value with
    | true =>
      rw [Outbox.accept_refused refused]
      exact sound.reject _
    | false =>
      rw [Outbox.accept_admitted refused]
      exact sound.accept refused updated
  | lease owner maxItems maxBytes now =>
    obtain ⟨after,admitted,leased,_,kept⟩ := sound.lease owner maxItems maxBytes now
    exact ⟨⟨after,run.ledger⟩,by rw [Run.advance,leased]; rfl,kept⟩
  | ack owner id revision success now =>
    cases found : run.box.leased owner id revision with
    | none =>
      refine ⟨⟨_,run.ledger⟩,?_,sound.stale (satAdd run.box.staleAcks 1)⟩
      simp only [Run.advance,Outbox.ack,found,Option.map_some]
    | some key =>
      obtain ⟨p,a,here,leased,_,_,named⟩ := Outbox.leased_some found
      obtain ⟨after,acked,step⟩ := Outbox.ack_known found here leased success now
      refine ⟨_,?_,sound.ack found here leased named step⟩
      simp only [Run.advance,found,acked,Option.map_some]
  | reclaim owner => exact ⟨_,rfl,sound.reclaim owner⟩

theorem Sound.execute (actions : List Action) :
    ∀ {run : Run}, Sound run → ∃ after, run.execute actions = some after ∧ Sound after := by
  induction actions with
  | nil => exact fun sound => ⟨_,rfl,sound⟩
  | cons action rest ih =>
    intro run sound
    obtain ⟨mid,step,midSound⟩ := sound.advance action
    obtain ⟨after,ran,kept⟩ := ih midSound
    exact ⟨after,by rw [Run.execute,step,Option.bind_some,ran],kept⟩

theorem Sound.done_iff {run : Run} (sound : Sound run) (account : String) (fence : Int) :
    run.box.done account fence ↔ ∀ w ∈ run.ledger.writes, w.key.1 = account → w.revision ≤ fence →
      run.ledger.Settled w.key w.revision := by
  simp only [Outbox.done,List.all_eq_true,decide_eq_true_eq]
  constructor
  · rintro beyond w member rfl le
    refine (sound.keeps.reached_iff w.key fence).mp ?_ w member rfl le
    rintro piece held
    obtain ⟨payload,here,rfl⟩ := List.mem_map.mp held
    exact beyond payload (mem_accountHeld.mpr ⟨w.key,rfl,here⟩)
  · intro settled payload member
    obtain ⟨key,rfl,here⟩ := mem_accountHeld.mp member
    exact (sound.keeps.reached_iff key fence).mpr (fun w inLedger same => settled w inLedger (congrArg Prod.fst same))
      _ (List.mem_map_of_mem here)

/-- The write a leased payload begins at is its account's oldest unsettled one. -/
theorem Sound.leased_oldest {run : Run} (sound : Sound run) {key : CookieKey} {a : Attempt}
    (leased : attemptAt run.box.entries key = some a) :
    ∃ w ∈ run.ledger.writes, w.key = key ∧ w.revision = a.payload.coversFrom ∧ w.revision ≤ a.payload.revision ∧
      ¬run.ledger.Settled w.key w.revision ∧
      ∀ v ∈ run.ledger.writes, v.key.1 = key.1 → ¬run.ledger.Settled v.key v.revision → w.revision ≤ v.revision := by
  have piece := List.mem_map_of_mem (f := Payload.piece) (attempt_held leased)
  obtain ⟨w,member,rfl,starts⟩ := sound.keeps.begins key _ piece
  have begins : w.revision = a.payload.coversFrom := starts
  refine ⟨w,member,rfl,begins,begins ▸ sound.keeps.forward _ _ piece,starts ▸ sound.keeps.owed _ _ piece,?_⟩
  intro v inLedger same unsettled
  rw [begins]
  refine sound.keeps.oldest (fun other => other.1 = w.key.1) ?_ inLedger same unsettled
  intro other account younger held
  obtain ⟨payload,here,rfl⟩ := List.mem_map.mp held
  exact sound.leases.first w.key other a leased account payload here

/-- What the outbox promises about a state of a run. -/
structure Faithful (run : Run) : Prop where
  order_nodup : run.box.order.Nodup
  order_iff : ∀ key, key ∈ run.box.order ↔ key ∈ run.box.entries
  occupied : ∀ key p, run.box.entries.lookup key = some p → p.ready.isSome ∨ p.attempt.isSome
  within : run.box.usage.1 ≤ run.box.policy.versions ∧ run.box.usage.2 ≤ run.box.policy.bytes
  refused : ∀ sid name value updated, (run.box.accept sid name value updated).2 = false →
    (run.box.accept sid name value updated).1 = { run.box with rejected := satAdd run.box.rejected 1 }
  retained : ∀ w, run.ledger.Last w → ¬run.ledger.Settled w.key w.revision →
    ∃ p payload, run.box.entries.lookup w.key = some p ∧
      (p.ready = some payload ∨ p.attempt.map Attempt.payload = some payload) ∧
      payload.revision = w.revision ∧ (payload.value,payload.updated) = w.value
  one_per_account : ∀ key other a b, attemptAt run.box.entries key = some a →
    attemptAt run.box.entries other = some b → key.1 = other.1 → key = other
  concurrent : (busyAccounts run.box.entries).card ≤ run.box.policy.concurrent
  leased_oldest : ∀ key a, attemptAt run.box.entries key = some a →
    ∃ w ∈ run.ledger.writes, w.key = key ∧ w.revision = a.payload.coversFrom ∧ w.revision ≤ a.payload.revision ∧
      ¬run.ledger.Settled w.key w.revision ∧
      ∀ v ∈ run.ledger.writes, v.key.1 = key.1 → ¬run.ledger.Settled v.key v.revision → w.revision ≤ v.revision
  stale : ∀ owner id revision success now, (∀ key a, attemptAt run.box.entries key = some a →
      ¬(a.id = id ∧ a.owner = owner ∧ a.payload.revision = revision)) →
    run.box.ack owner id revision success now =
      some ({ run.box with staleAcks := satAdd run.box.staleAcks 1 },{ known := false })
  done_iff : ∀ account fence, run.box.done account fence ↔
    ∀ w ∈ run.ledger.writes, w.key.1 = account → w.revision ≤ fence → run.ledger.Settled w.key w.revision

theorem Sound.faithful {run : Run} (sound : Sound run) : Faithful run where
  order_nodup := sound.order_nodup
  order_iff := sound.order_iff
  occupied key p here := by
    have held := sound.occupied key (Table.mem_of_lookup here)
    rw [heldAt_of_lookup here] at held
    cases ready : p.ready with
    | some v => exact .inl rfl
    | none =>
      cases leased : p.attempt with
      | some a => exact .inr rfl
      | none => exact absurd (by simp [Pending.held,ready,leased]) held
  within := ⟨sound.versions,sound.bytes⟩
  refused sid name value updated no := by
    cases refused : run.box.refuses sid name value with
    | true => rw [Outbox.accept_refused refused]
    | false =>
      rw [Outbox.accept_admitted refused] at no
      cases no
  retained w last unsettled := by
    obtain ⟨piece,held,revision,value⟩ := sound.keeps.last_held last unsettled
    obtain ⟨payload,here,rfl⟩ := List.mem_map.mp held
    cases entry : run.box.entries.lookup w.key with
    | none => simp [heldAt,entry] at here
    | some p =>
      rw [heldAt_of_lookup entry,Pending.held,List.mem_append,Option.mem_toList,Option.mem_toList] at here
      exact ⟨p,payload,rfl,here,revision,value⟩
  one_per_account := sound.leases.single
  concurrent := sound.leases.few
  leased_oldest _ _ leased := sound.leased_oldest leased
  stale owner id revision success now unnamed := by
    rw [Outbox.ack,Outbox.leased_none unnamed]
  done_iff := sound.done_iff

/-- Every run goes through without a failed unwrap and ends in a state that keeps what it
accepted. -/
theorem outbox_loses_no_write (policy : OutboxPolicy) (epoch : String) (actions : List Action) :
    ∃ run, (Run.start policy epoch).execute actions = some run ∧ Faithful run := by
  obtain ⟨run,ran,sound⟩ := (Sound.start policy epoch).execute actions
  exact ⟨run,ran,sound.faithful⟩

end S2Script.Cookies
