import S2Script.KhookBinding
import S2Script.OneChange

/-! What every step of the hook bindings keeps: how many guards hold each record and the global
count, what the provider was asked and has confirmed, and what the retirement queue holds. -/
namespace S2Script.KhookBinding

open OneChange

variable {n : Nat}

/-- Guards of a thread in the global count, from the one to the other atomic access. -/
def Thread.counted (t : Thread) : Nat :=
  t.observeStack.length + match t.stage with
    | .entered _ => 1
    | _ => 0

/-- Guards of a thread on a hook, from the one to the other critical section. -/
def Thread.holds (h : Hook) (t : Thread) : Nat :=
  (t.observeStack.map Frame.hook).count h + match t.stage with
    | .idle => 0
    | .noted k => if k = h then 1 else 0
    | .entered k => if k = h then 1 else 0
    | .leaving k => if k = h then 1 else 0

/-- Live guards on a hook. -/
def World.guards (w : World n) (h : Hook) : Nat := ∑ t, (w.threads t).holds h

/-- Live guards of either kind. -/
def World.live (w : World n) : Nat := ∑ t, (w.threads t).counted + w.constructing + w.dispatchGuards

def World.Removed (w : World n) (h : Hook) : Prop := ∃ o, w.record h = some o ∧ o.state = .removed

/-- What a `BeginRemove` has marked and not yet passed to `RemoveHook`. -/
def Job.outstanding : Job → List (Hook × Bool)
  | .checked _ _ _ => []
  | .removing b async toRemove queued => (queued.toList ++ toRemove).map fun id => (⟨b,id⟩,async)

structure Sound (w : World n) : Prop where
  active : w.activeCallbacks = w.live
  invocations : ∀ h o, w.record h = some o → o.invocations = w.guards h
  held : ∀ h, w.guards h ≠ 0 → ∃ o, w.record h = some o
  removed : ∀ h o, w.record h = some o → (o.state = .removed ↔ o.complete = true ∧ o.invocations = 0)
  complete : ∀ h o, w.record h = some o → (o.complete = true ↔ h ∈ w.confirmed)
  flagged : ∀ h o, w.record h = some o → (o.removeScheduled = true ↔ h ∈ w.scheduled.map Prod.fst)
  known : ∀ h ∈ w.scheduled.map Prod.fst, ∃ o, w.record h = some o
  confirmed : ∀ h ∈ w.confirmed, h ∈ w.calls.map Prod.fst
  once : (w.scheduled.map Prod.fst).Nodup
  ledger : w.scheduled.Perm (w.calls ++ w.jobs.flatMap Job.outstanding)
  queued : ∀ h, (h,true) ∈ w.calls → h ∈ w.retire ∨ w.Removed h
  handed : ∀ b toRemove id, .removing b true toRemove (some id) ∈ w.jobs →
    (⟨b,id⟩ : Hook) ∈ w.retire ∨ w.Removed ⟨b,id⟩
  scanned : ∀ i, w.scan = some (.pending i 0) → ∀ j < i, ∀ h, w.retire[j]? = some h → w.Removed h
  pending : w.pending = some 0 → ∀ h, (h,true) ∈ w.calls → w.Removed h

theorem Sound.new : Sound (.new n) := by
  constructor <;> simp [World.new,World.live,Thread.new,Thread.counted,World.record,Binding.default,World.guards,
    Thread.holds]

variable {w : World n}

theorem Sound.call_known (sound : Sound w) {h : Hook} {async : Bool} (called : (h,async) ∈ w.calls) :
    ∃ o, w.record h = some o := by
  refine sound.known h (List.mem_map.mpr ⟨(h,async),?_,rfl⟩)
  exact sound.ledger.symm.subset (List.mem_append_left _ called)

theorem Sound.handed_known (sound : Sound w) {b : Nat} {async : Bool} {toRemove : List Nat} {id : Nat}
    (job : .removing b async toRemove (some id) ∈ w.jobs) : ∃ o, w.record ⟨b,id⟩ = some o := by
  refine sound.known _ (List.mem_map.mpr ⟨(⟨b,id⟩,async),?_,rfl⟩)
  refine sound.ledger.symm.subset (List.mem_append_right _ (List.mem_flatMap.mpr ⟨_,job,?_⟩))
  simp [Job.outstanding]

/-- A removed hook is not held, and its removal went all the way. -/
theorem Sound.of_removed (sound : Sound w) {h : Hook} {o : Owned} (here : w.record h = some o)
    (state : o.state = .removed) : w.guards h = 0 ∧ h ∈ w.confirmed ∧ o.removeScheduled = true := by
  obtain ⟨complete,none⟩ := (sound.removed h o here).mp state
  have confirmed := (sound.complete h o here).mp complete
  obtain ⟨call,member,rfl⟩ := List.mem_map.mp (sound.confirmed h confirmed)
  refine ⟨by rw [← sound.invocations _ o here,none],confirmed,(sound.flagged _ o here).mpr ?_⟩
  exact List.mem_map_of_mem (sound.ledger.symm.subset (List.mem_append_left _ member))

/-- One record is rewritten; whatever was removed stays so. -/
theorem Sound.rewrite (sound : Sound w) {k : Hook} {o : Owned} (here : w.record k = some o) (w' : World n) (o' : Owned)
    (rewritten : w'.record k = some o') (others : ∀ h, h ≠ k → w'.record h = w.record h)
    (active : w'.activeCallbacks = w'.live) (guards : ∀ h, h ≠ k → w'.guards h = w.guards h)
    (invocations : o'.invocations = w'.guards k)
    (removed : o'.state = .removed ↔ o'.complete = true ∧ o'.invocations = 0)
    (complete : o'.complete = true ↔ k ∈ w'.confirmed) (flagged : o'.removeScheduled = o.removeScheduled)
    (stays : o.state = .removed → o'.state = .removed)
    (confirmed : ∀ h, h ≠ k → (h ∈ w'.confirmed ↔ h ∈ w.confirmed))
    (called : ∀ h ∈ w'.confirmed, h ∈ w.calls.map Prod.fst)
    (same : w'.scheduled = w.scheduled ∧ w'.calls = w.calls ∧ w'.jobs = w.jobs ∧ w'.retire = w.retire ∧
      w'.scan = w.scan ∧ w'.pending = w.pending) :
    Sound w' ∧ ∀ h, w.Removed h → w'.Removed h := by
  obtain ⟨scheduled,calls,jobs,retire,scan,pending⟩ := same
  have cases_ : ∀ h t, w'.record h = some t → h = k ∧ t = o' ∨ h ≠ k ∧ w.record h = some t := by
    intro h t found
    rcases eq_or_ne h k with rfl | other
    · exact .inl ⟨rfl,(Option.some.inj (rewritten.symm.trans found)).symm⟩
    · exact .inr ⟨other,by rwa [others h other] at found⟩
  have kept : ∀ h, (∃ t, w.record h = some t) → ∃ t, w'.record h = some t := by
    rintro h ⟨t,found⟩
    rcases eq_or_ne h k with rfl | other
    · exact ⟨o',rewritten⟩
    · exact ⟨t,by rw [others h other,found]⟩
  have still : ∀ h, w.Removed h → w'.Removed h := by
    rintro h ⟨t,found,state⟩
    rcases eq_or_ne h k with rfl | other
    · rw [Option.some.inj (found.symm.trans here)] at state
      exact ⟨o',rewritten,stays state⟩
    · exact ⟨t,by rw [others h other,found],state⟩
  refine ⟨?_,still⟩
  constructor
  · exact active
  · intro h t found
    obtain ⟨rfl,rfl⟩ | ⟨other,found⟩ := cases_ h t found
    · exact invocations
    · rw [guards h other]
      exact sound.invocations h t found
  · intro h some
    refine kept h ?_
    rcases eq_or_ne h k with rfl | other
    · exact ⟨o,here⟩
    · exact sound.held h (by rwa [guards h other] at some)
  · intro h t found
    obtain ⟨rfl,rfl⟩ | ⟨other,found⟩ := cases_ h t found
    · exact removed
    · exact sound.removed h t found
  · intro h t found
    obtain ⟨rfl,rfl⟩ | ⟨other,found⟩ := cases_ h t found
    · exact complete
    · rw [confirmed h other]
      exact sound.complete h t found
  · intro h t found
    rw [scheduled]
    obtain ⟨rfl,rfl⟩ | ⟨other,found⟩ := cases_ h t found
    · rw [flagged]
      exact sound.flagged h o here
    · exact sound.flagged h t found
  · intro h member
    rw [scheduled] at member
    exact kept h (sound.known h member)
  · intro h member
    rw [calls]
    exact called h member
  · rw [scheduled]
    exact sound.once
  · rw [scheduled,calls,jobs]
    exact sound.ledger
  · intro h member
    rw [calls] at member
    rw [retire]
    exact (sound.queued h member).imp id (still h)
  · intro b toRemove id member
    rw [jobs] at member
    rw [retire]
    exact (sound.handed b toRemove id member).imp (fun x => x) (still _)
  · intro i at_ j before h entry
    rw [scan] at at_
    rw [retire] at entry
    exact still h (sound.scanned i at_ j before h entry)
  · intro zero h member
    rw [pending] at zero
    rw [calls] at member
    exact still h (sound.pending zero h member)

/-- A thread that holds the same hooks moves on, and the count follows it. -/
theorem Sound.thread (sound : Sound w) {t : Fin n} {thread : Thread} {activeCallbacks : Int}
    (holds : ∀ h, thread.holds h = (w.threads t).holds h)
    (active : activeCallbacks + (w.threads t).counted = w.activeCallbacks + thread.counted) :
    Sound { w.setThread t thread with activeCallbacks } := by
  have guards : ∀ h, World.guards { w.setThread t thread with activeCallbacks } h = w.guards h := by
    intro h
    have sums := sum_change (f := fun u => (w.threads u).holds h)
      (g := fun u => (Function.update w.threads t thread u).holds h) t (by simp +contextual)
    simp only [Function.update_self,holds h] at sums
    exact Nat.add_right_cancel sums
  refine ⟨?_,?_,?_,sound.removed,sound.complete,sound.flagged,sound.known,sound.confirmed,sound.once,sound.ledger,
    sound.queued,sound.handed,sound.scanned,sound.pending⟩
  · have sums := sum_change (f := fun u => (w.threads u).counted)
      (g := fun u => (Function.update w.threads t thread u).counted) t (by simp +contextual)
    have before := sound.active
    simp only [World.live,World.setThread,Function.update_self] at sums before ⊢
    omega
  · intro h o found
    rw [guards]
    exact sound.invocations h o found
  · intro h some
    exact sound.held h (by rwa [guards] at some)

end S2Script.KhookBinding
