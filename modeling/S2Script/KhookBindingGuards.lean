import S2Script.KhookBindingInvariant

/-! The steps of the guards and of the provider: one record is rewritten, or one thread moves
on and the count follows it. -/
namespace S2Script.KhookBinding

open OneChange

variable {n : Nat} {w : World n}

/-- A step keeps the invariant and every removal that was complete. -/
def Keeps (w w' : World n) : Prop := Sound w' ∧ ∀ h, w.Removed h → w'.Removed h

theorem record_setBinding (w : World n) (b : Nat) (binding : Binding) (h : Hook) :
    (w.setBinding b binding).record h = if h.binding = b then binding.owned.lookup h.id else w.record h := by
  simp only [World.record,World.setBinding,Function.update_apply]
  split <;> rfl

/-- The records of a world whose binding has one record written back. -/
theorem record_insert {binding : Binding} {k : Hook} {o : Owned}
    (written : binding.owned = (w.bindings k.binding).owned.insert k.id o) (h : Hook) :
    (w.setBinding k.binding binding).record h = if h = k then some o else w.record h := by
  rw [record_setBinding,written,Table.lookup_insert_eq]
  obtain ⟨b,id⟩ := h
  obtain ⟨b',id'⟩ := k
  simp only [Hook.mk.injEq]
  by_cases same : b = b'
  · subst same
    by_cases also : id = id' <;> simp [also,World.record]
  · simp [same]

theorem Sound.dispatchEnter (sound : Sound w) : Keeps w w.dispatchEnter := by
  refine ⟨⟨?_,sound.invocations,sound.held,sound.removed,sound.complete,sound.flagged,sound.known,sound.confirmed,
    sound.once,sound.ledger,sound.queued,sound.handed,sound.scanned,sound.pending⟩,fun _ removed => removed⟩
  have before := sound.active
  simp only [World.dispatchEnter,World.live] at before ⊢
  omega

theorem Sound.dispatchDecide (sound : Sound w) : Keeps w w.dispatchDecide := by
  have before := sound.active
  rw [World.dispatchDecide]
  split
  next => exact ⟨sound,fun _ removed => removed⟩
  next =>
    split
    all_goals
      refine ⟨⟨?_,sound.invocations,sound.held,sound.removed,sound.complete,sound.flagged,sound.known,sound.confirmed,
        sound.once,sound.ledger,sound.queued,sound.handed,sound.scanned,sound.pending⟩,fun _ removed => removed⟩
      simp only [World.live] at before ⊢
      omega

theorem Sound.dispatchReset (sound : Sound w) : Keeps w w.dispatchReset := by
  have before := sound.active
  rw [World.dispatchReset]
  split
  next => exact ⟨sound,fun _ removed => removed⟩
  next =>
    refine ⟨⟨?_,sound.invocations,sound.held,sound.removed,sound.complete,sound.flagged,sound.known,sound.confirmed,
      sound.once,sound.ledger,sound.queued,sound.handed,sound.scanned,sound.pending⟩,fun _ removed => removed⟩
    simp only [World.live] at before ⊢
    omega

theorem Sound.enterObserve (sound : Sound w) (t : Fin n) : Keeps w (w.enterObserve t) := by
  rw [World.enterObserve]
  split
  next depth stack h here =>
    refine ⟨sound.thread (fun k => ?_) ?_,fun _ removed => removed⟩
    · rw [here]
      rfl
    · rw [here]
      simp only [Thread.counted]
      omega
  next => exact ⟨sound,fun _ removed => removed⟩

theorem Sound.grantObserve (sound : Sound w) (t : Fin n) : Keeps w (w.grantObserve t) := by
  rw [World.grantObserve]
  split
  next depth stack h here =>
    refine ⟨sound.thread (fun k => ?_) ?_,fun _ removed => removed⟩
    · rw [here]
      simp only [Thread.holds,List.map_cons,List.count_cons,beq_iff_eq,Nat.add_zero]
    · rw [here]
      simp only [Thread.counted,List.length_cons]
  next => exact ⟨sound,fun _ removed => removed⟩

theorem Sound.leaveObserve (sound : Sound w) (t : Fin n) : Keeps w (w.leaveObserve t) := by
  rw [World.leaveObserve]
  split
  next depth frame stack here =>
    refine ⟨sound.thread (fun k => ?_) ?_,fun _ removed => removed⟩
    · rw [here]
      simp only [Thread.holds,List.map_cons,List.count_cons,beq_iff_eq,Nat.add_zero]
    · rw [here]
      simp only [Thread.counted,List.length_cons]
      omega
  next => exact ⟨sound,fun _ removed => removed⟩

/-- Guards when one thread changes what it holds. -/
theorem guards_setThread (w : World n) (t : Fin n) (thread : Thread) (h : Hook) :
    (w.setThread t thread).guards h + (w.threads t).holds h = w.guards h + thread.holds h := by
  have sums := sum_change (f := fun u => (w.threads u).holds h)
    (g := fun u => (Function.update w.threads t thread u).holds h) t (by simp +contextual)
  simp only [Function.update_self] at sums
  exact sums

theorem live_setThread (w : World n) (t : Fin n) (thread : Thread) :
    (w.setThread t thread).live + (w.threads t).counted = w.live + thread.counted := by
  have sums := sum_change (f := fun u => (w.threads u).counted)
    (g := fun u => (Function.update w.threads t thread u).counted) t (by simp +contextual)
  simp only [World.live,World.setThread,Function.update_self] at sums ⊢
  omega

/-- A granted `NoteObserve` raises one record that was neither failed nor removed. -/
theorem noteObserve_granted {b : Binding} {id : Nat} {b' : Binding} (granted : b.noteObserve id = some b') :
    ∃ o state, b.owned.lookup id = some o ∧ o.state ≠ .removed ∧ state ≠ .removed ∧
      b'.owned = b.owned.insert id { o with state, invocations := o.invocations + 1 } := by
  rw [Binding.noteObserve.eq_def] at granted
  split at granted
  next => cases granted
  next o here =>
    split at granted
    next => cases granted
    next => cases granted
    next pending =>
      obtain rfl := Option.some.inj granted
      exact ⟨o,.active,here,by simp [pending],by simp,rfl⟩
    next failed removed pending =>
      obtain rfl := Option.some.inj granted
      exact ⟨o,o.state,here,removed,removed,rfl⟩

theorem Sound.noteObserve (sound : Sound w) (t : Fin n) (b : Nat) (id : Option Nat) :
    Keeps w (w.noteObserve t b id) := by
  rw [World.noteObserve.eq_def]
  split
  next id idle =>
    split
    next => exact ⟨sound,fun _ removed => removed⟩
    next binding granted =>
      obtain ⟨o,state,here,notRemoved,stateNot,written⟩ := noteObserve_granted granted
      have here : w.record ⟨b,id⟩ = some o := here
      have records := record_insert (k := ⟨b,id⟩) written
      have guards := guards_setThread w t ⟨(w.threads t).callbackDepth,(w.threads t).observeStack,.noted ⟨b,id⟩⟩
      have live := live_setThread w t ⟨(w.threads t).callbackDepth,(w.threads t).observeStack,.noted ⟨b,id⟩⟩
      have invocations := sound.invocations _ o here
      simp only [Thread.holds,Thread.counted,idle,Nat.add_zero] at guards live
      refine sound.rewrite here ((w.setBinding b binding).setThread t ⟨(w.threads t).callbackDepth,
        (w.threads t).observeStack,.noted ⟨b,id⟩⟩) { o with state, invocations := o.invocations + 1 } ?_
        (fun h other => ?_) ?_ (fun h other => ?_) ?_ ?_ (sound.complete _ o here) rfl
        (fun removed => absurd removed notRemoved) (fun _ _ => .rfl) sound.confirmed ⟨rfl,rfl,rfl,rfl,rfl,rfl⟩
      · exact (records _).trans (if_pos rfl)
      · exact (records h).trans (if_neg other)
      · have before := sound.active
        simp only [World.live,World.setThread,World.setBinding] at live before ⊢
        omega
      · have same := guards h
        rw [if_neg other.symm] at same
        exact Nat.add_right_cancel same
      · have own := guards ⟨b,id⟩
        simp only [if_true] at own
        have raised : (w.setThread t ⟨(w.threads t).callbackDepth,(w.threads t).observeStack,
            .noted ⟨b,id⟩⟩).guards ⟨b,id⟩ = o.invocations + 1 := by omega
        exact raised.symm
      · simp [stateNot]
  next => exact ⟨sound,fun _ removed => removed⟩

/-- What `LeaveObserve` and `OnRemoved` make of the record they find. -/
theorem settle_written (b : Binding) (id : Nat) (o : Owned) (done : Prop) [Decidable done] :
    (if done then b.become id o .removed else b.put id o).owned =
      b.owned.insert id { o with state := if done then .removed else o.state } := by
  split <;> rfl

theorem Sound.leftObserve (sound : Sound w) (t : Fin n) : Keeps w (w.leftObserve t) := by
  rw [World.leftObserve]
  split
  next depth stack k at_ =>
    have guards := guards_setThread w t ⟨depth,stack,.idle⟩
    have live := live_setThread w t ⟨depth,stack,.idle⟩
    simp only [at_,Thread.holds,Thread.counted,Nat.add_zero] at guards live
    have own := guards k
    simp only [if_true] at own
    obtain ⟨o,here⟩ := sound.held k (by omega)
    have invocations := sound.invocations k o here
    have removed := sound.removed k o here
    have left : ((w.bindings k.binding).leaveObserve k.id).owned = (w.bindings k.binding).owned.insert k.id
        { o with
          state := if o.complete = true ∧ o.invocations - 1 = 0 then .removed else o.state
          invocations := o.invocations - 1 } := by
      rw [Binding.leaveObserve.eq_def,show (w.bindings k.binding).owned.lookup k.id = some o from here]
      exact settle_written _ _ { o with invocations := o.invocations - 1 } _
    have records := record_insert left
    refine sound.rewrite here ((w.setBinding k.binding ((w.bindings k.binding).leaveObserve k.id)).setThread t
      ⟨depth,stack,.idle⟩) _ ((records k).trans (if_pos rfl)) (fun h other => (records h).trans (if_neg other)) ?_
      (fun h other => ?_) ?_ ?_ (sound.complete k o here) rfl (fun was => ?_) (fun _ _ => .rfl) sound.confirmed
      ⟨rfl,rfl,rfl,rfl,rfl,rfl⟩
    · have before := sound.active
      simp only [World.live,World.setThread,World.setBinding] at live before ⊢
      omega
    · have same := guards h
      rw [if_neg other.symm] at same
      exact Nat.add_right_cancel same
    · have : (w.setThread t ⟨depth,stack,.idle⟩).guards k + 1 = w.guards k := by omega
      simp only [invocations]
      exact Nat.sub_eq_of_eq_add this.symm
    · simp only
      split
      next done => simp [done]
      next going =>
        simp only [removed,going,iff_false]
        omega
    · rw [removed] at was
      simp [was]
  next => exact ⟨sound,fun _ removed => removed⟩

theorem Sound.onRemoved (sound : Sound w) (k : Hook) : Keeps w (w.onRemoved k) := by
  rw [World.onRemoved]
  split
  next ready =>
    obtain ⟨called,_⟩ := ready
    obtain ⟨⟨k,async⟩,call,rfl⟩ := List.mem_map.mp called
    obtain ⟨o,here⟩ := sound.call_known call
    have removed := sound.removed k o here
    have told : ((w.bindings k.binding).onRemoved k.id).owned = (w.bindings k.binding).owned.insert k.id
        { o with state := if o.invocations = 0 then .removed else o.state, complete := true } := by
      rw [Binding.onRemoved.eq_def,show (w.bindings k.binding).owned.lookup k.id = some o from here]
      exact settle_written _ _ { o with complete := true } _
    have records := record_insert told
    refine sound.rewrite here { w.setBinding k.binding ((w.bindings k.binding).onRemoved k.id) with
      confirmed := w.confirmed ++ [k] } _ ((records k).trans (if_pos rfl))
      (fun h other => (records h).trans (if_neg other)) sound.active (fun _ _ => rfl) (sound.invocations k o here) ?_ ?_
      rfl (fun was => ?_) (fun h other => ?_) (fun h member => ?_) ⟨rfl,rfl,rfl,rfl,rfl,rfl⟩
    · simp only [true_and]
      split
      next done => simp [done]
      next going =>
        simp [removed,going]
    · simp
    · rw [removed] at was
      simp [was]
    · simp [other]
    · rcases List.mem_append.mp member with old | new
      · exact sound.confirmed h old
      · rw [List.mem_singleton.mp new]
        exact called
  next => exact ⟨sound,fun _ removed => removed⟩

end S2Script.KhookBinding
