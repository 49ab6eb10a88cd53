import S2Script.KhookBindingGuards

/-! Hook retirement never completes under a running callback: a hook is removed only when its
removal was asked for, confirmed and nobody is inside, and nobody enters it again. -/
namespace S2Script.KhookBinding

open OneChange

variable {n : Nat} {w : World n}

/-- A world with the same records, in which a binding operation may have made answers stale. -/
theorem Sound.sameRecords (sound : Sound w) {bindings : Nat → Binding}
    (records : ∀ h, World.record { w with bindings } h = w.record h) : Keeps w (World.stale { w with bindings }) := by
  have kept : ∀ h, w.Removed h → World.Removed { w with bindings } h := by
    rintro h ⟨o,here,state⟩
    exact ⟨o,by rw [records,here],state⟩
  refine ⟨⟨sound.active,fun h o here => sound.invocations h o ((records h).symm.trans here),fun h held => ?_,
    fun h o here => sound.removed h o ((records h).symm.trans here),
    fun h o here => sound.complete h o ((records h).symm.trans here),
    fun h o here => sound.flagged h o ((records h).symm.trans here),fun h member => ?_,sound.confirmed,sound.once,
    sound.ledger,fun h member => (sound.queued h member).imp id (kept h),
    fun b toRemove id member => (sound.handed b toRemove id member).imp (fun x => x) (kept _),
    fun i at_ j before h entry => kept h (sound.scanned i at_ j before h entry),fun none => nomatch none⟩,kept⟩
  · obtain ⟨o,here⟩ := sound.held h held
    exact ⟨o,(records h).trans here⟩
  · obtain ⟨o,here⟩ := sound.known h member
    exact ⟨o,(records h).trans here⟩

theorem Sound.accept (sound : Sound w) (b id : Nat) (capsule : Option Nat) : Keeps w (w.accept b id capsule) := by
  rw [World.accept]
  cases here : (w.bindings b).owned.lookup id with
  | some o =>
    refine sound.sameRecords fun h => ?_
    refine (record_setBinding w b _ h).trans ?_
    split
    next same =>
      rw [Binding.accept.eq_def,here,← same]
      rfl
    next => rfl
  | none =>
    have absent : w.record ⟨b,id⟩ = none := here
    have unheld : w.guards ⟨b,id⟩ = 0 := by
      by_contra held
      obtain ⟨o,found⟩ := sound.held _ held
      exact absurd (absent.symm.trans found) (by simp)
    have unscheduled : (⟨b,id⟩ : Hook) ∉ w.scheduled.map Prod.fst := by
      intro member
      obtain ⟨o,found⟩ := sound.known _ member
      exact absurd (absent.symm.trans found) (by simp)
    have unconfirmed : (⟨b,id⟩ : Hook) ∉ w.confirmed := by
      intro member
      obtain ⟨call,inside,same⟩ := List.mem_map.mp (sound.confirmed _ member)
      exact unscheduled (List.mem_map.mpr ⟨call,sound.ledger.symm.subset (List.mem_append_left _ inside),same⟩)
    have written : ((w.bindings b).accept id capsule).owned =
        (w.bindings b).owned.insert id ⟨.pending,0,false,false,capsule⟩ := by
      rw [Binding.accept.eq_def,here]
    have records := record_insert (k := ⟨b,id⟩) written
    have cases_ : ∀ h o, (w.accept b id capsule).record h = some o →
        h = ⟨b,id⟩ ∧ o = ⟨.pending,0,false,false,capsule⟩ ∨ w.record h = some o := by
      intro h o found
      rw [show (w.accept b id capsule).record h = _ from records h] at found
      split at found
      next same => exact .inl ⟨same,(Option.some.inj found).symm⟩
      next => exact .inr found
    have grown : ∀ h o, w.record h = some o → (w.accept b id capsule).record h = some o := by
      intro h o found
      refine (records h).trans ((if_neg ?_).trans found)
      rintro rfl
      exact absurd (absent.symm.trans found) (by simp)
    have kept : ∀ h, w.Removed h → (w.accept b id capsule).Removed h :=
      fun h ⟨o,found,state⟩ => ⟨o,grown h o found,state⟩
    refine ⟨⟨sound.active,fun h o found => ?_,fun h held => ?_,fun h o found => ?_,fun h o found => ?_,
      fun h o found => ?_,fun h member => ?_,sound.confirmed,sound.once,sound.ledger,
      fun h member => (sound.queued h member).imp (fun x => x) (kept h),
      fun b toRemove id member => (sound.handed b toRemove id member).imp (fun x => x) (kept _),
      fun i at_ j before h entry => kept h (sound.scanned i at_ j before h entry),fun none => nomatch none⟩,kept⟩
    · obtain ⟨rfl,rfl⟩ | old := cases_ h o found
      · exact unheld.symm
      · exact sound.invocations h o old
    · obtain ⟨o,found⟩ := sound.held h held
      exact ⟨o,grown h o found⟩
    · obtain ⟨rfl,rfl⟩ | old := cases_ h o found
      · simp
      · exact sound.removed h o old
    · obtain ⟨rfl,rfl⟩ | old := cases_ h o found
      · exact iff_of_false (by simp) unconfirmed
      · exact sound.complete h o old
    · obtain ⟨rfl,rfl⟩ | old := cases_ h o found
      · exact iff_of_false (by simp) unscheduled
      · exact sound.flagged h o old
    · obtain ⟨o,found⟩ := sound.known h member
      exact ⟨o,grown h o found⟩

/-- The books of removals when one job changes. -/
theorem ledger_change {scheduled calls calls' : List (Hook × Bool)} {jobs : List Job} {j : Nat} {job changed : Job}
    (here : jobs[j]? = some job) (ledger : scheduled.Perm (calls ++ jobs.flatMap Job.outstanding))
    (moved : (calls' ++ changed.outstanding).Perm (calls ++ job.outstanding)) :
    scheduled.Perm (calls' ++ (jobs.set j changed).flatMap Job.outstanding) := by
  have before := (eraseIdx_perm here).flatMap_right Job.outstanding
  have after := (set_perm here changed).flatMap_right Job.outstanding
  simp only [List.flatMap_cons] at before after
  have rest := moved.append_right ((jobs.eraseIdx j).flatMap Job.outstanding)
  rw [List.append_assoc,List.append_assoc] at rest
  exact ledger.trans ((before.append_left calls).trans (rest.symm.trans (after.symm.append_left calls')))

theorem ledger_erase {scheduled calls : List (Hook × Bool)} {jobs : List Job} {j : Nat} {job : Job}
    (here : jobs[j]? = some job) (ledger : scheduled.Perm (calls ++ jobs.flatMap Job.outstanding))
    (none : job.outstanding = []) : scheduled.Perm (calls ++ (jobs.eraseIdx j).flatMap Job.outstanding) := by
  have before := (eraseIdx_perm here).flatMap_right Job.outstanding
  rw [List.flatMap_cons,none,List.nil_append] at before
  exact ledger.trans (before.append_left calls)

/-- Jobs without a queued id can be changed and dropped freely. -/
theorem handed_set {jobs : List Job} {j b : Nat} {changed : Job} {toRemove : List Nat} {id : Nat}
    (member : .removing b true toRemove (some id) ∈ jobs.set j changed) :
    .removing b true toRemove (some id) ∈ jobs ∨ changed = .removing b true toRemove (some id) :=
  (List.mem_or_eq_of_mem_set member).imp (fun x => x) Eq.symm

theorem Sound.beginRemove (sound : Sound w) (t : Fin n) (b : Nat) (async : Bool) (permit : Option Nat) :
    Keeps w (w.beginRemove t b async permit) := by
  rw [World.beginRemove]
  split
  next => exact sound.sameRecords fun _ => rfl
  next =>
    refine ⟨⟨sound.active,sound.invocations,sound.held,sound.removed,sound.complete,sound.flagged,sound.known,
      sound.confirmed,sound.once,?_,sound.queued,fun b toRemove id member => ?_,sound.scanned,fun none => nomatch none⟩,
      fun _ removed => removed⟩
    · simpa [World.stale,Job.outstanding] using sound.ledger
    · rcases List.mem_append.mp member with old | new
      · exact sound.handed b toRemove id old
      · simp at new

theorem Sound.enqueue (sound : Sound w) (j id : Nat) : Keeps w (w.enqueue j id) := by
  rw [World.enqueue]
  split
  next b toRemove here idle =>
    split
    next member =>
      refine ⟨⟨sound.active,sound.invocations,sound.held,sound.removed,sound.complete,sound.flagged,sound.known,
        sound.confirmed,sound.once,?_,fun h called => ?_,fun b' toRemove' id' job => ?_,fun i at_ => ?_,
        fun none => nomatch none⟩,fun _ removed => removed⟩
      · refine ledger_change here sound.ledger (.append_left _ ?_)
        simp only [Job.outstanding,Option.toList_some,Option.toList_none,List.nil_append]
        exact (List.perm_cons_erase member).symm.map _
      · exact (sound.queued h called).imp (List.mem_append_left _) (fun x => x)
      · rcases handed_set job with old | new
        · exact (sound.handed b' toRemove' id' old).imp (List.mem_append_left _) (fun x => x)
        · obtain ⟨rfl,_,_,same⟩ := Job.removing.inj new
          obtain rfl := Option.some.inj same
          exact .inl (List.mem_append_right _ (List.mem_singleton_self _))
      · have none : w.scan = some (.pending i 0) := at_
        rw [idle] at none
        cases none
    next => exact ⟨sound,fun _ removed => removed⟩
  next => exact ⟨sound,fun _ removed => removed⟩

theorem Sound.removeHook (sound : Sound w) (j id : Nat) : Keeps w (w.removeHook j id) := by
  rw [World.removeHook]
  split
  next b toRemove queued here =>
    have job := List.mem_of_getElem? here
    refine ⟨⟨sound.active,sound.invocations,sound.held,sound.removed,sound.complete,sound.flagged,sound.known,
      fun h member => ?_,sound.once,?_,fun h called => ?_,fun b' toRemove' id' member => ?_,sound.scanned,
      fun none => by cases none⟩,fun _ removed => removed⟩
    · exact List.mem_map.mpr ((List.mem_map.mp (sound.confirmed h member)).imp fun _ both =>
        ⟨List.mem_append_left _ both.1,both.2⟩)
    · refine ledger_change here sound.ledger ?_
      simp [Job.outstanding]
    · rcases List.mem_append.mp called with old | new
      · exact sound.queued h old
      · simp only [List.mem_singleton,Prod.mk.injEq] at new
        rw [new.1]
        exact sound.handed b toRemove queued job
    · rcases handed_set member with old | new
      · exact sound.handed b' toRemove' id' old
      · cases new
  next b toRemove here =>
    split
    next inside =>
      refine ⟨⟨sound.active,sound.invocations,sound.held,sound.removed,sound.complete,sound.flagged,sound.known,
        fun h member => ?_,sound.once,?_,fun h called => ?_,fun b' toRemove' id' member => ?_,sound.scanned,
        fun none => by cases none⟩,fun _ removed => removed⟩
      · exact List.mem_map.mpr ((List.mem_map.mp (sound.confirmed h member)).imp fun _ both =>
          ⟨List.mem_append_left _ both.1,both.2⟩)
      · refine ledger_change here sound.ledger ?_
        simp only [Job.outstanding,Option.toList_none,List.nil_append,List.append_assoc,List.singleton_append]
        exact ((List.perm_cons_erase inside).symm.map fun id => ((⟨b,id⟩ : Hook),false)).append_left _
      · rcases List.mem_append.mp called with old | new
        · exact sound.queued h old
        · simp at new
      · rcases handed_set member with old | new
        · exact sound.handed b' toRemove' id' old
        · cases new
    next => exact ⟨sound,fun _ removed => removed⟩
  next => exact ⟨sound,fun _ removed => removed⟩

theorem Sound.returned (sound : Sound w) (j : Nat) : Keeps w (w.returned j) := by
  rw [World.returned]
  split
  next b async here =>
    refine ⟨⟨sound.active,sound.invocations,sound.held,sound.removed,sound.complete,sound.flagged,sound.known,
      sound.confirmed,sound.once,ledger_erase here sound.ledger rfl,sound.queued,fun b toRemove id member => ?_,
      sound.scanned,sound.pending⟩,fun _ removed => removed⟩
    exact sound.handed b toRemove id (List.mem_of_mem_eraseIdx member)
  next => exact ⟨sound,fun _ removed => removed⟩

theorem mem_toRemove {b : Binding} {id : Nat} :
    id ∈ b.toRemove ↔ ∃ o, b.owned.lookup id = some o ∧ o.removeScheduled = false := by
  simp only [Binding.toRemove,List.mem_map,List.mem_filter,Table.lookup_iff_entry]
  constructor
  · rintro ⟨⟨key,o⟩,⟨member,free⟩,rfl⟩
    exact ⟨o,member,by simpa using free⟩
  · rintro ⟨o,member,free⟩
    exact ⟨⟨id,o⟩,⟨member,by simpa using free⟩,rfl⟩

theorem toRemove_nodup (b : Binding) : b.toRemove.Nodup :=
  (AList.keys_nodup b.owned).sublist (List.filter_sublist.map _)

/-- The records after `BeginRemove` marked those of its binding. -/
theorem record_schedule (w : World n) (b : Nat) (h : Hook) :
    (w.setBinding b (w.bindings b).schedule).record h =
      if h.binding = b then (w.record h).map Owned.schedule else w.record h := by
  rw [record_setBinding]
  split
  next same =>
    subst same
    exact Table.lookup_mapValues _ _ _
  next => rfl

theorem Sound.unmarked (sound : Sound w) {h : Hook} {o : Owned} (here : w.record h = some o)
    (free : o.removeScheduled = false) : o.complete = false := by
  rw [Bool.eq_false_iff]
  intro complete
  obtain ⟨call,inside,rfl⟩ := List.mem_map.mp (sound.confirmed h ((sound.complete h o here).mp complete))
  have marked := (sound.flagged _ o here).mpr
    (List.mem_map_of_mem (sound.ledger.symm.subset (List.mem_append_left _ inside)))
  rw [free] at marked
  cases marked

theorem Sound.schedule (sound : Sound w) (j : Nat) : Keeps w (w.schedule j) := by
  rw [World.schedule]
  split
  next b async terminal here =>
    split
    next =>
      refine ⟨⟨sound.active,sound.invocations,sound.held,sound.removed,sound.complete,sound.flagged,sound.known,
        sound.confirmed,sound.once,ledger_erase here sound.ledger rfl,sound.queued,fun b toRemove id member => ?_,
        sound.scanned,fun none => nomatch none⟩,fun _ removed => removed⟩
      exact sound.handed b toRemove id (List.mem_of_mem_eraseIdx member)
    next =>
      have records := record_schedule w b
      have marks : ∀ h, h ∈ ((w.bindings b).toRemove.map fun id => ((⟨b,id⟩ : Hook),async)).map Prod.fst ↔
          h.binding = b ∧ ∃ o, w.record h = some o ∧ o.removeScheduled = false := by
        rintro ⟨b',id⟩
        simp only [List.map_map,List.mem_map,Function.comp_apply,Hook.mk.injEq]
        constructor
        · rintro ⟨id',inside,rfl,rfl⟩
          exact ⟨rfl,mem_toRemove.mp inside⟩
        · rintro ⟨rfl,some⟩
          exact ⟨id,mem_toRemove.mpr some,rfl,rfl⟩
      have cases_ : ∀ h o', (w.setBinding b (w.bindings b).schedule).record h = some o' →
          ∃ o, w.record h = some o ∧ (h.binding = b ∧ o' = o.schedule ∨ h.binding ≠ b ∧ o' = o) := by
        intro h o' found
        rw [records] at found
        split at found
        next same =>
          obtain ⟨o,was,rfl⟩ := Option.map_eq_some_iff.mp found
          exact ⟨o,was,.inl ⟨same,rfl⟩⟩
        next other => exact ⟨o',found,.inr ⟨other,rfl⟩⟩
      have grown : ∀ h o, w.record h = some o → ∃ o', (w.setBinding b (w.bindings b).schedule).record h = some o' := by
        intro h o was
        rw [records]
        split
        · exact ⟨o.schedule,by rw [was]; rfl⟩
        · exact ⟨o,was⟩
      have kept : ∀ h, w.Removed h → (w.setBinding b (w.bindings b).schedule).Removed h := by
        rintro h ⟨o,was,state⟩
        have marked := (sound.of_removed was state).2.2
        refine ⟨o,?_,state⟩
        rw [records,was]
        split
        · simp [Owned.schedule,marked]
        · rfl
      have fixed : ∀ o : Owned, o.schedule.invocations = o.invocations ∧ o.schedule.complete = o.complete ∧
          o.schedule.removeScheduled = true := by
        intro o
        rw [Owned.schedule]
        split <;> simp_all
      refine ⟨⟨sound.active,fun h o' found => ?_,fun h held => ?_,fun h o' found => ?_,fun h o' found => ?_,
        fun h o' found => ?_,fun h member => ?_,sound.confirmed,?_,?_,
        fun h member => (sound.queued h member).imp (fun x => x) (kept h),fun b' toRemove id member => ?_,
        fun i at_ j before h entry => kept h (sound.scanned i at_ j before h entry),fun none => nomatch none⟩,kept⟩
      · obtain ⟨o,was,⟨_,rfl⟩ | ⟨_,rfl⟩⟩ := cases_ h o' found
        · rw [(fixed o).1]
          exact sound.invocations h o was
        · exact sound.invocations h _ was
      · obtain ⟨o,was⟩ := sound.held h held
        exact grown h o was
      · obtain ⟨o,was,⟨_,rfl⟩ | ⟨_,rfl⟩⟩ := cases_ h o' found
        · cases free : o.removeScheduled with
          | true =>
            rw [show o.schedule = o by simp [Owned.schedule,free]]
            exact sound.removed h o was
          | false => simp [Owned.schedule,free,sound.unmarked was free]
        · exact sound.removed h _ was
      · obtain ⟨o,was,⟨_,rfl⟩ | ⟨_,rfl⟩⟩ := cases_ h o' found
        · rw [(fixed o).2.1]
          exact sound.complete h o was
        · exact sound.complete h _ was
      · show _ ↔ h ∈ (w.scheduled ++ _).map Prod.fst
        rw [List.map_append,List.mem_append,marks]
        obtain ⟨o,was,⟨same,rfl⟩ | ⟨other,rfl⟩⟩ := cases_ h o' found
        · rw [(fixed o).2.2,← sound.flagged h o was]
          cases free : o.removeScheduled with
          | true => simp
          | false => simp [same,was,free]
        · rw [sound.flagged h _ was]
          simp [other]
      · rw [List.map_append,List.mem_append,marks] at member
        rcases member with old | ⟨_,o,was,_⟩
        · obtain ⟨o,was⟩ := sound.known h old
          exact grown h o was
        · exact grown h o was
      · rw [List.map_append]
        refine List.nodup_append.mpr ⟨sound.once,?_,?_⟩
        · rw [List.map_map]
          exact (toRemove_nodup _).map fun id id' same => (Hook.mk.inj same).2
        · rintro h old h' new rfl
          obtain ⟨_,o,was,free⟩ := (marks h).mp new
          have marked := (sound.flagged h o was).mpr old
          rw [free] at marked
          cases marked
      · have rest := ledger_erase here sound.ledger rfl
        have after := (set_perm here (.removing b async (w.bindings b).toRemove none)).flatMap_right Job.outstanding
        rw [List.flatMap_cons] at after
        refine .trans ?_ (after.symm.append_left w.calls)
        refine .trans (rest.append_right _) ?_
        rw [List.append_assoc]
        exact List.perm_append_comm.append_left w.calls
      · rcases handed_set member with old | new
        · exact (sound.handed b' toRemove id old).imp (fun x => x) (kept _)
        · cases new
  next => exact ⟨sound,fun _ removed => removed⟩

theorem Sound.drainRetirement (sound : Sound w) (t : Fin n) : Keeps w (w.drainRetirement t) := by
  rw [World.drainRetirement]
  split
  all_goals exact ⟨⟨sound.active,sound.invocations,sound.held,sound.removed,sound.complete,sound.flagged,sound.known,
    sound.confirmed,sound.once,sound.ledger,sound.queued,sound.handed,sound.scanned,sound.pending⟩,fun _ removed => removed⟩

theorem Sound.drainLock (sound : Sound w) : Keeps w w.drainLock := by
  rw [World.drainLock.eq_def]
  split
  next =>
    exact ⟨⟨sound.active,sound.invocations,sound.held,sound.removed,sound.complete,sound.flagged,sound.known,
      sound.confirmed,sound.once,sound.ledger,sound.queued,sound.handed,fun i at_ => by simp at at_,sound.pending⟩,
      fun _ removed => removed⟩
  next => exact ⟨sound,fun _ removed => removed⟩

theorem Sound.pendingLock (sound : Sound w) : Keeps w w.pendingLock := by
  rw [World.pendingLock.eq_def]
  split
  next =>
    refine ⟨⟨sound.active,sound.invocations,sound.held,sound.removed,sound.complete,sound.flagged,sound.known,
      sound.confirmed,sound.once,sound.ledger,sound.queued,sound.handed,fun i at_ j before => ?_,sound.pending⟩,
      fun _ removed => removed⟩
    simp only [Option.some.injEq,Scan.pending.injEq] at at_
    omega
  next => exact ⟨sound,fun _ removed => removed⟩

/-- Taking entries of one hook off the retirement queue, while nobody counts it. -/
theorem Sound.retireLess (sound : Sound w) {h : Hook} (gone : ∀ o, w.record h = some o → o.state = .removed)
    {retire : List Hook} (others : ∀ k ∈ w.retire, k = h ∨ k ∈ retire)
    (quiet : ∀ i, w.scan ≠ some (.pending i 0)) : Keeps w { w with retire } := by
  have still : ∀ k, (∃ o, w.record k = some o) → k ∈ w.retire → k ∈ retire ∨ w.Removed k := by
    rintro k ⟨o,here⟩ member
    rcases others k member with rfl | other
    · exact .inr ⟨o,here,gone o here⟩
    · exact .inl other
  exact ⟨⟨sound.active,sound.invocations,sound.held,sound.removed,sound.complete,sound.flagged,sound.known,
    sound.confirmed,sound.once,sound.ledger,
    fun k called => (sound.queued k called).elim (still k (sound.call_known called)) .inr,
    fun b toRemove id job => (sound.handed b toRemove id job).elim (still _ (sound.handed_known job)) .inr,
    fun i at_ => absurd at_ (quiet i),sound.pending⟩,fun _ removed => removed⟩

theorem Sound.prune (sound : Sound w) (h : Hook) : Keeps w (w.prune h) := by
  have others : ∀ k ∈ w.retire, k = h ∨ k ∈ w.retire.filter (· ≠ h) := by
    intro k member
    rcases eq_or_ne k h with same | other
    · exact .inl same
    · exact .inr (List.mem_filter.mpr ⟨member,by simpa using other⟩)
  rw [World.prune.eq_def]
  split
  next => exact ⟨sound,fun _ removed => removed⟩
  next idle absent => exact sound.retireLess (fun o here => by simp [absent] at here) others (by simp [idle])
  next o idle here =>
    split
    next => exact ⟨sound,fun _ removed => removed⟩
    next done =>
      simp only [not_or,not_not] at done
      exact sound.retireLess (fun o' also => by rw [← Option.some.inj (here.symm.trans also)]; exact done.1) others
        (by simp [idle])

theorem gone_removed {h : Hook} (gone : w.gone h = true) {o : Owned} (here : w.record h = some o) :
    o.state = .removed := by
  rw [World.gone.eq_def,here] at gone
  simpa using gone

theorem finished_removed {h : Hook} (finished : w.unfinished h = false) : w.Removed h := by
  rw [World.unfinished.eq_def] at finished
  split at finished
  next => cases finished
  next o here => exact ⟨o,here,by simpa using finished⟩

theorem Sound.scanNext (sound : Sound w) : Keeps w w.scanNext := by
  rw [World.scanNext.eq_def]
  split
  next => exact ⟨sound,fun _ removed => removed⟩
  next i at_ =>
    split
    next =>
      exact ⟨⟨sound.active,sound.invocations,sound.held,sound.removed,sound.complete,sound.flagged,sound.known,
        sound.confirmed,sound.once,sound.ledger,sound.queued,sound.handed,fun i none => by simp at none,sound.pending⟩,
        fun _ removed => removed⟩
    next h entry =>
      split
      next gone =>
        refine sound.retireLess (fun o => gone_removed gone) (fun k member => ?_) (by simp [at_])
        simpa using (eraseIdx_perm entry).subset member
      next =>
        exact ⟨⟨sound.active,sound.invocations,sound.held,sound.removed,sound.complete,sound.flagged,sound.known,
          sound.confirmed,sound.once,sound.ledger,sound.queued,sound.handed,fun i none => by simp at none,sound.pending⟩,
          fun _ removed => removed⟩
  next i count at_ =>
    split
    next out =>
      refine ⟨⟨sound.active,sound.invocations,sound.held,sound.removed,sound.complete,sound.flagged,sound.known,
        sound.confirmed,sound.once,sound.ledger,sound.queued,sound.handed,fun i none => by simp at none,
        fun zero h called => ?_⟩,fun _ removed => removed⟩
      obtain rfl := Option.some.inj zero
      rcases sound.queued h called with member | removed
      · obtain ⟨j,bound,same⟩ := List.mem_iff_getElem.mp member
        have length := List.getElem?_eq_none_iff.mp out
        exact sound.scanned i at_ j (by omega) h (by rw [List.getElem?_eq_getElem bound,same])
      · exact removed
    next h entry =>
      refine ⟨⟨sound.active,sound.invocations,sound.held,sound.removed,sound.complete,sound.flagged,sound.known,
        sound.confirmed,sound.once,sound.ledger,sound.queued,sound.handed,fun i' at' j before k there => ?_,
        sound.pending⟩,fun _ removed => removed⟩
      simp only [Option.some.injEq,Scan.pending.injEq] at at'
      obtain ⟨rfl,zero⟩ := at'
      split at zero
      · omega
      next finished =>
        subst zero
        rcases Nat.lt_succ_iff_lt_or_eq.mp before with earlier | rfl
        · exact sound.scanned i at_ j earlier k there
        · obtain rfl := Option.some.inj (entry.symm.trans there)
          exact finished_removed (w := w) (by simpa using finished)

theorem Sound.step (sound : Sound w) (action : Action n) : Keeps w (w.step action) := by
  cases action with
  | accept b id capsule => exact sound.accept b id capsule
  | noteObserve t b id => exact sound.noteObserve t b id
  | enterObserve t => exact sound.enterObserve t
  | grantObserve t => exact sound.grantObserve t
  | leaveObserve t => exact sound.leaveObserve t
  | leftObserve t => exact sound.leftObserve t
  | dispatchEnter => exact sound.dispatchEnter
  | dispatchDecide => exact sound.dispatchDecide
  | dispatchReset => exact sound.dispatchReset
  | setLifecycle lifecycle =>
    exact ⟨⟨sound.active,sound.invocations,sound.held,sound.removed,sound.complete,sound.flagged,sound.known,
      sound.confirmed,sound.once,sound.ledger,sound.queued,sound.handed,sound.scanned,sound.pending⟩,
      fun _ removed => removed⟩
  | beginRemove t b async permit => exact sound.beginRemove t b async permit
  | schedule j => exact sound.schedule j
  | enqueue j id => exact sound.enqueue j id
  | removeHook j id => exact sound.removeHook j id
  | returned j => exact sound.returned j
  | onRemoved h => exact sound.onRemoved h
  | drainRetirement t => exact sound.drainRetirement t
  | drainLock => exact sound.drainLock
  | pendingLock => exact sound.pendingLock
  | scanNext => exact sound.scanNext
  | prune h => exact sound.prune h

theorem Sound.run (actions : List (Action n)) : ∀ {w : World n}, Sound w → Keeps w (run actions w) := by
  induction actions with
  | nil => exact fun sound => ⟨sound,fun _ removed => removed⟩
  | cons action rest ih =>
    intro w sound
    obtain ⟨next,kept⟩ := sound.step action
    obtain ⟨last,also⟩ := ih next
    exact ⟨last,fun h removed => also h (kept h removed)⟩

/-- Nothing is being entered or left. -/
def World.Quiet (w : World n) : Prop := (∀ t, (w.threads t).stage = .idle) ∧ w.constructing = 0

/-- Observe guards that callbacks hold. -/
def World.observing (w : World n) : Nat := ∑ t, (w.threads t).observeStack.length

/-- What retirement promises of every state. -/
structure Retirement (w : World n) : Prop where
  active : w.activeCallbacks = w.live
  quiet : w.Quiet → w.activeCallbacks = w.observing + w.dispatchGuards ∧
    ∀ h, w.guards h = ∑ t, ((w.threads t).observeStack.map Frame.hook).count h
  invocations : ∀ h o, w.record h = some o → o.invocations = w.guards h
  held : ∀ h, w.guards h ≠ 0 → ∃ o, w.record h = some o ∧ o.state ≠ .removed
  removed : ∀ h, w.Removed h ↔ h ∈ w.calls.map Prod.fst ∧ h ∈ w.confirmed ∧ w.guards h = 0
  stays : ∀ actions h, w.Removed h → (run actions w).Removed h ∧ (run actions w).guards h = 0
  once : (w.calls.map Prod.fst).Nodup
  scheduled : w.jobs = [] → w.scheduled.Perm w.calls
  marked : ∀ h o, w.record h = some o → (o.removeScheduled = true ↔ h ∈ w.scheduled.map Prod.fst)
  queued : ∀ h, (h,true) ∈ w.calls → h ∈ w.retire ∨ w.Removed h
  quiesced : w.drained = some true → w.pending = some 0 → ∀ h, (h,true) ∈ w.calls → w.Removed h

theorem Sound.removed_iff (sound : Sound w) (h : Hook) :
    w.Removed h ↔ h ∈ w.calls.map Prod.fst ∧ h ∈ w.confirmed ∧ w.guards h = 0 := by
  constructor
  · rintro ⟨o,here,state⟩
    obtain ⟨free,confirmed,_⟩ := sound.of_removed here state
    exact ⟨sound.confirmed h confirmed,confirmed,free⟩
  · rintro ⟨called,confirmed,free⟩
    obtain ⟨⟨h,async⟩,call,rfl⟩ := List.mem_map.mp called
    obtain ⟨o,here⟩ := sound.call_known call
    refine ⟨o,here,(sound.removed h o here).mpr ⟨(sound.complete h o here).mpr confirmed,?_⟩⟩
    rw [sound.invocations h o here,free]

theorem Sound.retirement (sound : Sound w) : Retirement w where
  active := sound.active
  quiet := by
    rintro ⟨idle,none⟩
    have before := sound.active
    have counted : ∀ t, (w.threads t).counted = (w.threads t).observeStack.length := by simp [Thread.counted,idle]
    simp only [World.live,counted,none] at before
    refine ⟨by simpa [World.observing] using before,fun h => ?_⟩
    simp [World.guards,Thread.holds,idle]
  invocations := sound.invocations
  held h some := by
    obtain ⟨o,here⟩ := sound.held h some
    exact ⟨o,here,fun state => some (sound.of_removed here state).1⟩
  removed := sound.removed_iff
  stays actions h removed := by
    obtain ⟨last,kept⟩ := sound.run actions
    obtain ⟨o,here,state⟩ := kept h removed
    exact ⟨⟨o,here,state⟩,(last.of_removed here state).1⟩
  once := by
    have once := sound.once
    rw [(sound.ledger.map Prod.fst).nodup_iff,List.map_append] at once
    exact (List.nodup_append.mp once).1
  scheduled none := by simpa [none] using sound.ledger
  marked := sound.flagged
  queued := sound.queued
  quiesced _ zero := sound.pending zero

end S2Script.KhookBinding
