import S2Script.TimerQueue

/-! Where the entries of a timer queue are kept. `Stored` ties heap, targets, buckets, ready map
and locations to one list of entries; locations of drained entries may be left over. -/
namespace S2Script.TimerQueue

open IndexedHeap

/-- A pending timer with its insertion sequence. -/
structure Entry (τ : Type) where
  sequence : Nat
  id : Nat
  kind : TimerKind τ

section Entries

variable {τ : Type} {entries : List (Entry τ)}

def entryOf (x : DeadlineEntry τ) : Entry τ := ⟨x.sequence,x.id,.deadline x.target⟩

/-- The entries whose sequence has not been taken. -/
def without (taken : List Nat) (entries : List (Entry τ)) : List (Entry τ) :=
  entries.filter (fun e => !taken.contains e.sequence)

@[simp] theorem mem_without {taken : List Nat} {e : Entry τ} :
    e ∈ without taken entries ↔ e ∈ entries ∧ e.sequence ∉ taken := by
  simp [without]

theorem without_append (a b : List Nat) (entries : List (Entry τ)) :
    without (a ++ b) entries = without b (without a entries) := by
  simp only [without,List.filter_filter]
  congr 1; funext e
  simp [Bool.and_comm]

@[simp] theorem without_nil (entries : List (Entry τ)) : without [] entries = entries := by
  simp [without]

theorem sequence_injective (sorted : entries.Pairwise (fun a b => a.sequence < b.sequence)) {a b : Entry τ}
    (ha : a ∈ entries) (hb : b ∈ entries) (same : a.sequence = b.sequence) : a = b := by
  induction entries with
  | nil => cases ha
  | cons e entries ih =>
    obtain ⟨later,sorted⟩ := List.pairwise_cons.mp sorted
    rcases List.mem_cons.mp ha with atA | ha <;> rcases List.mem_cons.mp hb with atB | hb
    · rw [atA,atB]
    · have := later b hb
      rw [← atA] at this; omega
    · have := later a ha
      rw [← atB] at this; omega
    · exact ih sorted ha hb

theorem deadline_injective : Function.Injective EntryLocation.deadline := by
  intro a b same
  cases same; rfl

theorem mem_heap {heap : Array (DeadlineEntry τ)} {x : DeadlineEntry τ} :
    x ∈ heap.toList ↔ ∃ i : Nat, heap[i]? = some x := by
  rw [Array.mem_toList_iff,Array.mem_iff_getElem?]

end Entries

variable {τ : Type} [LinearOrder τ]

/-- An entry is where its location says, in the form its kind asks for. -/
inductive Located (q : TimerQueue τ) (e : Entry τ) : Prop where
  | deadline (index : Nat) (target : τ) (location : q.locations[e.sequence]? = some (.deadline index))
      (kind : e.kind = .deadline target) (there : q.deadlineHeap[index]? = some ⟨e.id,e.sequence,target⟩)
  | frame (target : Nat) (bucket : Std.TreeMap Nat Nat) (location : q.locations[e.sequence]? = some (.frame target))
      (kind : e.kind = .frame target) (found : q.frameBuckets[target]? = some bucket)
      (there : bucket[e.sequence]? = some e.id)
  | ready (location : q.locations[e.sequence]? = some .ready) (there : q.ready[e.sequence]? = some e.id)

/-- How often a target stands in the heap, as the multiplicity map records it. -/
def tally (heap : List (DeadlineEntry τ)) (target : τ) : Option Nat :=
  if heap.countP (·.target = target) = 0 then none else some (heap.countP (·.target = target))

structure Stored (q : TimerQueue τ) (entries : List (Entry τ)) (parked : TimerKind τ → Prop) : Prop where
  sorted : entries.Pairwise (fun a b => a.sequence < b.sequence)
  bound : ∀ e ∈ entries, e.sequence < q.nextSequence
  located : ∀ e ∈ entries, Located q e
  placed : Placed DeadlineEntry.sequence EntryLocation.deadline q.deadlines
  ordered : Ordered rank (fun k => q.deadlineHeap[k]?)
  targets : ∀ target, q.deadlineTargets[target]? = tally q.deadlineHeap.toList target
  deadline : ∀ x ∈ q.deadlineHeap.toList, entryOf x ∈ entries
  frame : ∀ (target : Nat) (bucket : Std.TreeMap Nat Nat), q.frameBuckets[target]? = some bucket →
    ∀ (s id : Nat), bucket[s]? = some id → ⟨s,id,.frame target⟩ ∈ entries ∧ q.locations[s]? = some (.frame target)
  ready : ∀ (s id : Nat), q.ready[s]? = some id →
    q.locations[s]? = some .ready ∧ ∃ kind, ⟨s,id,kind⟩ ∈ entries ∧ parked kind

variable {q q' : TimerQueue τ} {entries : List (Entry τ)} {parked : TimerKind τ → Prop}

/-- The heap's sequences are the ones located in it. -/
theorem Stored.located_deadline (stored : Stored q entries parked) {x : DeadlineEntry τ}
    (member : x ∈ q.deadlineHeap.toList) : ∃ index, q.locations[x.sequence]? = some (.deadline index) := by
  obtain ⟨i,found⟩ := mem_heap.mp member
  exact ⟨i,stored.placed i x found⟩

theorem tally_cons (x : DeadlineEntry τ) (heap : List (DeadlineEntry τ)) (target : τ) :
    tally (x :: heap) target = if x.target = target then some ((tally heap target).getD 0 + 1) else tally heap target := by
  by_cases same : x.target = target
  · simp only [tally,List.countP_cons,same,decide_true,if_true]
    rw [if_neg (Nat.succ_ne_zero _)]
    split
    next zero => rw [zero]; rfl
    next => rfl
  · simp only [tally,List.countP_cons,same,decide_false,if_false,Nat.add_zero,Bool.false_eq_true]

theorem tally_perm {heap heap' : List (DeadlineEntry τ)} (perm : heap.Perm heap') (target : τ) :
    tally heap target = tally heap' target := by
  simp only [tally,perm.countP_eq]

theorem tally_pos {heap : List (DeadlineEntry τ)} {target : τ} : tally heap target ≠ some 0 := by
  rw [tally]
  split <;> simp_all

/-- The multiplicities after one item of the heap is counted out. -/
theorem targets_removed {targets : Std.TreeMap τ Nat} {heap rest : List (DeadlineEntry τ)} {x : DeadlineEntry τ}
    (counted : ∀ target, targets[target]? = tally heap target) (perm : heap.Perm (x :: rest)) :
    ∃ count, targets[x.target]? = some (count + 1) ∧
      ∀ target, (if count = 0 then targets.erase x.target else targets.insert x.target count)[target]? =
        tally rest target := by
  refine ⟨(tally rest x.target).getD 0,by rw [counted,tally_perm perm,tally_cons,if_pos rfl],?_⟩
  intro target
  by_cases same : x.target = target
  · subst same
    cases count : tally rest x.target with
    | none => simp
    | some n =>
      have positive : n ≠ 0 := fun zero => tally_pos (zero ▸ count)
      simp [positive]
  · have before : targets[target]? = tally rest target := by
      rw [counted,tally_perm perm,tally_cons,if_neg same]
    split <;> simp [Std.TreeMap.getElem?_erase,Std.TreeMap.getElem?_insert,same,before]

/-- What a step that only takes entries out of storage leaves alone. -/
structure Frame (q q' : TimerQueue τ) (taken : List Nat) : Prop where
  ids : q'.idSequences = q.idSequences
  next : q'.nextSequence = q.nextSequence
  locations : ∀ s, s ∉ taken → (s ∈ q'.locations ↔ s ∈ q.locations)

theorem Frame.refl (q : TimerQueue τ) : Frame q q [] := ⟨rfl,rfl,fun _ _ => Iff.rfl⟩

theorem Frame.trans {q₁ q₂ q₃ : TimerQueue τ} {a b : List Nat} (first : Frame q₁ q₂ a) (second : Frame q₂ q₃ b) :
    Frame q₁ q₃ (a ++ b) := by
  refine ⟨second.ids.trans first.ids,second.next.trans first.next,?_⟩
  intro s other
  simp only [List.mem_append,not_or] at other
  exact (second.locations s other.2).trans (first.locations s other.1)

theorem Stored.removeDeadlineAt (stored : Stored q entries parked) {index : Nat} {x : DeadlineEntry τ}
    (found : q.deadlineHeap[index]? = some x) :
    ∃ q', q.removeDeadlineAt index = .ok (q',x) ∧ Stored q' (without [x.sequence] entries) parked ∧
      Frame q q' [x.sequence] ∧ x.sequence ∉ q'.locations ∧ q.deadlineHeap.toList.Perm (x :: q'.deadlineHeap.toList) ∧
      q'.frameBuckets = q.frameBuckets ∧ q'.ready = q.ready := by
  obtain ⟨h,detached,perm,placed,erased,frame,kept⟩ := detach_spec deadline_injective stored.placed found
  obtain ⟨h',settled,moved,ordered⟩ := settle_spec deadline_injective placed (stored.ordered.broken found kept)
  have perm' : q.deadlineHeap.toList.Perm (x :: h'.heap.toList) := perm.trans (moved.perm.symm.cons x)
  obtain ⟨count,counted,targets⟩ := targets_removed stored.targets perm'
  have inHeap : ∀ y ∈ h'.heap.toList, y ∈ q.deadlineHeap.toList := fun y member =>
    perm'.mem_iff.mpr (List.mem_cons_of_mem _ member)
  have apart : ∀ y ∈ h'.heap.toList, y.sequence ≠ x.sequence := by
    intro y member same
    obtain ⟨i,foundY⟩ := mem_heap.mp (moved.perm.mem_iff.mp member)
    have := placed i y foundY
    rw [same,erased] at this
    cases this
  -- a sequence that is not in the heap keeps its location through both halves
  have outside : ∀ s, (∀ y ∈ q.deadlineHeap.toList, y.sequence ≠ s) → h'.places[s]? = q.locations[s]? := by
    intro s other
    rw [moved.frame s (fun y member => other y (perm.mem_iff.mpr (List.mem_cons_of_mem _ member))),frame s other]
    rfl
  have gone : h'.places[x.sequence]? = none := by
    rw [moved.frame _ (fun y member => apart y (moved.perm.mem_iff.mpr member)),erased]
  have notHeap : ∀ s location, q.locations[s]? = some location → (∀ index, location ≠ .deadline index) →
      ∀ y ∈ q.deadlineHeap.toList, y.sequence ≠ s := by
    intro s location located other y member same
    obtain ⟨index,placedY⟩ := stored.located_deadline member
    rw [same,located] at placedY
    exact other index (Option.some.inj placedY)
  refine ⟨{ q with deadlineHeap := h'.heap, locations := h'.places, deadlineTargets := if count = 0 then q.deadlineTargets.erase x.target else q.deadlineTargets.insert x.target count },
    ?_,⟨?_,?_,?_,moved.placed,ordered,targets,?_,?_,?_⟩,⟨rfl,rfl,?_⟩,?_,perm',rfl,rfl⟩
  · simp only [TimerQueue.removeDeadlineAt,detached,expect,bind,Except.bind,counted,settled,pure,Except.pure]
    simp
  · exact stored.sorted.filter _
  · intro e member
    exact stored.bound e (mem_without.mp member).1
  · intro e member
    obtain ⟨member,differ⟩ := mem_without.mp member
    have differ : e.sequence ≠ x.sequence := by simpa using differ
    cases stored.located e member with
    | deadline i target location kind there =>
      have inRest : (⟨e.id,e.sequence,target⟩ : DeadlineEntry τ) ∈ h'.heap.toList := by
        rcases List.mem_cons.mp (perm'.mem_iff.mp (mem_heap.mpr ⟨i,there⟩)) with same | inRest
        · exact absurd (congrArg DeadlineEntry.sequence same) differ
        · exact inRest
      obtain ⟨j,foundJ⟩ := mem_heap.mp inRest
      exact .deadline j target (moved.placed j _ foundJ) kind foundJ
    | frame target bucket location kind foundB there =>
      exact .frame target bucket ((outside _ (notHeap _ _ location (by simp))).trans location) kind foundB there
    | ready location there =>
      exact .ready ((outside _ (notHeap _ _ location (by simp))).trans location) there
  · intro y member
    exact mem_without.mpr ⟨stored.deadline y (inHeap y member),by simpa [entryOf] using apart y member⟩
  · intro target bucket foundB s id there
    obtain ⟨member,location⟩ := stored.frame target bucket foundB s id there
    have other := notHeap _ _ location (by simp)
    refine ⟨mem_without.mpr ⟨member,?_⟩,(outside _ other).trans location⟩
    simpa using (other x (mem_heap.mpr ⟨index,found⟩)).symm
  · intro s id there
    obtain ⟨location,kind,member,isParked⟩ := stored.ready s id there
    have other := notHeap _ _ location (by simp)
    refine ⟨(outside _ other).trans location,kind,mem_without.mpr ⟨member,?_⟩,isParked⟩
    simpa using (other x (mem_heap.mpr ⟨index,found⟩)).symm
  · intro s other
    have other : s ≠ x.sequence := by simpa using other
    simp only [Std.HashMap.mem_iff_isSome_getElem?]
    by_cases inHeapS : ∀ y ∈ q.deadlineHeap.toList, y.sequence ≠ s
    · rw [outside s inHeapS]
    · push Not at inHeapS
      obtain ⟨y,member,rfl⟩ := inHeapS
      obtain ⟨i,before⟩ := stored.located_deadline member
      have inRest : y ∈ h'.heap.toList := by
        rcases List.mem_cons.mp (perm'.mem_iff.mp member) with same | inRest
        · exact absurd (congrArg DeadlineEntry.sequence same) other
        · exact inRest
      obtain ⟨j,foundJ⟩ := mem_heap.mp inRest
      have after : h'.places[y.sequence]? = _ := moved.placed j y foundJ
      simp [before,after]
  · simp [Std.HashMap.mem_iff_isSome_getElem?,gone]

/-- Entries taken out of storage, each once, as pairs of sequence and id. -/
structure Takes (q q' : TimerQueue τ) (entries : List (Entry τ)) (parked due : TimerKind τ → Prop)
    (taken : List (Nat × Nat)) : Prop where
  stored : Stored q' (without (taken.map Prod.fst) entries) parked
  frame : Frame q q' (taken.map Prod.fst)
  once : (taken.map Prod.fst).Nodup
  members : ∀ pair ∈ taken, ∃ kind, ⟨pair.1,pair.2,kind⟩ ∈ entries ∧ due kind

theorem Takes.refl {due : TimerKind τ → Prop} (stored : Stored q entries parked) : Takes q q entries parked due [] :=
  ⟨by simpa using stored,.refl q,by simp,by simp⟩

theorem Takes.trans {q₁ q₂ q₃ : TimerQueue τ} {due : TimerKind τ → Prop} {a b : List (Nat × Nat)}
    (first : Takes q₁ q₂ entries parked due a) (second : Takes q₂ q₃ (without (a.map Prod.fst) entries) parked due b) :
    Takes q₁ q₃ entries parked due (a ++ b) := by
  refine ⟨?_,?_,?_,?_⟩
  · rw [List.map_append,without_append]; exact second.stored
  · rw [List.map_append]; exact first.frame.trans second.frame
  · rw [List.map_append]
    refine List.nodup_append.mpr ⟨first.once,second.once,?_⟩
    rintro s inFirst _ inSecond rfl
    obtain ⟨pair,member,rfl⟩ := List.mem_map.mp inSecond
    obtain ⟨_,there,_⟩ := second.members pair member
    exact (mem_without.mp there).2 inFirst
  · intro pair member
    rcases List.mem_append.mp member with member | member
    · exact first.members pair member
    · obtain ⟨kind,there,isDue⟩ := second.members pair member
      exact ⟨kind,(mem_without.mp there).1,isDue⟩

def pairOf (x : DeadlineEntry τ) : Nat × Nat := (x.sequence,x.id)

/-- A whole heap taken at once: its locations are left over. -/
theorem Stored.takeHeap (stored : Stored q entries parked) {due : TimerKind τ → Prop}
    (all : ∀ x ∈ q.deadlineHeap.toList, due (.deadline x.target)) :
    Takes q { q with deadlineTargets := ∅, deadlineHeap := #[] } entries parked due
      (q.deadlineHeap.toList.map pairOf) := by
  have sequences : (q.deadlineHeap.toList.map pairOf).map Prod.fst = q.deadlineHeap.toList.map (·.sequence) := by
    simp [pairOf]
  have mem_sequences : ∀ s, s ∈ q.deadlineHeap.toList.map (·.sequence) ↔ ∃ x ∈ q.deadlineHeap.toList, x.sequence = s := by
    simp
  have notTaken : ∀ s location, q.locations[s]? = some location → (∀ index, location ≠ .deadline index) →
      s ∉ q.deadlineHeap.toList.map (·.sequence) := by
    intro s location located other member
    obtain ⟨x,inHeap,rfl⟩ := (mem_sequences s).mp member
    obtain ⟨index,placed⟩ := stored.located_deadline inHeap
    rw [located] at placed
    exact other index (Option.some.inj placed)
  refine ⟨?_,⟨rfl,rfl,fun _ _ => Iff.rfl⟩,?_,?_⟩
  · rw [sequences]
    refine ⟨stored.sorted.filter _,fun e member => stored.bound e (mem_without.mp member).1,?_,?_,?_,?_,?_,?_,?_⟩
    · intro e member
      obtain ⟨member,outside⟩ := mem_without.mp member
      cases stored.located e member with
      | deadline i target location kind there =>
        exact absurd ((mem_sequences _).mpr ⟨_,mem_heap.mpr ⟨i,there⟩,rfl⟩) outside
      | frame target bucket location kind found there => exact .frame target bucket location kind found there
      | ready location there => exact .ready location there
    · intro i x found
      simp [deadlines] at found
    · intro j _ a b ha
      simp at ha
    · intro target
      simp [tally]
    · simp
    · intro target bucket found s id there
      obtain ⟨member,location⟩ := stored.frame target bucket found s id there
      exact ⟨mem_without.mpr ⟨member,notTaken _ _ location (by simp)⟩,location⟩
    · intro s id there
      obtain ⟨location,kind,member,isParked⟩ := stored.ready s id there
      exact ⟨location,kind,mem_without.mpr ⟨member,notTaken _ _ location (by simp)⟩,isParked⟩
  · rw [sequences]
    apply List.pairwise_map.mpr
    apply List.pairwise_iff_getElem.mpr
    intro i j hi hj less same
    have foundI : q.deadlines.heap[i]? = some _ := Array.getElem?_eq_getElem (by simpa [deadlines] using hi)
    have foundJ : q.deadlines.heap[j]? = some _ := Array.getElem?_eq_getElem (by simpa [deadlines] using hj)
    have := stored.placed.injective deadline_injective foundI foundJ (by simpa [deadlines] using same)
    omega
  · intro pair member
    obtain ⟨x,inHeap,rfl⟩ := List.mem_map.mp member
    exact ⟨.deadline x.target,stored.deadline x inHeap,all x inHeap⟩

/-- The root is the earliest deadline of the heap. -/
theorem Stored.root_le (stored : Stored q entries parked) {x y : DeadlineEntry τ}
    (root : q.deadlineHeap[0]? = some x) (member : y ∈ q.deadlineHeap.toList) : x.target ≤ y.target := by
  obtain ⟨i,found⟩ := mem_heap.mp member
  have closed : ∀ j : Nat, (q.deadlineHeap[j]?).isSome → (q.deadlineHeap[parent j]?).isSome := by
    intro j there
    obtain ⟨y,foundY⟩ := Option.isSome_iff_exists.mp there
    have inside := (Array.getElem?_eq_some_iff.mp foundY).1
    rw [Array.getElem?_eq_getElem (by unfold parent; omega)]
    rfl
  have less := stored.ordered.root closed root found
  rw [rank,rank,Prod.Lex.toLex_le_toLex] at less
  rcases less with less | ⟨same,_⟩
  · exact less.le
  · exact same.le

theorem Stored.takeEarliest (now : τ) (due : TimerKind τ → Prop) (all : ∀ target ≤ now, due (.deadline target))
    (n : Nat) {q : TimerQueue τ} {entries : List (Entry τ)} (size : q.deadlineHeap.size = n)
    (stored : Stored q entries parked) (before : List (DeadlineEntry τ)) :
    ∃ q' taken, TimerQueue.takeEarliest now q before = .ok (q',before ++ taken) ∧
      Takes q q' entries parked due (taken.map pairOf) ∧ (∀ x ∈ q'.deadlineHeap.toList, now < x.target) ∧
      q'.frameBuckets = q.frameBuckets ∧ q'.ready = q.ready := by
  induction n generalizing q entries before with
  | zero =>
    have empty : q.deadlineHeap = #[] := Array.eq_empty_of_size_eq_zero size
    refine ⟨q,[],?_,.refl stored,by simp [empty],rfl,rfl⟩
    rw [TimerQueue.takeEarliest,empty]
    simp
  | succ n ih =>
    obtain ⟨x,root⟩ : ∃ x, q.deadlineHeap[0]? = some x := ⟨_,Array.getElem?_eq_getElem (by omega)⟩
    rw [TimerQueue.takeEarliest,root]
    simp only
    by_cases future : now < x.target
    · refine ⟨q,[],by rw [if_pos future,List.append_nil],.refl stored,?_,rfl,rfl⟩
      intro y member
      exact future.trans_le (stored.root_le root member)
    · obtain ⟨q₁,removed,stored₁,frame₁,_,perm,buckets₁,ready₁⟩ := stored.removeDeadlineAt root
      have size₁ : q₁.deadlineHeap.size = n := by
        have := perm.length_eq
        simp at this
        omega
      obtain ⟨q₂,taken,run,takes,later,buckets₂,ready₂⟩ := ih size₁ stored₁ (before ++ [x])
      have first : Takes q q₁ entries parked due [pairOf x] := by
        refine ⟨stored₁,frame₁,by simp,?_⟩
        intro pair member
        rw [List.mem_singleton.mp member]
        exact ⟨.deadline x.target,stored.deadline x (mem_heap.mpr ⟨0,root⟩),all _ (not_lt.mp future)⟩
      refine ⟨q₂,x :: taken,?_,first.trans takes,later,buckets₂.trans buckets₁,ready₂.trans ready₁⟩
      rw [if_neg future]
      split
      next q' removed' again =>
        rw [removed] at again
        cases again
        rw [run,List.append_assoc,List.singleton_append]
      next fault again =>
        rw [removed] at again
        cases again

/-- `take_due_deadlines`, by either path, takes every due deadline of the heap. -/
theorem Stored.takeDueDeadlines (stored : Stored q entries parked) (now : τ) (due : TimerKind τ → Prop)
    (all : ∀ target ≤ now, due (.deadline target)) :
    ∃ q' taken, q.takeDueDeadlines now = .ok (q',taken) ∧ Takes q q' entries parked due (taken.map pairOf) ∧
      (∀ x ∈ q'.deadlineHeap.toList, now < x.target) ∧ q'.frameBuckets = q.frameBuckets ∧ q'.ready = q.ready := by
  have slow := stored.takeEarliest now due all _ rfl []
  rw [TimerQueue.takeDueDeadlines]
  split
  next latest last =>
    by_cases past : latest ≤ now
    · rw [if_pos past]
      refine ⟨_,_,rfl,stored.takeHeap ?_,by simp,rfl,rfl⟩
      intro x member
      apply all
      have counted : x.target ∈ q.deadlineTargets := by
        rw [Std.TreeMap.mem_iff_isSome_getElem?,stored.targets,tally,if_neg]
        · rfl
        · simpa using ⟨x,Array.mem_toList_iff.mp member,rfl⟩
      have less := (Std.TreeMap.maxKey?_eq_some_iff_mem_and_forall.mp last).2 x.target counted
      exact (compare_le_iff_le.mp (by simpa [Ordering.isLE_iff_ne_gt] using less)).trans past
    · rw [if_neg past]; simpa using slow
  next => simpa using slow

theorem popFirst_some {κ β : Type} [LinearOrder κ] {m : Std.TreeMap κ β} {k : κ} (first : m.minKey? = some k) :
    ∃ v, m[k]? = some v ∧ popFirst m = some (k,v,m.erase k) := by
  have member := (Std.TreeMap.minKey?_eq_some_iff_mem_and_forall.mp first).1
  obtain ⟨v,found⟩ := Option.isSome_iff_exists.mp (Std.TreeMap.mem_iff_isSome_getElem?.mp member)
  exact ⟨v,found,by simp [popFirst,first,found]⟩

theorem minKey?_le {κ β : Type} [LinearOrder κ] {m : Std.TreeMap κ β} {k other : κ} {v : β} (first : m.minKey? = some k)
    (found : m[other]? = some v) : k ≤ other := by
  have member : other ∈ m := by rw [Std.TreeMap.mem_iff_isSome_getElem?,found]; rfl
  have less := (Std.TreeMap.minKey?_eq_some_iff_mem_and_forall.mp first).2 other member
  exact compare_le_iff_le.mp (by simpa [Ordering.isLE_iff_ne_gt] using less)

theorem nodup_toList (m : Std.TreeMap Nat Nat) : (m.toList.map Prod.fst).Nodup := by
  apply List.pairwise_map.mpr
  apply m.ordered_keys_toList.imp
  intro a b less same
  rw [same] at less
  simp at less

/-- The bucket loop takes exactly the buckets that have been reached. -/
theorem takeBuckets_spec (frame n : Nat) (buckets : Std.TreeMap Nat (Std.TreeMap Nat Nat)) (size : buckets.size ≤ n)
    (before : List (Nat × Nat))
    (separate : ∀ (t t' : Nat) (b b' : Std.TreeMap Nat Nat) (s : Nat), buckets[t]? = some b → buckets[t']? = some b' →
      s ∈ b → s ∈ b' → t = t') :
    ∃ rest taken, takeBuckets frame buckets before = .ok (rest,before ++ taken) ∧
      (∀ t : Nat, rest[t]? = if t ≤ frame then none else buckets[t]?) ∧ (taken.map Prod.fst).Nodup ∧
      ∀ s id, (s,id) ∈ taken ↔ ∃ (t : Nat) (b : Std.TreeMap Nat Nat), t ≤ frame ∧ buckets[t]? = some b ∧ b[s]? = some id := by
  induction n generalizing buckets before with
  | zero =>
    have empty : buckets.isEmpty := by
      rw [Std.TreeMap.isEmpty_eq_size_eq_zero]; simpa using size
    have none : ∀ t : Nat, buckets[t]? = none := fun t => Std.TreeMap.getElem?_of_isEmpty empty
    refine ⟨buckets,[],?_,by simp [none],by simp,by simp [none]⟩
    rw [takeBuckets,Std.TreeMap.minKey?_of_isEmpty empty,List.append_nil]
  | succ n ih =>
    rw [takeBuckets]
    cases first : buckets.minKey? with
    | none =>
      have empty : buckets.isEmpty := Std.TreeMap.minKey?_eq_none_iff.mp first
      have none : ∀ t : Nat, buckets[t]? = none := fun t => Std.TreeMap.getElem?_of_isEmpty empty
      exact ⟨buckets,[],by simp,by simp [none],by simp,by simp [none]⟩
    | some target =>
      simp only
      by_cases reached : target ≤ frame
      · obtain ⟨bucket,found,popped⟩ := popFirst_some first
        have erased : ∀ t : Nat, (buckets.erase target)[t]? = if target = t then none else buckets[t]? := by
          intro t
          rw [Std.TreeMap.getElem?_erase]
          simp
        have size' : (buckets.erase target).size ≤ n := by
          have := popFirst_size popped
          omega
        obtain ⟨rest,taken,run,remaining,once,members⟩ := ih (buckets.erase target) size' (before ++ bucket.toList) (by
          intro t t' b b' s foundT foundT' inB inB'
          rw [erased] at foundT foundT'
          split at foundT <;> split at foundT'
          · cases foundT
          · cases foundT
          · cases foundT'
          · exact separate t t' b b' s foundT foundT' inB inB')
        refine ⟨rest,bucket.toList ++ taken,?_,?_,?_,?_⟩
        · rw [if_pos reached]
          split
          next k b r again => rw [popped] at again; cases again; rw [run,List.append_assoc]
          next again => rw [popped] at again; cases again
        · intro t
          rw [remaining,erased]
          by_cases same : target = t
          · simp [← same,reached]
          · simp [same]
        · rw [List.map_append]
          refine List.nodup_append.mpr ⟨nodup_toList bucket,once,?_⟩
          rintro s inBucket _ inTaken rfl
          obtain ⟨⟨s,id⟩,pairTaken,rfl⟩ := List.mem_map.mp inTaken
          obtain ⟨⟨s',id'⟩,pairBucket,same⟩ := List.mem_map.mp inBucket
          obtain ⟨t,b,_,foundT,there⟩ := (members s id).mp pairTaken
          rw [erased] at foundT
          split at foundT
          · cases foundT
          next differ =>
            apply differ
            apply separate target t bucket b s found foundT
            · have := Std.TreeMap.mem_toList_iff_getElem?_eq_some.mp pairBucket
              simp only at same
              rw [Std.TreeMap.mem_iff_isSome_getElem?,← same,this]; rfl
            · rw [Std.TreeMap.mem_iff_isSome_getElem?,there]; rfl
        · intro s id
          rw [List.mem_append,Std.TreeMap.mem_toList_iff_getElem?_eq_some,members]
          constructor
          · rintro (there | ⟨t,b,less,foundT,there⟩)
            · exact ⟨target,bucket,reached,found,there⟩
            · rw [erased] at foundT
              split at foundT
              · cases foundT
              · exact ⟨t,b,less,foundT,there⟩
          · rintro ⟨t,b,less,foundT,there⟩
            by_cases same : target = t
            · subst same
              rw [found] at foundT; cases foundT
              exact .inl there
            · exact .inr ⟨t,b,less,by rw [erased,if_neg same,foundT],there⟩
      · refine ⟨buckets,[],by rw [if_neg reached,List.append_nil],?_,by simp,?_⟩
        · intro t
          split
          next less =>
            cases found : buckets[t]? with
            | none => rfl
            | some b => exact absurd ((minKey?_le first found).trans less) reached
          next => rfl
        · intro s id
          simp only [List.not_mem_nil,false_iff]
          rintro ⟨t,b,less,found,_⟩
          exact reached ((minKey?_le first found).trans less)

/-- `take_due_frames` takes every entry of a reached bucket and nothing else. -/
theorem Stored.takeDueFrames (stored : Stored q entries parked) (frame : Nat) (due : TimerKind τ → Prop)
    (all : ∀ target ≤ frame, due (.frame target)) :
    ∃ q' taken, q.takeDueFrames frame = .ok (q',taken) ∧ Takes q q' entries parked due taken ∧
      (∀ (t : Nat) (b : Std.TreeMap Nat Nat), q'.frameBuckets[t]? = some b → frame < t) ∧
      q'.deadlineHeap = q.deadlineHeap ∧ q'.ready = q.ready := by
  obtain ⟨rest,taken,run,remaining,once,members⟩ := takeBuckets_spec frame _ q.frameBuckets (Nat.le_refl _) [] (by
    intro t t' b b' s foundT foundT' inB inB'
    obtain ⟨id,there⟩ := Option.isSome_iff_exists.mp (Std.TreeMap.mem_iff_isSome_getElem?.mp inB)
    obtain ⟨id',there'⟩ := Option.isSome_iff_exists.mp (Std.TreeMap.mem_iff_isSome_getElem?.mp inB')
    have location := (stored.frame t b foundT s id there).2
    rw [(stored.frame t' b' foundT' s id' there').2] at location
    cases location; rfl)
  have later : ∀ (t : Nat) (b : Std.TreeMap Nat Nat), rest[t]? = some b → frame < t ∧ q.frameBuckets[t]? = some b := by
    intro t b found
    rw [remaining] at found
    split at found
    · cases found
    next future => exact ⟨by omega,found⟩
  -- whatever was taken had a frame location
  have notTaken : ∀ s location, q.locations[s]? = some location → (∀ target ≤ frame, location ≠ .frame target) →
      s ∉ taken.map Prod.fst := by
    intro s location located other member
    obtain ⟨⟨s,id⟩,pairTaken,rfl⟩ := List.mem_map.mp member
    obtain ⟨t,b,less,found,there⟩ := (members s id).mp pairTaken
    have := (stored.frame t b found s id there).2
    rw [located] at this
    exact other t less (Option.some.inj this)
  refine ⟨{ q with frameBuckets := rest },taken,?_,⟨?_,⟨rfl,rfl,fun _ _ => Iff.rfl⟩,once,?_⟩,
    fun t b found => (later t b found).1,rfl,rfl⟩
  · rw [TimerQueue.takeDueFrames,run]; rfl
  · refine ⟨stored.sorted.filter _,fun e member => stored.bound e (mem_without.mp member).1,?_,stored.placed,
      stored.ordered,stored.targets,?_,?_,?_⟩
    · intro e member
      obtain ⟨member,outside⟩ := mem_without.mp member
      cases stored.located e member with
      | deadline i target location kind there => exact .deadline i target location kind there
      | frame target bucket location kind found there =>
        have future : ¬ target ≤ frame := by
          intro reached
          exact outside (List.mem_map.mpr ⟨(e.sequence,e.id),(members _ _).mpr ⟨target,bucket,reached,found,there⟩,rfl⟩)
        exact .frame target bucket location kind (by simp [remaining,future,found]) there
      | ready location there => exact .ready location there
    · intro x member
      obtain ⟨index,location⟩ := stored.located_deadline member
      exact mem_without.mpr ⟨stored.deadline x member,notTaken _ _ location (by simp)⟩
    · intro target bucket found s id there
      obtain ⟨future,found⟩ := later target bucket found
      obtain ⟨member,location⟩ := stored.frame target bucket found s id there
      refine ⟨mem_without.mpr ⟨member,notTaken _ _ location ?_⟩,location⟩
      rintro t reached ⟨⟩
      omega
    · intro s id there
      obtain ⟨location,kind,member,isParked⟩ := stored.ready s id there
      exact ⟨location,kind,mem_without.mpr ⟨member,notTaken _ _ location (by simp)⟩,isParked⟩
  · intro pair member
    obtain ⟨t,b,less,found,there⟩ := (members pair.1 pair.2).mp member
    exact ⟨.frame t,(stored.frame t b found _ _ there).1,all t less⟩

/-- Parking an entry that storage does not hold. -/
theorem Stored.park (e : Entry τ) (rest : List Nat) (stored : Stored q (without (e.sequence :: rest) entries) parked)
    (sorted : entries.Pairwise (fun a b => a.sequence < b.sequence)) (member : e ∈ entries)
    (bound : e.sequence < q.nextSequence) (isParked : parked e.kind) (fresh : e.sequence ∉ rest) :
    Stored (q.park e.sequence e.id) (without rest entries) parked := by
  have weaken : ∀ e' ∈ without (e.sequence :: rest) entries, e' ∈ without rest entries := by
    intro e' inside
    simp only [mem_without,List.mem_cons,not_or] at inside ⊢
    exact ⟨inside.1,inside.2.2⟩
  have apart : ∀ e' ∈ without (e.sequence :: rest) entries, e'.sequence ≠ e.sequence := by
    intro e' inside
    simp only [mem_without,List.mem_cons,not_or] at inside
    exact inside.2.1
  have split : ∀ e' ∈ without rest entries, e' = e ∨ e' ∈ without (e.sequence :: rest) entries := by
    intro e' inside
    simp only [mem_without,List.mem_cons,not_or] at inside ⊢
    by_cases same : e'.sequence = e.sequence
    · exact .inl (sequence_injective sorted inside.1 member same)
    · exact .inr ⟨inside.1,same,inside.2⟩
  have keeps : ∀ s, s ≠ e.sequence → (q.park e.sequence e.id).locations[s]? = q.locations[s]? := by
    intro s differ
    simp [TimerQueue.park,Std.HashMap.getElem?_insert,Ne.symm differ]
  have keepsReady : ∀ s, s ≠ e.sequence → (q.park e.sequence e.id).ready[s]? = q.ready[s]? := by
    intro s differ
    simp [TimerQueue.park,Std.TreeMap.getElem?_insert,Ne.symm differ]
  refine ⟨sorted.filter _,?_,?_,?_,stored.ordered,stored.targets,fun x inHeap => weaken _ (stored.deadline x inHeap),?_,?_⟩
  · intro e' inside
    rcases split e' inside with rfl | inside
    · exact bound
    · exact stored.bound e' inside
  · intro e' inside
    rcases split e' inside with rfl | inside
    · exact .ready (by simp [TimerQueue.park]) (by simp [TimerQueue.park])
    · have keep := keeps _ (apart e' inside)
      cases stored.located e' inside with
      | deadline i target location kind there => exact .deadline i target (keep.trans location) kind there
      | frame target bucket location kind found there =>
        exact .frame target bucket (keep.trans location) kind found there
      | ready location there =>
        exact .ready (keep.trans location) ((keepsReady _ (apart e' inside)).trans there)
  · intro i x found
    have inHeap : x ∈ q.deadlineHeap.toList := mem_heap.mpr ⟨i,found⟩
    exact (keeps _ (apart _ (stored.deadline x inHeap))).trans (stored.placed i x found)
  · intro target bucket found s id there
    obtain ⟨inside,location⟩ := stored.frame target bucket found s id there
    exact ⟨weaken _ inside,(keeps _ (apart _ inside)).trans location⟩
  · intro s id there
    by_cases same : s = e.sequence
    · subst same
      have same : e.id = id := by simpa [TimerQueue.park] using there
      refine ⟨by simp [TimerQueue.park],e.kind,?_,isParked⟩
      subst same
      exact mem_without.mpr ⟨member,fresh⟩
    · rw [keepsReady s same] at there
      obtain ⟨location,kind,inside,parkedKind⟩ := stored.ready s id there
      exact ⟨(keeps s same).trans location,kind,weaken _ inside,parkedKind⟩

theorem Stored.mono {wider : TimerKind τ → Prop} (stored : Stored q entries parked)
    (grows : ∀ kind, parked kind → wider kind) : Stored q entries wider := by
  refine { stored with ready := ?_ }
  intro s id there
  obtain ⟨location,kind,member,isParked⟩ := stored.ready s id there
  exact ⟨location,kind,member,grows kind isParked⟩

/-- The id index is no part of storage. -/
theorem Stored.withIds (stored : Stored q entries parked) (ids : Std.HashMap Nat IdSequences) :
    Stored { q with idSequences := ids } entries parked := by
  refine ⟨stored.sorted,stored.bound,?_,stored.placed,stored.ordered,stored.targets,stored.deadline,stored.frame,stored.ready⟩
  intro e member
  cases stored.located e member with
  | deadline i target location kind there => exact .deadline i target location kind there
  | frame target bucket location kind found there => exact .frame target bucket location kind found there
  | ready location there => exact .ready location there

/-- Emptying the ready map hands out every parked entry. -/
theorem Stored.takeReady (stored : Stored q entries parked) :
    Takes q { q with ready := ∅ } entries parked parked q.ready.toList := by
  have parkedHere : ∀ s, s ∈ q.ready.toList.map Prod.fst → q.locations[s]? = some .ready := by
    intro s member
    obtain ⟨⟨s,id⟩,pair,rfl⟩ := List.mem_map.mp member
    exact (stored.ready s id (Std.TreeMap.mem_toList_iff_getElem?_eq_some.mp pair)).1
  have notTaken : ∀ s location, q.locations[s]? = some location → location ≠ .ready → s ∉ q.ready.toList.map Prod.fst := by
    intro s location located other member
    have := parkedHere s member
    rw [located] at this
    exact other (Option.some.inj this)
  refine ⟨?_,⟨rfl,rfl,fun _ _ => Iff.rfl⟩,nodup_toList _,?_⟩
  · refine ⟨stored.sorted.filter _,fun e member => stored.bound e (mem_without.mp member).1,?_,stored.placed,
      stored.ordered,stored.targets,?_,?_,by simp⟩
    · intro e member
      obtain ⟨member,outside⟩ := mem_without.mp member
      cases stored.located e member with
      | deadline i target location kind there => exact .deadline i target location kind there
      | frame target bucket location kind found there => exact .frame target bucket location kind found there
      | ready location there =>
        exact absurd (List.mem_map.mpr ⟨(e.sequence,e.id),
          Std.TreeMap.mem_toList_iff_getElem?_eq_some.mpr there,rfl⟩) outside
    · intro x member
      obtain ⟨index,location⟩ := stored.located_deadline member
      exact mem_without.mpr ⟨stored.deadline x member,notTaken _ _ location (by simp)⟩
    · intro target bucket found s id there
      obtain ⟨member,location⟩ := stored.frame target bucket found s id there
      exact ⟨mem_without.mpr ⟨member,notTaken _ _ location (by simp)⟩,location⟩
  · intro pair member
    obtain ⟨_,kind,inside,isParked⟩ := stored.ready pair.1 pair.2 (Std.TreeMap.mem_toList_iff_getElem?_eq_some.mp member)
    exact ⟨kind,inside,isParked⟩

/-- A location that storage does not use may go. -/
theorem Stored.eraseLocation (stored : Stored q entries parked) {s : Nat} (unused : ∀ e ∈ entries, e.sequence ≠ s) :
    Stored { q with locations := q.locations.erase s } entries parked := by
  have keeps : ∀ t, t ≠ s → (q.locations.erase s)[t]? = q.locations[t]? := by
    intro t differ
    simp [Std.HashMap.getElem?_erase,Ne.symm differ]
  refine ⟨stored.sorted,stored.bound,?_,?_,stored.ordered,stored.targets,stored.deadline,?_,?_⟩
  · intro e member
    have keep := keeps _ (unused e member)
    cases stored.located e member with
    | deadline i target location kind there => exact .deadline i target (keep.trans location) kind there
    | frame target bucket location kind found there => exact .frame target bucket (keep.trans location) kind found there
    | ready location there => exact .ready (keep.trans location) there
  · intro i x found
    exact (keeps _ (unused _ (stored.deadline x (mem_heap.mpr ⟨i,found⟩)))).trans (stored.placed i x found)
  · intro target bucket found t id there
    obtain ⟨member,location⟩ := stored.frame target bucket found t id there
    exact ⟨member,(keeps _ (unused _ member)).trans location⟩
  · intro t id there
    obtain ⟨location,kind,member,isParked⟩ := stored.ready t id there
    exact ⟨(keeps _ (unused _ member)).trans location,kind,member,isParked⟩

/-- A parked entry leaves the ready map. -/
theorem Stored.unpark (stored : Stored q entries parked) {s id : Nat} (parkedHere : q.ready[s]? = some id) :
    Stored { q with ready := q.ready.erase s } (without [s] entries) parked := by
  have lookup : ∀ t, (q.ready.erase s)[t]? = if s = t then none else q.ready[t]? := by
    intro t
    simp [Std.TreeMap.getElem?_erase]
  have notTaken : ∀ t location, q.locations[t]? = some location → location ≠ .ready → t ∉ [s] := by
    intro t location located other member
    rw [List.mem_singleton.mp member,(stored.ready s id parkedHere).1] at located
    exact other (Option.some.inj located).symm
  refine ⟨stored.sorted.filter _,fun e member => stored.bound e (mem_without.mp member).1,?_,stored.placed,
    stored.ordered,stored.targets,?_,?_,?_⟩
  · intro e member
    obtain ⟨member,outside⟩ := mem_without.mp member
    cases stored.located e member with
    | deadline i target location kind there => exact .deadline i target location kind there
    | frame target bucket location kind found there => exact .frame target bucket location kind found there
    | ready location there =>
      have differ : s ≠ e.sequence := fun same => outside (by simp [same])
      exact .ready location ((lookup _).trans (by rw [if_neg differ,there]))
  · intro x member
    obtain ⟨index,location⟩ := stored.located_deadline member
    exact mem_without.mpr ⟨stored.deadline x member,notTaken _ _ location (by simp)⟩
  · intro target bucket found t id there
    obtain ⟨member,location⟩ := stored.frame target bucket found t id there
    exact ⟨mem_without.mpr ⟨member,notTaken _ _ location (by simp)⟩,location⟩
  · intro t id there
    rw [lookup] at there
    split at there
    · cases there
    next differ =>
      obtain ⟨location,kind,member,isParked⟩ := stored.ready t id there
      exact ⟨location,kind,mem_without.mpr ⟨member,by simpa using Ne.symm differ⟩,isParked⟩

/-- An entry leaves its frame bucket, and an emptied bucket goes. -/
theorem Stored.unbucket (stored : Stored q entries parked) {s target : Nat} {bucket : Std.TreeMap Nat Nat}
    (found : q.frameBuckets[target]? = some bucket) (located : q.locations[s]? = some (.frame target)) :
    Stored { q with frameBuckets := if (bucket.erase s).isEmpty then q.frameBuckets.erase target else q.frameBuckets.insert target (bucket.erase s) }
      (without [s] entries) parked := by
  have erased : ∀ t, (bucket.erase s)[t]? = if s = t then none else bucket[t]? := by
    intro t
    simp [Std.TreeMap.getElem?_erase]
  have buckets : ∀ (t : Nat) (b : Std.TreeMap Nat Nat), (if (bucket.erase s).isEmpty then q.frameBuckets.erase target
      else q.frameBuckets.insert target (bucket.erase s))[t]? = some b →
      ∃ old, q.frameBuckets[t]? = some old ∧ ∀ u id, b[u]? = some id → s ≠ u ∧ old[u]? = some id := by
    intro t b foundB
    by_cases same : target = t
    · subst same
      split at foundB
      · simp at foundB
      · simp only [Std.TreeMap.getElem?_insert_self,Option.some.injEq] at foundB
        refine ⟨bucket,found,?_⟩
        intro u id there
        rw [← foundB,erased] at there
        split at there
        · cases there
        next differ => exact ⟨differ,there⟩
    · have foundB : q.frameBuckets[t]? = some b := by
        split at foundB <;> simpa [Std.TreeMap.getElem?_erase,Std.TreeMap.getElem?_insert,same] using foundB
      refine ⟨b,foundB,?_⟩
      intro u id there
      refine ⟨?_,there⟩
      rintro rfl
      have := (stored.frame t b foundB _ id there).2
      rw [located] at this
      cases this
      exact same rfl
  have notTaken : ∀ t location, q.locations[t]? = some location → location ≠ .frame target → t ∉ [s] := by
    intro t location locatedT other member
    rw [List.mem_singleton.mp member,located] at locatedT
    exact other (Option.some.inj locatedT).symm
  refine ⟨stored.sorted.filter _,fun e member => stored.bound e (mem_without.mp member).1,?_,stored.placed,
    stored.ordered,stored.targets,?_,?_,?_⟩
  · intro e member
    obtain ⟨member,outside⟩ := mem_without.mp member
    have differ : s ≠ e.sequence := fun same => outside (by simp [same])
    cases stored.located e member with
    | deadline i t location kind there => exact .deadline i t location kind there
    | frame t b location kind foundT there =>
      by_cases same : target = t
      · subst same
        rw [found] at foundT
        cases foundT
        have stays : (bucket.erase s)[e.sequence]? = some e.id := by rw [erased,if_neg differ,there]
        have nonempty : (bucket.erase s).isEmpty = false := by
          apply Std.TreeMap.isEmpty_eq_false_iff_exists_mem.mpr
          exact ⟨e.sequence,by rw [Std.TreeMap.mem_iff_isSome_getElem?,stays]; rfl⟩
        exact .frame target (bucket.erase s) location kind (by simp [nonempty]) stays
      · refine .frame t b location kind ?_ there
        simp only
        split <;> simp [Std.TreeMap.getElem?_erase,Std.TreeMap.getElem?_insert,same,foundT]
    | ready location there => exact .ready location there
  · intro x member
    obtain ⟨index,location⟩ := stored.located_deadline member
    exact mem_without.mpr ⟨stored.deadline x member,notTaken _ _ location (by simp)⟩
  · intro t b foundT u id there
    obtain ⟨old,foundOld,members⟩ := buckets t b foundT
    obtain ⟨differ,thereOld⟩ := members u id there
    obtain ⟨member,location⟩ := stored.frame t old foundOld u id thereOld
    exact ⟨mem_without.mpr ⟨member,by simpa using Ne.symm differ⟩,location⟩
  · intro t id there
    obtain ⟨location,kind,member,isParked⟩ := stored.ready t id there
    exact ⟨location,kind,mem_without.mpr ⟨member,notTaken _ _ location (by simp)⟩,isParked⟩

/-- Cancelling one entry wherever it is. -/
theorem Stored.removeFromLocation (stored : Stored q entries parked) {e : Entry τ} (member : e ∈ entries) :
    ∃ location q', q.locations[e.sequence]? = some location ∧ q.removeFromLocation e.sequence location = .ok q' ∧
      Stored q' (without [e.sequence] entries) parked ∧ Frame q q' [e.sequence] ∧ e.sequence ∉ q'.locations := by
  have unused : ∀ e' ∈ without [e.sequence] entries, e'.sequence ≠ e.sequence := by
    intro e' inside
    simpa using (mem_without.mp inside).2
  have kept : ∀ s, s ∉ [e.sequence] → (s ∈ q.locations.erase e.sequence ↔ s ∈ q.locations) := by
    intro s other
    simp only [List.mem_singleton] at other
    simp [Std.HashMap.mem_erase,Ne.symm other]
  cases stored.located e member with
  | deadline i target location kind there =>
    obtain ⟨q',removed,stored',frame,gone,_⟩ := stored.removeDeadlineAt there
    refine ⟨_,q',location,?_,stored',frame,gone⟩
    simp [TimerQueue.removeFromLocation,removed,bind,Except.bind,pure,Except.pure]
  | frame target bucket location kind found there =>
    refine ⟨_,_,location,by simp only [TimerQueue.removeFromLocation,found,expect,bind,Except.bind,pure,Except.pure],
      (stored.unbucket found location).eraseLocation unused,⟨rfl,rfl,kept⟩,by simp⟩
  | ready location there =>
    exact ⟨_,_,location,rfl,(stored.unpark there).eraseLocation unused,⟨rfl,rfl,kept⟩,by simp⟩

end S2Script.TimerQueue
