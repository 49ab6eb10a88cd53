import S2Script.TimerQueueStorage

/-! The indexed queue refines the linear one: insertion, cancellation and both drains,
then every run whose clock never goes back. -/
namespace S2Script.TimerQueue

open IndexedHeap

section Index

variable {τ : Type} {entries : List (Entry τ)}

/-- The id index of some entries: nothing, one sequence or a non-empty set of them. -/
def Indexes (holds : Nat → Prop) : Option IdSequences → Prop
  | none => ∀ s, ¬ holds s
  | some (.one first) => ∀ s, holds s ↔ s = first
  | some (.many sequences) => (∃ s, holds s) ∧ ∀ s, holds s ↔ s ∈ sequences

def Carries (entries : List (Entry τ)) (id s : Nat) : Prop := ∃ e ∈ entries, e.id = id ∧ e.sequence = s

def IdIndex (ids : Std.HashMap Nat IdSequences) (entries : List (Entry τ)) : Prop :=
  ∀ id : Nat, Indexes (Carries entries id) ids[id]?

theorem Indexes.congr {p r : Nat → Prop} (same : ∀ s, p s ↔ r s) {found : Option IdSequences} (holds : Indexes p found) :
    Indexes r found := by
  have equal : p = r := funext fun s => propext (same s)
  exact equal ▸ holds

theorem carries_append (entries : List (Entry τ)) (e : Entry τ) (id s : Nat) :
    Carries (entries ++ [e]) id s ↔ Carries entries id s ∨ (e.id = id ∧ e.sequence = s) := by
  simp [Carries,or_and_right,exists_or]

theorem carries_without {s : Nat} {id t : Nat} :
    Carries (without [s] entries) id t ↔ Carries entries id t ∧ t ≠ s := by
  constructor
  · rintro ⟨e,member,rfl,rfl⟩
    obtain ⟨member,outside⟩ := mem_without.mp member
    exact ⟨⟨e,member,rfl,rfl⟩,by simpa using outside⟩
  · rintro ⟨⟨e,member,rfl,rfl⟩,differ⟩
    exact ⟨e,mem_without.mpr ⟨member,by simpa using differ⟩,rfl,rfl⟩

theorem IdIndex.link {ids : Std.HashMap Nat IdSequences} (index : IdIndex ids entries) (e : Entry τ) :
    IdIndex (linkIdSequence ids e.id e.sequence) (entries ++ [e]) := by
  intro id
  have known := index id
  by_cases same : e.id = id
  · subst same
    have carries : ∀ s, Carries (entries ++ [e]) e.id s ↔ Carries entries e.id s ∨ e.sequence = s := by
      intro s
      rw [carries_append]; simp
    cases found : ids[e.id]? with
    | none =>
      rw [found] at known
      simp only [linkIdSequence,found,Std.HashMap.getElem?_insert_self]
      intro s
      rw [carries]
      exact ⟨fun cases => cases.elim (fun old => absurd old (known s)) Eq.symm,fun new => .inr new.symm⟩
    | some sequences =>
      rw [found] at known
      cases sequences with
      | one first =>
        simp only [linkIdSequence,found,Std.HashMap.getElem?_insert_self]
        refine ⟨⟨e.sequence,(carries _).mpr (.inr rfl)⟩,?_⟩
        intro s
        rw [carries,known s]
        have member : s ∈ ((∅ : Std.TreeSet Nat).insert first |>.insert e.sequence) ↔ e.sequence = s ∨ first = s := by
          simp [Std.TreeSet.mem_insert]
        rw [member]
        omega
      | many set =>
        simp only [linkIdSequence,found,Std.HashMap.getElem?_insert_self]
        refine ⟨⟨e.sequence,(carries _).mpr (.inr rfl)⟩,?_⟩
        intro s
        rw [carries,known.2 s]
        simp [Std.TreeSet.mem_insert,or_comm]
  · have untouched : (linkIdSequence ids e.id e.sequence)[id]? = ids[id]? := by
      unfold linkIdSequence
      split <;> simp [Std.HashMap.getElem?_insert,same]
    rw [untouched]
    refine known.congr fun s => ?_
    rw [carries_append]; simp [same]

/-- The sequences an id carries, as `remove` walks them. -/
theorem IdIndex.sequences {ids : Std.HashMap Nat IdSequences} (index : IdIndex ids entries) (id : Nat)
    {sequences : IdSequences} (found : ids[id]? = some sequences) :
    ∃ walked : List Nat, (match sequences with | .one s => [s] | .many set => set.toList) = walked ∧ walked.Nodup ∧
      walked ≠ [] ∧ ∀ s, s ∈ walked ↔ Carries entries id s := by
  have known := index id
  rw [found] at known
  cases sequences with
  | one s =>
    refine ⟨[s],rfl,by simp,by simp,?_⟩
    intro t
    rw [known t]; simp
  | many set =>
    have members : ∀ s, s ∈ set.toList ↔ Carries entries id s := by
      intro s
      rw [Std.TreeSet.mem_toList,known.2 s]
    refine ⟨set.toList,rfl,?_,?_,members⟩
    · apply (Std.TreeSet.ordered_toList (t := set)).imp
      intro a b less same
      rw [same] at less
      simp at less
    · obtain ⟨s,carries⟩ := known.1
      exact List.ne_nil_of_mem ((members s).mpr carries)

theorem IdIndex.erase {ids : Std.HashMap Nat IdSequences} (index : IdIndex ids entries) (id : Nat) :
    IdIndex (ids.erase id) (entries.filter (·.id != id)) := by
  intro other
  by_cases same : id = other
  · subst same
    rw [Std.HashMap.getElem?_erase_self]
    rintro s ⟨e,member,here,_⟩
    simp [here] at member
  · have untouched : (ids.erase id)[other]? = ids[other]? := by simp [Std.HashMap.getElem?_erase,same]
    rw [untouched]
    refine (index other).congr fun s => ?_
    constructor
    · rintro ⟨e,member,rfl,rfl⟩
      exact ⟨e,by simpa [member] using Ne.symm same,rfl,rfl⟩
    · rintro ⟨e,member,rfl,rfl⟩
      exact ⟨e,List.mem_of_mem_filter member,rfl,rfl⟩

theorem drain_skip (due : TimerKind τ → Bool) (limit : Nat) (early late : LinearTimerQueue τ)
    (waiting : ∀ x ∈ early, due x.2 = false) :
    LinearTimerQueue.drain due limit (early ++ late) =
      ((LinearTimerQueue.drain due limit late).1,early ++ (LinearTimerQueue.drain due limit late).2) := by
  cases limit with
  | zero => simp [LinearTimerQueue.drain]
  | succ limit =>
    induction early with
    | nil => rfl
    | cons x early ih =>
      have first := waiting x (by simp)
      rw [List.cons_append,LinearTimerQueue.drain,first,ih fun y member => waiting y (List.mem_cons_of_mem _ member)]
      simp

/-- A bounded drain answers with the first of the due entries. -/
theorem drain_ids (due : TimerKind τ → Bool) (limit : Nat) (entries : LinearTimerQueue τ) :
    (LinearTimerQueue.drain due limit entries).1 = ((entries.filter (fun e => due e.2)).take limit).map Prod.fst := by
  induction entries generalizing limit with
  | nil => cases limit <;> simp [LinearTimerQueue.drain]
  | cons x entries ih =>
    cases limit with
    | zero => simp [LinearTimerQueue.drain]
    | succ limit =>
      by_cases isDueX : due x.2 = true
      · simp [LinearTimerQueue.drain,isDueX,ih]
      · simp [LinearTimerQueue.drain,isDueX,ih]

/-- The list without its sequences. -/
def linear (entries : List (Entry τ)) : LinearTimerQueue τ := entries.map (fun e => (e.id,e.kind))

theorem linear_filter (entries : List (Entry τ)) (keep : TimerKind τ → Bool) :
    linear (entries.filter (fun e => keep e.kind)) = (linear entries).filter (fun x => keep x.2) := by
  rw [linear,linear,List.filter_map]; rfl

end Index

variable {τ : Type} [LinearOrder τ]
variable {q q' : TimerQueue τ} {entries : List (Entry τ)} {parked : TimerKind τ → Prop}

/-- Storage, the domain of the locations and the id index agree with one list. -/
structure Represents (q : TimerQueue τ) (entries : List (Entry τ)) (parked : TimerKind τ → Prop) : Prop where
  stored : Stored q entries parked
  known : ∀ s, s ∈ q.locations → ∃ e ∈ entries, e.sequence = s
  index : IdIndex q.idSequences entries

theorem IdIndex.unlink (index : IdIndex q.idSequences entries)
    (sorted : entries.Pairwise (fun a b => a.sequence < b.sequence)) {e : Entry τ} (member : e ∈ entries) :
    ∃ ids, q.unlinkIdSequence e.id e.sequence = .ok { q with idSequences := ids } ∧
      IdIndex ids (without [e.sequence] entries) := by
  have carried : Carries entries e.id e.sequence := ⟨e,member,rfl,rfl⟩
  have others : ∀ id, e.id ≠ id → ∀ s, Carries (without [e.sequence] entries) id s ↔ Carries entries id s := by
    intro id differ s
    rw [carries_without]
    refine ⟨And.left,fun carries => ⟨carries,?_⟩⟩
    rintro rfl
    obtain ⟨e',member',same,sequence⟩ := carries
    rw [sequence_injective sorted member' member sequence] at same
    exact differ same
  have elsewhere : ∀ (ids : Std.HashMap Nat IdSequences) id, e.id ≠ id → ids[id]? = q.idSequences[id]? →
      Indexes (Carries (without [e.sequence] entries) id) ids[id]? := by
    intro ids id differ same
    rw [same]
    exact (index id).congr fun s => (others id differ s).symm
  have known := index e.id
  cases found : q.idSequences[e.id]? with
  | none =>
    rw [found] at known
    exact absurd carried (known _)
  | some sequences =>
    rw [found] at known
    cases sequences with
    | one only =>
      have same : only = e.sequence := ((known _).mp carried).symm
      refine ⟨q.idSequences.erase e.id,by simp [unlinkIdSequence,found,same,pure,Except.pure],?_⟩
      intro id
      by_cases here : e.id = id
      · subst here
        rw [Std.HashMap.getElem?_erase_self]
        intro s carries
        obtain ⟨carries,differ⟩ := carries_without.mp carries
        exact differ (((known s).mp carries).trans same)
      · exact elsewhere _ id here (by simp [Std.HashMap.getElem?_erase,here])
    | many set =>
      by_cases empty : (set.erase e.sequence).isEmpty = true
      · refine ⟨q.idSequences.erase e.id,by simp [unlinkIdSequence,found,empty,pure,Except.pure],?_⟩
        intro id
        by_cases here : e.id = id
        · subst here
          rw [Std.HashMap.getElem?_erase_self]
          intro s carries
          obtain ⟨carries,differ⟩ := carries_without.mp carries
          have stays : s ∈ set.erase e.sequence := by
            simpa [Std.TreeSet.mem_erase,Ne.symm differ] using (known.2 s).mp carries
          exact Std.TreeSet.isEmpty_iff_forall_not_mem.mp empty s stays
        · exact elsewhere _ id here (by simp [Std.HashMap.getElem?_erase,here])
      · refine ⟨q.idSequences.insert e.id (.many (set.erase e.sequence)),
          by simp [unlinkIdSequence,found,empty,pure,Except.pure],?_⟩
        intro id
        by_cases here : e.id = id
        · subst here
          rw [Std.HashMap.getElem?_insert_self]
          have members : ∀ s, Carries (without [e.sequence] entries) e.id s ↔ s ∈ set.erase e.sequence := by
            intro s
            have member : s ∈ set.erase e.sequence ↔ s ∈ set ∧ s ≠ e.sequence := by
              rw [Std.TreeSet.mem_erase,Ne,Nat.compare_eq_eq,eq_comm,and_comm]
            rw [carries_without,known.2 s,member]
          refine ⟨?_,members⟩
          obtain ⟨s,stays⟩ := Std.TreeSet.isEmpty_eq_false_iff_exists_mem.mp (Bool.eq_false_of_not_eq_true empty)
          exact ⟨s,(members s).mpr stays⟩
        · exact elsewhere _ id here (by simp [Std.HashMap.getElem?_insert,here])

theorem Stored.pushFrame (stored : Stored q entries parked) (id target : Nat) (ids : Std.HashMap Nat IdSequences) :
    Stored { q with nextSequence := q.nextSequence + 1, idSequences := ids, frameBuckets := q.frameBuckets.insert target (((q.frameBuckets[target]?).getD ∅).insert q.nextSequence id), locations := q.locations.insert q.nextSequence (.frame target) }
      (entries ++ [⟨q.nextSequence,id,.frame target⟩]) parked := by
  have older : ∀ e ∈ entries, e.sequence ≠ q.nextSequence := fun e member => Nat.ne_of_lt (stored.bound e member)
  have keeps : ∀ s, s ≠ q.nextSequence →
      (q.locations.insert q.nextSequence (.frame target))[s]? = q.locations[s]? := by
    intro s differ
    simp [Std.HashMap.getElem?_insert,Ne.symm differ]
  have left : ∀ e ∈ entries, e ∈ entries ++ [⟨q.nextSequence,id,.frame target⟩] := fun e => List.mem_append_left _
  -- the target's bucket keeps what it had
  have grown : ∀ (s other : Nat), ((q.frameBuckets[target]?).getD ∅)[s]? = some other →
      ∃ b, q.frameBuckets[target]? = some b ∧ b[s]? = some other := by
    intro s other there
    cases found : q.frameBuckets[target]? with
    | none => simp [found] at there
    | some b => exact ⟨b,rfl,by simpa [found] using there⟩
  refine ⟨?_,?_,?_,?_,stored.ordered,stored.targets,fun x member => left _ (stored.deadline x member),?_,?_⟩
  · refine List.pairwise_append.mpr ⟨stored.sorted,by simp,?_⟩
    intro e member e' new
    rw [List.mem_singleton.mp new]
    exact stored.bound e member
  · intro e member
    rcases List.mem_append.mp member with member | new
    · exact Nat.lt_succ_of_lt (stored.bound e member)
    · rw [List.mem_singleton.mp new]; exact Nat.lt_succ_self _
  · intro e member
    rcases List.mem_append.mp member with member | new
    · have keep := keeps _ (older e member)
      cases stored.located e member with
      | deadline i t location kind there => exact .deadline i t (keep.trans location) kind there
      | frame t b location kind found there =>
        by_cases same : target = t
        · subst same
          refine .frame target _ (keep.trans location) kind Std.TreeMap.getElem?_insert_self ?_
          simp [Std.TreeMap.getElem?_insert,Ne.symm (older e member),found,there]
        · exact .frame t b (keep.trans location) kind (by simp [Std.TreeMap.getElem?_insert,same,found]) there
      | ready location there => exact .ready (keep.trans location) there
    · rw [List.mem_singleton.mp new]
      exact .frame target _ (by simp) rfl Std.TreeMap.getElem?_insert_self (by simp)
  · intro i x found
    have member : x ∈ q.deadlineHeap.toList := mem_heap.mpr ⟨i,found⟩
    exact (keeps _ (older _ (stored.deadline x member))).trans (stored.placed i x found)
  · intro t b found s other there
    by_cases same : target = t
    · subst same
      rw [Std.TreeMap.getElem?_insert_self] at found
      cases found
      by_cases new : q.nextSequence = s
      · subst new
        simp only [Std.TreeMap.getElem?_insert_self,Option.some.injEq] at there
        subst there
        exact ⟨by simp,by simp⟩
      · simp only [Std.TreeMap.getElem?_insert,Nat.compare_eq_eq,new,if_false] at there
        obtain ⟨b,found,there⟩ := grown s other there
        obtain ⟨member,location⟩ := stored.frame target b found s other there
        exact ⟨left _ member,(keeps _ (older _ member)).trans location⟩
    · simp only [Std.TreeMap.getElem?_insert,Nat.compare_eq_eq,same,if_false] at found
      obtain ⟨member,location⟩ := stored.frame t b found s other there
      exact ⟨left _ member,(keeps _ (older _ member)).trans location⟩
  · intro s other there
    obtain ⟨location,kind,member,isParked⟩ := stored.ready s other there
    exact ⟨(keeps _ (older _ member)).trans location,kind,left _ member,isParked⟩

/-- An item pushed at the end may only be too early. -/
theorem rising_push {heap : Array (DeadlineEntry τ)} (ordered : Ordered rank (fun k => heap[k]?)) (x : DeadlineEntry τ) :
    Rising rank (fun k => (heap.push x)[k]?) heap.size := by
  have lookup : ∀ k, k ≠ heap.size → (heap.push x)[k]? = heap[k]? := by
    intro k differ
    rw [Array.getElem?_push,if_neg differ]
  constructor
  · intro j positive differ a b ha hb
    simp only [lookup j differ] at hb
    have inside := (Array.getElem?_eq_some_iff.mp hb).1
    simp only [lookup (parent j) (by unfold parent; omega)] at ha
    exact ordered j positive a b ha hb
  · intro _ c _ child a b _ hb
    have inside := (Array.getElem?_eq_some_iff.mp hb).1
    rw [Array.size_push] at inside
    unfold parent at child
    omega

theorem Stored.pushDeadline (stored : Stored q entries parked) (id : Nat) (target : τ) (ids : Std.HashMap Nat IdSequences) :
    ∃ h, (⟨q.deadlineHeap.push ⟨id,q.nextSequence,target⟩,q.locations.insert q.nextSequence (.deadline q.deadlineHeap.size)⟩ :
        Deadlines τ).siftUp rank DeadlineEntry.sequence .deadline q.deadlineHeap.size = some h ∧
      (∀ s, s ∈ h.places ↔ s = q.nextSequence ∨ s ∈ q.locations) ∧
      Stored { q with nextSequence := q.nextSequence + 1, idSequences := ids, deadlineHeap := h.heap, locations := h.places, deadlineTargets := q.deadlineTargets.insert target ((q.deadlineTargets[target]?).getD 0 + 1) }
        (entries ++ [⟨q.nextSequence,id,.deadline target⟩]) parked := by
  have older : ∀ e ∈ entries, e.sequence ≠ q.nextSequence := fun e member => Nat.ne_of_lt (stored.bound e member)
  have left : ∀ e ∈ entries, e ∈ entries ++ [⟨q.nextSequence,id,.deadline target⟩] := fun e => List.mem_append_left _
  have placed : Placed DeadlineEntry.sequence EntryLocation.deadline
      (⟨q.deadlineHeap.push ⟨id,q.nextSequence,target⟩,
        q.locations.insert q.nextSequence (.deadline q.deadlineHeap.size)⟩ : Deadlines τ) := by
    intro i y found
    simp only [Array.getElem?_push] at found
    split at found
    next last =>
      obtain rfl := Option.some.inj found
      simp [last]
    next =>
      have member : y ∈ q.deadlineHeap.toList := mem_heap.mpr ⟨i,found⟩
      have differ := older _ (stored.deadline y member)
      have differ : q.nextSequence ≠ y.sequence := Ne.symm differ
      simpa [Std.HashMap.getElem?_insert,differ,deadlines] using stored.placed i y found
  obtain ⟨h,sifted,moved,ordered⟩ := siftUp_spec deadline_injective q.deadlineHeap.size placed (by simp)
    (rising_push stored.ordered _)
  have perm : h.heap.toList.Perm (⟨id,q.nextSequence,target⟩ :: q.deadlineHeap.toList) := by
    refine moved.perm.trans ?_
    simp only [Array.toList_push]
    exact List.perm_append_singleton _ _
  have inside : ∀ y ∈ q.deadlineHeap.toList, ∃ j, h.heap[j]? = some y ∧ h.places[y.sequence]? = some (.deadline j) := by
    intro y member
    obtain ⟨j,found⟩ := mem_heap.mp (perm.mem_iff.mpr (List.mem_cons_of_mem _ member))
    exact ⟨j,found,moved.placed j y found⟩
  obtain ⟨newIndex,newFound⟩ := mem_heap.mp (perm.mem_iff.mpr List.mem_cons_self)
  have newPlace := moved.placed newIndex _ newFound
  -- outside the heap only the new sequence's location is written
  have outside : ∀ s, s ≠ q.nextSequence → (∀ y ∈ q.deadlineHeap.toList, y.sequence ≠ s) →
      h.places[s]? = q.locations[s]? := by
    intro s new other
    rw [moved.frame s]
    · simp [Std.HashMap.getElem?_insert,Ne.symm new]
    · intro y member
      simp only [Array.toList_push,List.mem_append,List.mem_singleton] at member
      rcases member with member | rfl
      · exact other y member
      · exact Ne.symm new
  have notHeap : ∀ s location, q.locations[s]? = some location → (∀ index, location ≠ .deadline index) →
      ∀ y ∈ q.deadlineHeap.toList, y.sequence ≠ s := by
    intro s location located other y member same
    obtain ⟨index,placedY⟩ := stored.located_deadline member
    rw [same,located] at placedY
    exact other index (Option.some.inj placedY)
  refine ⟨h,sifted,?_,?_,?_,?_,moved.placed,ordered,?_,?_,?_,?_⟩
  · intro s
    simp only [Std.HashMap.mem_iff_isSome_getElem?]
    by_cases new : s = q.nextSequence
    · subst new
      simp only [newPlace]
      simp
    · by_cases other : ∀ y ∈ q.deadlineHeap.toList, y.sequence ≠ s
      · rw [outside s new other]; simp [new]
      · push Not at other
        obtain ⟨y,member,rfl⟩ := other
        obtain ⟨j,_,after⟩ := inside y member
        obtain ⟨i,before⟩ := stored.located_deadline member
        simp [before,after]
  · refine List.pairwise_append.mpr ⟨stored.sorted,by simp,?_⟩
    intro e member e' new
    rw [List.mem_singleton.mp new]
    exact stored.bound e member
  · intro e member
    rcases List.mem_append.mp member with member | new
    · exact Nat.lt_succ_of_lt (stored.bound e member)
    · rw [List.mem_singleton.mp new]; exact Nat.lt_succ_self _
  · intro e member
    rcases List.mem_append.mp member with member | new
    · cases stored.located e member with
      | deadline i t location kind there =>
        obtain ⟨j,found,place⟩ := inside _ (mem_heap.mpr ⟨i,there⟩)
        exact .deadline j t place kind found
      | frame t b location kind found there =>
        exact .frame t b ((outside _ (older e member) (notHeap _ _ location (by simp))).trans location) kind found there
      | ready location there =>
        exact .ready ((outside _ (older e member) (notHeap _ _ location (by simp))).trans location) there
    · rw [List.mem_singleton.mp new]
      exact .deadline newIndex target newPlace rfl newFound
  · intro t
    rw [tally_perm perm,tally_cons,Std.TreeMap.getElem?_insert,stored.targets,stored.targets]
    by_cases same : target = t
    · simp [same]
    · simp [same]
  · intro y member
    rcases List.mem_cons.mp (perm.mem_iff.mp member) with rfl | member
    · exact List.mem_append_right _ (by simp [entryOf])
    · exact left _ (stored.deadline y member)
  · intro t b found s other there
    obtain ⟨member,location⟩ := stored.frame t b found s other there
    exact ⟨left _ member,(outside _ (older _ member) (notHeap _ _ location (by simp))).trans location⟩
  · intro s other there
    obtain ⟨location,kind,member,isParked⟩ := stored.ready s other there
    exact ⟨(outside _ (older _ member) (notHeap _ _ location (by simp))).trans location,kind,left _ member,isParked⟩

theorem Represents.push (represents : Represents q entries parked) (id : Nat) (kind : TimerKind τ)
    (room : q.nextSequence + 1 < 2 ^ 64) :
    ∃ q', q.push id kind = .ok q' ∧ Represents q' (entries ++ [⟨q.nextSequence,id,kind⟩]) parked ∧
      q'.nextSequence = q.nextSequence + 1 := by
  have index := represents.index.link ⟨q.nextSequence,id,kind⟩
  have known : ∀ (places : Std.HashMap Nat EntryLocation),
      (∀ s, s ∈ places ↔ s = q.nextSequence ∨ s ∈ q.locations) → ∀ s, s ∈ places →
      ∃ e ∈ entries ++ [⟨q.nextSequence,id,kind⟩], e.sequence = s := by
    intro places domain s there
    rcases (domain s).mp there with rfl | there
    · exact ⟨⟨q.nextSequence,id,kind⟩,by simp,rfl⟩
    · obtain ⟨e,member,same⟩ := represents.known s there
      exact ⟨e,List.mem_append_left _ member,same⟩
  cases kind with
  | deadline target =>
    obtain ⟨h,sifted,domain,stored⟩ := represents.stored.pushDeadline id target
      (linkIdSequence q.idSequences id q.nextSequence)
    refine ⟨_,?_,⟨stored,known _ domain,index⟩,rfl⟩
    simp only [TimerQueue.push,if_pos room,siftDeadlineUp,deadlines,sifted,expect,bind,Except.bind,pure,Except.pure,
      withDeadlines]
  | frame target =>
    refine ⟨_,by simp only [TimerQueue.push,if_pos room],
      ⟨represents.stored.pushFrame id target (linkIdSequence q.idSequences id q.nextSequence),known _ ?_,index⟩,rfl⟩
    intro s
    rw [Std.HashMap.mem_insert,beq_iff_eq,eq_comm]

theorem Stored.removeSequences (sequences : List Nat) {q : TimerQueue τ} {entries : List (Entry τ)}
    (stored : Stored q entries parked) (once : sequences.Nodup) (members : ∀ s ∈ sequences, ∃ e ∈ entries, e.sequence = s) :
    ∃ q', TimerQueue.removeSequences sequences q = .ok q' ∧ Stored q' (without sequences entries) parked ∧
      Frame q q' sequences ∧ ∀ s ∈ sequences, s ∉ q'.locations := by
  induction sequences generalizing q entries with
  | nil => exact ⟨q,rfl,by simpa using stored,.refl q,by simp⟩
  | cons s rest ih =>
    obtain ⟨fresh,onceRest⟩ := List.nodup_cons.mp once
    obtain ⟨e,member,rfl⟩ := members s (by simp)
    obtain ⟨location,q₁,located,removed,stored₁,frame₁,gone⟩ := stored.removeFromLocation member
    have members₁ : ∀ t ∈ rest, ∃ e' ∈ without [e.sequence] entries, e'.sequence = t := by
      intro t inRest
      obtain ⟨e',member',rfl⟩ := members t (List.mem_cons_of_mem _ inRest)
      refine ⟨e',mem_without.mpr ⟨member',?_⟩,rfl⟩
      simp only [List.mem_singleton]
      intro same
      exact fresh (same ▸ inRest)
    obtain ⟨q₂,run,stored₂,frame₂,goneRest⟩ := ih stored₁ onceRest members₁
    refine ⟨q₂,?_,?_,frame₁.trans frame₂,?_⟩
    · simp only [TimerQueue.removeSequences,located,expect,bind,Except.bind,removed]
      exact run
    · rw [← List.singleton_append,without_append]; exact stored₂
    · intro t inside
      rcases List.mem_cons.mp inside with rfl | inRest
      · rw [frame₂.locations _ fresh]; exact gone
      · exact goneRest t inRest

theorem Represents.remove (represents : Represents q entries parked) (id : Nat) :
    ∃ q', q.remove id = .ok (q',entries.any (·.id == id)) ∧ Represents q' (entries.filter (·.id != id)) parked ∧
      q'.nextSequence = q.nextSequence := by
  cases found : q.idSequences[id]? with
  | none =>
    have known := represents.index id
    rw [found] at known
    have nobody : ∀ e ∈ entries, e.id ≠ id := fun e member same => known e.sequence ⟨e,member,same,rfl⟩
    have all : entries.filter (·.id != id) = entries := List.filter_eq_self.mpr (by simpa using nobody)
    have absent : entries.any (·.id == id) = false := by simpa using nobody
    rw [all,absent]
    exact ⟨q,by simp [TimerQueue.remove,found,pure,Except.pure],represents,rfl⟩
  | some sequences =>
    obtain ⟨walked,walk,once,nonempty,carries⟩ := represents.index.sequences id found
    have kept : without walked entries = entries.filter (·.id != id) := by
      apply List.filter_congr
      intro e member
      have here : e.sequence ∈ walked ↔ e.id = id := by
        rw [carries]
        constructor
        · rintro ⟨e',member',same,sequence⟩
          rwa [sequence_injective represents.stored.sorted member' member sequence] at same
        · intro same
          exact ⟨e,member,same,rfl⟩
      by_cases same : e.id = id
      · simp [here.mpr same,same]
      · simp [mt here.mp same,same]
    obtain ⟨q₁,run,stored,frame,gone⟩ := (represents.stored.withIds (q.idSequences.erase id)).removeSequences walked once (by
      intro s inside
      obtain ⟨e,member,_,same⟩ := (carries s).mp inside
      exact ⟨e,member,same⟩)
    obtain ⟨s,inside⟩ := List.exists_mem_of_ne_nil _ nonempty
    obtain ⟨e,member,same,_⟩ := (carries s).mp inside
    have present : entries.any (·.id == id) = true := List.any_eq_true.mpr ⟨e,member,by simpa using same⟩
    refine ⟨q₁,?_,⟨kept ▸ stored,?_,?_⟩,frame.next⟩
    · rw [present]
      cases sequences with
      | one s => subst walk; simp [TimerQueue.remove,found,run,bind,Except.bind,pure,Except.pure]
      | many set => subst walk; simp [TimerQueue.remove,found,run,bind,Except.bind,pure,Except.pure]
    · intro s there
      have outside : s ∉ walked := fun inside => gone s inside there
      obtain ⟨e,member,same⟩ := represents.known s ((frame.locations s outside).mp there)
      exact ⟨e,kept ▸ mem_without.mpr ⟨member,same ▸ outside⟩,same⟩
    · rw [frame.ids]; exact represents.index.erase id

theorem sortBySequence_spec (l : List (Nat × Nat)) :
    (sortBySequence l).Perm l ∧ (sortBySequence l).Pairwise (fun a b => a.1 ≤ b.1) := by
  rw [sortBySequence]
  split
  next sorted => exact ⟨.refl _,sorted⟩
  next =>
    refine ⟨List.mergeSort_perm _ _,?_⟩
    have transitive : ∀ a b c : Nat × Nat, decide (a.1 ≤ b.1) = true → decide (b.1 ≤ c.1) = true →
        decide (a.1 ≤ c.1) = true := by
      intro a b c
      simpa using Nat.le_trans
    have total : ∀ a b : Nat × Nat, (decide (a.1 ≤ b.1) || decide (b.1 ≤ a.1)) = true := by
      intro a b
      simpa using Nat.le_total a.1 b.1
    simpa using List.pairwise_mergeSort transitive total l

def sequenced (e : Entry τ) : Nat × Nat := (e.sequence,e.id)

/-- Draining takes the due entries of the list, in order, and leaves the others. -/
theorem Takes.drained {due : TimerKind τ → Prop} [DecidablePred due] {taken : List (Nat × Nat)}
    (takes : Takes q q' entries parked due taken) (sorted : entries.Pairwise (fun a b => a.sequence < b.sequence))
    (rest : ∀ e ∈ without (taken.map Prod.fst) entries, ¬ due e.kind) :
    sortBySequence taken = (entries.filter (fun e => due e.kind)).map sequenced ∧
      without (taken.map Prod.fst) entries = entries.filter (fun e => ¬ due e.kind) := by
  have exactly : ∀ e ∈ entries, e.sequence ∈ taken.map Prod.fst ↔ due e.kind := by
    intro e member
    constructor
    · intro inside
      obtain ⟨pair,inTaken,same⟩ := List.mem_map.mp inside
      obtain ⟨kind,there,isDue⟩ := takes.members pair inTaken
      have := sequence_injective sorted there member same
      rwa [← this]
    · intro isDue
      by_contra outside
      exact rest e (mem_without.mpr ⟨member,outside⟩) isDue
  refine ⟨?_,?_⟩
  · obtain ⟨perm,ordered⟩ := sortBySequence_spec taken
    have pairs : taken.Perm ((entries.filter (fun e => due e.kind)).map sequenced) := by
      have onceSorted : ((entries.filter (fun e => due e.kind)).map sequenced).Nodup := by
        apply List.pairwise_map.mpr
        apply (sorted.filter _).imp
        intro a b less same
        have := congrArg Prod.fst same
        simp only [sequenced] at this
        omega
      apply (List.perm_ext_iff_of_nodup (List.Nodup.of_map _ takes.once) onceSorted).mpr
      intro pair
      constructor
      · intro inTaken
        obtain ⟨kind,there,isDue⟩ := takes.members pair inTaken
        exact List.mem_map.mpr ⟨_,List.mem_filter.mpr ⟨there,by simpa using isDue⟩,rfl⟩
      · intro inside
        obtain ⟨e,member,rfl⟩ := List.mem_map.mp inside
        obtain ⟨member,isDue⟩ := List.mem_filter.mp member
        obtain ⟨pair,inTaken,same⟩ := List.mem_map.mp ((exactly e member).mpr (by simpa using isDue))
        obtain ⟨kind,there,_⟩ := takes.members pair inTaken
        have equal := sequence_injective sorted there member same
        have : pair = sequenced e := by rw [← equal]; rfl
        exact this ▸ inTaken
    apply List.Perm.eq_of_pairwise _ ordered _ (perm.trans pairs)
    · intro a b inA inB less greater
      obtain ⟨kindA,thereA,_⟩ := takes.members a (perm.mem_iff.mp inA)
      obtain ⟨e,member,rfl⟩ := List.mem_map.mp inB
      have equal := sequence_injective sorted thereA (List.mem_of_mem_filter member) (Nat.le_antisymm less greater)
      rw [← equal]; rfl
    · apply List.pairwise_map.mpr
      exact (sorted.filter _).imp fun less => Nat.le_of_lt less
  · apply List.filter_congr
    intro e member
    by_cases isDue : due e.kind
    · simp [(exactly e member).mpr isDue,isDue]
    · simp [mt (exactly e member).mp isDue,isDue]

/-- Dropping drained entries from both indexes. -/
theorem Stored.forgetAll (taken : List (Nat × Nat)) {q : TimerQueue τ} {before kept : List (Entry τ)}
    (stored : Stored q kept parked) (index : IdIndex q.idSequences before)
    (sorted : before.Pairwise (fun a b => a.sequence < b.sequence))
    (members : ∀ pair ∈ taken, ∃ kind, ⟨pair.1,pair.2,kind⟩ ∈ before) (once : (taken.map Prod.fst).Nodup)
    (unused : ∀ e ∈ kept, e.sequence ∉ taken.map Prod.fst) :
    ∃ q', TimerQueue.forgetAll taken q = .ok q' ∧ Stored q' kept parked ∧
      IdIndex q'.idSequences (without (taken.map Prod.fst) before) ∧ q'.nextSequence = q.nextSequence ∧
      ∀ s, s ∈ q'.locations ↔ s ∈ q.locations ∧ s ∉ taken.map Prod.fst := by
  induction taken generalizing q before with
  | nil => exact ⟨q,rfl,stored,by simpa using index,rfl,by simp⟩
  | cons pair taken ih =>
    obtain ⟨s,id⟩ := pair
    obtain ⟨kind,member⟩ := members (s,id) (by simp)
    rw [List.map_cons] at once unused
    obtain ⟨fresh,onceRest⟩ := List.nodup_cons.mp once
    obtain ⟨ids,unlinked,index₁⟩ := IdIndex.unlink (q := { q with locations := q.locations.erase s }) index sorted member
    have stored₁ : Stored { q with locations := q.locations.erase s, idSequences := ids } kept parked :=
      (stored.eraseLocation fun e inKept same => unused e inKept (by simp [same])).withIds ids
    obtain ⟨q',run,stored',index',next,domain⟩ := ih stored₁ index₁ (sorted.filter _) (by
        intro pair inRest
        obtain ⟨kind,there⟩ := members pair (List.mem_cons_of_mem _ inRest)
        refine ⟨kind,mem_without.mpr ⟨there,?_⟩⟩
        simp only [List.mem_singleton]
        intro same
        exact fresh (List.mem_map.mpr ⟨pair,inRest,same⟩))
      onceRest (fun e inKept inRest => unused e inKept (List.mem_cons_of_mem _ inRest))
    refine ⟨q',?_,stored',?_,next,?_⟩
    · simp only [TimerQueue.forgetAll,bind,Except.bind]
      rw [unlinked]
      exact run
    · rw [List.map_cons,← List.singleton_append,without_append]; exact index'
    · intro t
      rw [domain t]
      simp only [List.map_cons,List.mem_cons,not_or,Std.HashMap.mem_erase]
      constructor
      · rintro ⟨⟨differ,there⟩,outside⟩
        exact ⟨there,fun same => by simp [same] at differ,outside⟩
      · rintro ⟨there,differ,outside⟩
        exact ⟨⟨by simpa using Ne.symm differ,there⟩,outside⟩

/-- The locations are as many as the entries. -/
theorem Represents.len (represents : Represents q entries parked) : q.len = entries.length := by
  have perm : q.locations.keys.Perm (entries.map (·.sequence)) := by
    apply (List.perm_ext_iff_of_nodup q.locations.nodup_keys ?_).mpr
    · intro s
      rw [Std.HashMap.mem_keys]
      constructor
      · intro there
        obtain ⟨e,member,same⟩ := represents.known s there
        exact List.mem_map.mpr ⟨e,member,same⟩
      · intro inside
        obtain ⟨e,member,rfl⟩ := List.mem_map.mp inside
        rw [Std.HashMap.mem_iff_isSome_getElem?]
        cases represents.stored.located e member with
        | deadline _ _ location => simp [location]
        | frame _ _ location => simp [location]
        | ready location => simp [location]
    · apply List.pairwise_map.mpr
      exact represents.stored.sorted.imp Nat.ne_of_lt
  rw [TimerQueue.len,← Std.HashMap.length_keys,perm.length_eq,List.length_map]

theorem Represents.finishDrain {due : TimerKind τ → Bool} {taken : List (Nat × Nat)}
    (represents : Represents q entries parked)
    (takes : Takes q q' entries (fun kind => due kind = true) (fun kind => due kind = true) taken)
    (rest : ∀ e ∈ without (taken.map Prod.fst) entries, ¬ due e.kind = true) :
    ∃ final, q'.finishDrain (sortBySequence taken) q.locations.size =
        .ok (final,(entries.filter (fun e => due e.kind)).map (·.id)) ∧
      Represents final (entries.filter (fun e => !due e.kind)) (fun kind => due kind = true) ∧
      final.nextSequence = q.nextSequence := by
  obtain ⟨order,kept⟩ := takes.drained represents.stored.sorted rest
  obtain ⟨perm,_⟩ := sortBySequence_spec taken
  have ids : (sortBySequence taken).map Prod.snd = (entries.filter (fun e => due e.kind)).map (·.id) := by
    rw [order,List.map_map]
    simp [sequenced,Function.comp_def]
  have remaining : without (taken.map Prod.fst) entries = entries.filter (fun e => !due e.kind) := by
    rw [kept]
    apply List.filter_congr
    intro e _
    cases due e.kind <;> simp
  have size : q.locations.size = entries.length := represents.len
  by_cases everything : (sortBySequence taken).length = q.locations.size
  · -- nothing is left, so the cleared indexes are right
    have empty : entries.filter (fun e => !due e.kind) = [] := by
      rw [order,List.length_map,size] at everything
      have all := List.length_filter_eq_length_iff.mp everything
      apply List.filter_eq_nil_iff.mpr
      intro e member
      simpa using all e member
    have stored := takes.stored
    rw [remaining,empty] at stored
    refine ⟨{ q' with locations := ∅, idSequences := ∅ },?_,?_,takes.frame.next⟩
    · simp only [TimerQueue.finishDrain,if_pos everything,ids]; rfl
    · rw [empty]
      refine ⟨⟨.nil,by simp,by simp,?_,stored.ordered,stored.targets,stored.deadline,?_,?_⟩,by simp,?_⟩
      · intro i x found
        exact absurd (stored.deadline x (mem_heap.mpr ⟨i,found⟩)) (by simp)
      · intro target bucket found s id there
        exact absurd (stored.frame target bucket found s id there).1 (by simp)
      · intro s id there
        obtain ⟨_,kind,member,_⟩ := stored.ready s id there
        exact absurd member (by simp)
      · intro id
        rw [Std.HashMap.getElem?_empty]
        rintro s ⟨e,member,_⟩
        exact absurd member (by simp)
  · have sequences : ∀ s, s ∈ (sortBySequence taken).map Prod.fst ↔ s ∈ taken.map Prod.fst :=
      fun s => (perm.map _).mem_iff
    have index : IdIndex q'.idSequences entries := takes.frame.ids ▸ represents.index
    obtain ⟨final,forgotten,stored,index',next,domain⟩ := takes.stored.forgetAll (sortBySequence taken) index
      represents.stored.sorted (by
        intro pair inside
        obtain ⟨kind,there,_⟩ := takes.members pair (perm.mem_iff.mp inside)
        exact ⟨kind,there⟩)
      ((perm.map _).nodup_iff.mpr takes.once)
      (by
        intro e member inside
        exact (mem_without.mp member).2 ((sequences _).mp inside))
    have same : without ((sortBySequence taken).map Prod.fst) entries = without (taken.map Prod.fst) entries := by
      apply List.filter_congr
      intro e _
      simp only [List.contains_eq_mem,sequences]
    rw [same,remaining] at index'
    rw [remaining] at stored
    refine ⟨final,?_,⟨stored,?_,index'⟩,next.trans takes.frame.next⟩
    · simp only [TimerQueue.finishDrain,if_neg everything,forgotten,ids,bind,Except.bind]; rfl
    · intro s there
      obtain ⟨there,outside⟩ := (domain s).mp there
      have outside : s ∉ taken.map Prod.fst := fun inside => outside ((sequences s).mpr inside)
      obtain ⟨e,member,rfl⟩ := represents.known s ((takes.frame.locations s outside).mp there)
      exact ⟨e,remaining ▸ mem_without.mpr ⟨member,outside⟩,rfl⟩

/-- What storage still holds after both takes is not due. -/
theorem Stored.not_due (stored : Stored q entries parked) {now : τ} {frame : Nat}
    (later : ∀ x ∈ q.deadlineHeap.toList, now < x.target)
    (future : ∀ (t : Nat) (b : Std.TreeMap Nat Nat), q.frameBuckets[t]? = some b → frame < t) {e : Entry τ}
    (member : e ∈ entries) (unparked : q.ready[e.sequence]? = none) : isDue now frame e.kind = false := by
  cases stored.located e member with
  | deadline i target location kind there =>
    have := later _ (mem_heap.mpr ⟨i,there⟩)
    simpa [kind,isDue] using this
  | frame target bucket location kind found there =>
    have := future target bucket found
    simpa [kind,isDue] using this
  | ready location there =>
    rw [unparked] at there; cases there

theorem Represents.due (represents : Represents q entries parked) (now : τ) (frame : Nat)
    (monotone : ∀ kind, parked kind → isDue now frame kind = true) :
    ∃ q', q.due now frame = .ok (q',(entries.filter (fun e => isDue now frame e.kind)).map (·.id)) ∧
      Represents q' (entries.filter (fun e => !isDue now frame e.kind)) (fun kind => isDue now frame kind = true) ∧
      q'.nextSequence = q.nextSequence := by
  have ready := (represents.stored.mono monotone).takeReady
  obtain ⟨q₁,deadlines,run₁,takes₁,later,_,ready₁⟩ := ready.stored.takeDueDeadlines now
    (fun kind => isDue now frame kind = true) (by simp [isDue])
  obtain ⟨q₂,frames,run₂,takes₂,future,heap₂,ready₂⟩ := takes₁.stored.takeDueFrames frame
    (fun kind => isDue now frame kind = true) (by simp [isDue])
  have takes := (ready.trans takes₁).trans (by rw [List.map_append,without_append]; exact takes₂)
  have rest : ∀ e ∈ without ((q.ready.toList ++ deadlines.map pairOf ++ frames).map Prod.fst) entries,
      ¬ isDue now frame e.kind = true := by
    intro e member
    have unparked : q₂.ready[e.sequence]? = none := by rw [ready₂,ready₁]; simp
    rw [takes.stored.not_due (heap₂ ▸ later) future member unparked]
    simp
  have run : q.due now frame =
      q₂.finishDrain (sortBySequence (q.ready.toList ++ deadlines.map pairOf ++ frames)) q.locations.size := by
    simp only [TimerQueue.due,run₁,bind,Except.bind,run₂]
    rfl
  obtain ⟨q',finished,represents',next⟩ := represents.finishDrain takes rest
  exact ⟨q',run.trans finished,represents',next⟩

/-- Taken entries go back to the ready map, and the list is as before. -/
theorem Stored.parkAll (taken : List (Nat × Nat)) {q : TimerQueue τ}
    (stored : Stored q (without (taken.map Prod.fst) entries) parked)
    (sorted : entries.Pairwise (fun a b => a.sequence < b.sequence)) (bound : ∀ e ∈ entries, e.sequence < q.nextSequence)
    (once : (taken.map Prod.fst).Nodup) (members : ∀ pair ∈ taken, ∃ kind, ⟨pair.1,pair.2,kind⟩ ∈ entries ∧ parked kind) :
    Stored (taken.foldl (fun q pair => q.park pair.1 pair.2) q) entries parked := by
  induction taken generalizing q with
  | nil => simpa using stored
  | cons pair taken ih =>
    obtain ⟨kind,member,isParked⟩ := members pair (by simp)
    rw [List.map_cons] at once stored
    obtain ⟨fresh,onceRest⟩ := List.nodup_cons.mp once
    have stored₁ := Stored.park ⟨pair.1,pair.2,kind⟩ (taken.map Prod.fst) stored sorted member (bound _ member) isParked fresh
    exact ih stored₁ bound onceRest (fun pair inRest => members pair (List.mem_cons_of_mem _ inRest))

/-- What parking leaves alone. -/
theorem parkAll_frame (taken : List (Nat × Nat)) (q : TimerQueue τ) :
    (taken.foldl (fun q pair => q.park pair.1 pair.2) q).deadlineHeap = q.deadlineHeap ∧
      (taken.foldl (fun q pair => q.park pair.1 pair.2) q).frameBuckets = q.frameBuckets ∧
      (taken.foldl (fun q pair => q.park pair.1 pair.2) q).idSequences = q.idSequences ∧
      (taken.foldl (fun q pair => q.park pair.1 pair.2) q).nextSequence = q.nextSequence ∧
      ∀ s, s ∈ (taken.foldl (fun q pair => q.park pair.1 pair.2) q).locations ↔
        s ∈ taken.map Prod.fst ∨ s ∈ q.locations := by
  induction taken generalizing q with
  | nil => simp
  | cons pair taken ih =>
    obtain ⟨heap,buckets,ids,next,domain⟩ := ih (q.park pair.1 pair.2)
    refine ⟨heap,buckets,ids,next,?_⟩
    intro s
    rw [List.foldl_cons,domain s]
    simp only [park,Std.HashMap.mem_insert,beq_iff_eq,List.map_cons,List.mem_cons]
    rw [eq_comm]
    tauto

theorem Takes.parkAll {taken : List (Nat × Nat)} (takes : Takes q q' entries parked parked taken)
    (represents : Represents q entries parked) :
    Represents (taken.foldl (fun q pair => q.park pair.1 pair.2) q') entries parked := by
  obtain ⟨_,_,ids,next,domain⟩ := parkAll_frame taken q'
  refine ⟨takes.stored.parkAll taken represents.stored.sorted ?_ takes.once takes.members,?_,?_⟩
  · intro e member
    rw [takes.frame.next]; exact represents.stored.bound e member
  · intro s there
    by_cases inside : s ∈ taken.map Prod.fst
    · obtain ⟨pair,inTaken,rfl⟩ := List.mem_map.mp inside
      obtain ⟨kind,member,_⟩ := takes.members pair inTaken
      exact ⟨_,member,rfl⟩
    · have there := ((domain s).mp there).resolve_left inside
      exact represents.known s ((takes.frame.locations s inside).mp there)
  · rw [ids,takes.frame.ids]; exact represents.index

theorem Represents.popReady (limit : Nat) {q : TimerQueue τ} {entries : List (Entry τ)} {due : TimerKind τ → Bool}
    (represents : Represents q entries (fun kind => due kind = true))
    (ready : ∀ e ∈ entries, due e.kind = true → q.ready[e.sequence]? = some e.id) (before : List Nat) :
    ∃ q' kept, TimerQueue.popReady limit q before =
        .ok (q',before ++ (LinearTimerQueue.drain due limit (linear entries)).1) ∧
      Represents q' kept (fun kind => due kind = true) ∧
      linear kept = (LinearTimerQueue.drain due limit (linear entries)).2 ∧ q'.nextSequence = q.nextSequence := by
  induction limit generalizing q entries before with
  | zero => exact ⟨q,entries,by simp [TimerQueue.popReady,LinearTimerQueue.drain,pure,Except.pure],represents,
    by simp [LinearTimerQueue.drain],rfl⟩
  | succ limit ih =>
    rw [TimerQueue.popReady]
    cases first : q.ready.minKey? with
    | none =>
      have empty : q.ready.isEmpty := Std.TreeMap.minKey?_eq_none_iff.mp first
      have waiting : ∀ x ∈ linear entries, due x.2 = false := by
        intro x inside
        obtain ⟨e,member,rfl⟩ := List.mem_map.mp inside
        by_contra isDue
        have := ready e member (by simpa using isDue)
        rw [Std.TreeMap.getElem?_of_isEmpty empty] at this
        cases this
      have skipped := drain_skip due (limit + 1) (linear entries) [] waiting
      rw [List.append_nil] at skipped
      have popped : popFirst q.ready = none := by simp [popFirst,first]
      rw [popped,skipped]
      exact ⟨q,entries,by simp [LinearTimerQueue.drain,pure,Except.pure],represents,by simp [LinearTimerQueue.drain],rfl⟩
    | some s =>
      obtain ⟨id,parkedHere,popped⟩ := popFirst_some first
      obtain ⟨_,kind,member,isDue⟩ := represents.stored.ready s id parkedHere
      obtain ⟨early,late,split⟩ := List.append_of_mem member
      have sorted := represents.stored.sorted
      rw [split] at sorted
      obtain ⟨_,laterSorted,earlier⟩ := List.pairwise_append.mp sorted
      have less : ∀ e ∈ early, e.sequence < s := fun e inEarly => earlier e inEarly ⟨s,id,kind⟩ (by simp)
      have more : ∀ e ∈ late, s < e.sequence := fun e inLate => (List.pairwise_cons.mp laterSorted).1 e inLate
      have rest : without [s] entries = early ++ late := by
        rw [split,without,List.filter_append,List.filter_cons_of_neg (by simp),
          List.filter_eq_self.mpr (fun e inEarly => by simpa using Nat.ne_of_lt (less e inEarly)),
          List.filter_eq_self.mpr (fun e inLate => by simpa using Nat.ne_of_gt (more e inLate))]
      -- an earlier due entry would be parked under a smaller sequence
      have waiting : ∀ x ∈ linear early, due x.2 = false := by
        intro x inside
        obtain ⟨e,inEarly,rfl⟩ := List.mem_map.mp inside
        by_contra dueE
        have there := ready e (by rw [split]; exact List.mem_append_left _ inEarly) (by simpa using dueE)
        have := minKey?_le first there
        have := less e inEarly
        omega
      have unused : ∀ e ∈ without [s] entries, e.sequence ≠ s := by
        intro e inside
        simpa using (mem_without.mp inside).2
      obtain ⟨ids,unlinked,index⟩ := IdIndex.unlink (q := { q with ready := q.ready.erase s, locations := q.locations.erase s })
        represents.index represents.stored.sorted member
      have represents₁ : Represents { q with ready := q.ready.erase s, locations := q.locations.erase s, idSequences := ids }
          (without [s] entries) (fun kind => due kind = true) := by
        refine ⟨((represents.stored.unpark parkedHere).eraseLocation unused).withIds ids,?_,index⟩
        intro t there
        obtain ⟨differ,there⟩ := Std.HashMap.mem_erase.mp there
        obtain ⟨e,inside,rfl⟩ := represents.known t there
        refine ⟨e,mem_without.mpr ⟨inside,?_⟩,rfl⟩
        simp only [List.mem_singleton]
        intro same
        simp [same] at differ
      obtain ⟨q',kept,run,represents',drained,next⟩ := ih represents₁ (by
        intro e inside dueE
        obtain ⟨inside,outside⟩ := mem_without.mp inside
        have differ : s ≠ e.sequence := fun same => outside (by simp [same])
        simpa [Std.TreeMap.getElem?_erase,differ] using ready e inside dueE) (before ++ [id])
      have whole : LinearTimerQueue.drain due (limit + 1) (linear entries) =
          (id :: (LinearTimerQueue.drain due limit (linear late)).1,
            linear early ++ (LinearTimerQueue.drain due limit (linear late)).2) := by
        have parts : linear entries = linear early ++ (id,kind) :: linear late := by rw [split]; simp [linear]
        rw [parts,drain_skip due _ _ _ waiting,LinearTimerQueue.drain,if_pos isDue]
      have part : LinearTimerQueue.drain due limit (linear (without [s] entries)) =
          ((LinearTimerQueue.drain due limit (linear late)).1,
            linear early ++ (LinearTimerQueue.drain due limit (linear late)).2) := by
        have parts : linear (early ++ late) = linear early ++ linear late := by simp [linear]
        rw [rest,parts,drain_skip due _ _ _ waiting]
      refine ⟨q',kept,?_,represents',?_,next⟩
      · rw [popped,whole]
        simp only [bind,Except.bind]
        rw [unlinked]
        simpa [part] using run
      · rw [drained,whole,part]

theorem Represents.dueLimited (represents : Represents q entries parked) (now : τ) (frame limit : Nat)
    (monotone : ∀ kind, parked kind → isDue now frame kind = true) :
    ∃ q' kept, q.dueLimited now frame limit =
        .ok (q',(LinearTimerQueue.drain (isDue now frame) limit (linear entries)).1) ∧
      Represents q' kept (fun kind => isDue now frame kind = true) ∧
      linear kept = (LinearTimerQueue.drain (isDue now frame) limit (linear entries)).2 ∧
      q'.nextSequence = q.nextSequence := by
  have represents₀ : Represents q entries (fun kind => isDue now frame kind = true) :=
    ⟨represents.stored.mono monotone,represents.known,represents.index⟩
  by_cases none : limit = 0
  · subst none
    exact ⟨q,entries,by simp [TimerQueue.dueLimited,LinearTimerQueue.drain,pure,Except.pure],represents₀,
      by simp [LinearTimerQueue.drain],rfl⟩
  · obtain ⟨q₁,deadlines,run₁,takes₁,later,_,_⟩ := represents₀.stored.takeDueDeadlines now
      (fun kind => isDue now frame kind = true) (by simp [isDue])
    have represents₁ := takes₁.parkAll represents₀
    obtain ⟨heap₁,_,_,next₁,_⟩ := parkAll_frame (deadlines.map pairOf) q₁
    obtain ⟨q₂,frames,run₂,takes₂,future,heap₂,_⟩ := represents₁.stored.takeDueFrames frame
      (fun kind => isDue now frame kind = true) (by simp [isDue])
    have represents₂ := takes₂.parkAll represents₁
    obtain ⟨heap₃,buckets₃,_,next₃,_⟩ := parkAll_frame frames q₂
    have ready : ∀ e ∈ entries, isDue now frame e.kind = true →
        (frames.foldl (fun q pair => q.park pair.1 pair.2) q₂).ready[e.sequence]? = some e.id := by
      intro e member isDueE
      cases found : (frames.foldl (fun q pair => q.park pair.1 pair.2) q₂).ready[e.sequence]? with
      | none =>
        have notDue : isDue now frame e.kind = false := represents₂.stored.not_due
          (by rw [heap₃,heap₂,heap₁]; exact later) (by rw [buckets₃]; exact future) member found
        rw [isDueE] at notDue; cases notDue
      | some id =>
        obtain ⟨_,kind,there,_⟩ := represents₂.stored.ready _ _ found
        have equal := sequence_injective represents₂.stored.sorted there member rfl
        rw [← equal]
    obtain ⟨q',kept,popped,represents',drained,next⟩ := represents₂.popReady limit ready []
    refine ⟨q',kept,?_,represents',drained,?_⟩
    · have folded : deadlines.foldl (fun q entry => q.park entry.sequence entry.id) q₁ =
          (deadlines.map pairOf).foldl (fun q pair => q.park pair.1 pair.2) q₁ := by
        rw [List.foldl_map]; rfl
      simp only [TimerQueue.dueLimited,if_neg none,run₁,bind,Except.bind,folded,run₂]
      simpa using popped
    · rw [next,next₃,takes₂.frame.next,next₁,takes₁.frame.next]

/-- The clock an operation reads, when it reads one. -/
def Op.clock : Op τ → Option (τ × Nat)
  | .due now frame => some (now,frame)
  | .dueLimited now frame _ => some (now,frame)
  | _ => none

def Op.isPush : Op τ → Bool
  | .push _ _ => true
  | _ => false

/-- Clocks in order: neither the instant nor the frame goes back. -/
def NoEarlier (a b : τ × Nat) : Prop := a.1 ≤ b.1 ∧ a.2 ≤ b.2

theorem isDue_mono {a b : τ × Nat} (order : NoEarlier a b) (kind : TimerKind τ) (isDueA : isDue a.1 a.2 kind = true) :
    isDue b.1 b.2 kind = true := by
  cases kind with
  | deadline target => simp only [isDue,decide_eq_true_eq] at isDueA ⊢; exact isDueA.trans order.1
  | frame target => simp only [isDue,decide_eq_true_eq] at isDueA ⊢; exact isDueA.trans order.2

/-- One operation on both queues. -/
theorem Represents.perform (represents : Represents q entries parked) (op : Op τ)
    (monotone : ∀ clock, op.clock = some clock → ∀ kind, parked kind → isDue clock.1 clock.2 kind = true) :
    (∃ q' entries' parked', q.perform op = .ok (q',(LinearTimerQueue.perform (linear entries) op).2) ∧
      Represents q' entries' parked' ∧ linear entries' = (LinearTimerQueue.perform (linear entries) op).1 ∧
      q'.nextSequence = q.nextSequence + (if op.isPush then 1 else 0) ∧
      ∀ kind, parked' kind → parked kind ∨ ∃ clock, op.clock = some clock ∧ isDue clock.1 clock.2 kind = true) ∨
    (q.perform op = .error .sequenceExhausted ∧ op.isPush = true ∧ 2 ^ 64 ≤ q.nextSequence + 1) := by
  cases op with
  | push id kind =>
    by_cases room : q.nextSequence + 1 < 2 ^ 64
    · obtain ⟨q',run,represents',next⟩ := represents.push id kind room
      refine .inl ⟨q',_,parked,?_,represents',by simp [linear,LinearTimerQueue.perform],next,fun _ => .inl⟩
      simp [TimerQueue.perform,run,bind,Except.bind,pure,Except.pure,LinearTimerQueue.perform]
    · refine .inr ⟨?_,rfl,by omega⟩
      simp only [TimerQueue.perform,TimerQueue.push,if_neg room]
      rfl
  | remove id =>
    obtain ⟨q',run,represents',next⟩ := represents.remove id
    refine .inl ⟨q',_,parked,?_,represents',?_,next,fun _ => .inl⟩
    · simp [TimerQueue.perform,run,bind,Except.bind,pure,Except.pure,LinearTimerQueue.perform,linear,Function.comp_def]
    · rw [LinearTimerQueue.perform,linear,linear,List.filter_map]; rfl
  | due now frame =>
    obtain ⟨q',run,represents',next⟩ := represents.due now frame (monotone (now,frame) rfl)
    refine .inl ⟨q',_,_,?_,represents',linear_filter entries (fun kind => !isDue now frame kind),next,
      fun kind isDueK => .inr ⟨(now,frame),rfl,isDueK⟩⟩
    have ids : (entries.filter (fun e => isDue now frame e.kind)).map (·.id) =
        ((linear entries).filter (fun x => isDue now frame x.2)).map Prod.fst := by
      rw [← linear_filter,linear,List.map_map]; rfl
    simp [TimerQueue.perform,run,bind,Except.bind,pure,Except.pure,LinearTimerQueue.perform,ids]
  | dueLimited now frame limit =>
    obtain ⟨q',kept,run,represents',drained,next⟩ := represents.dueLimited now frame limit (monotone (now,frame) rfl)
    refine .inl ⟨q',kept,_,?_,represents',drained,next,fun kind isDueK => .inr ⟨(now,frame),rfl,isDueK⟩⟩
    simp [TimerQueue.perform,run,bind,Except.bind,pure,Except.pure,LinearTimerQueue.perform,drain_ids]

theorem Represents.execute (ops : List (Op τ)) {q : TimerQueue τ} {entries : List (Entry τ)}
    {parked : TimerKind τ → Prop} (represents : Represents q entries parked)
    (monotone : (ops.filterMap Op.clock).Pairwise NoEarlier)
    (past : ∀ clock ∈ ops.filterMap Op.clock, ∀ kind, parked kind → isDue clock.1 clock.2 kind = true) :
    (∃ q', TimerQueue.execute ops q = .ok (q',(LinearTimerQueue.execute ops (linear entries)).2) ∧
      q'.len = (LinearTimerQueue.execute ops (linear entries)).1.length) ∨
    (TimerQueue.execute ops q = .error .sequenceExhausted ∧ 2 ^ 64 ≤ q.nextSequence + ops.countP Op.isPush) := by
  induction ops generalizing q entries parked with
  | nil => exact .inl ⟨q,rfl,by rw [represents.len]; simp [LinearTimerQueue.execute,linear]⟩
  | cons op ops ih =>
    have here : ∀ clock, op.clock = some clock → clock ∈ (op :: ops).filterMap Op.clock :=
      fun clock some => List.mem_filterMap.mpr ⟨op,by simp,some⟩
    have rest : ∀ clock ∈ ops.filterMap Op.clock, clock ∈ (op :: ops).filterMap Op.clock := by
      intro clock member
      obtain ⟨later,inOps,some⟩ := List.mem_filterMap.mp member
      exact List.mem_filterMap.mpr ⟨later,List.mem_cons_of_mem _ inOps,some⟩
    rcases represents.perform op fun clock some => past clock (here clock some) with
      ⟨q₁,entries₁,parked₁,run,represents₁,list,next,grows⟩ | ⟨exhausted,isPush,full⟩
    · have monotone₁ : (ops.filterMap Op.clock).Pairwise NoEarlier :=
        monotone.sublist ((List.sublist_cons_self op ops).filterMap _)
      have past₁ : ∀ clock ∈ ops.filterMap Op.clock, ∀ kind, parked₁ kind → isDue clock.1 clock.2 kind = true := by
        intro clock member kind parkedK
        rcases grows kind parkedK with parkedK | ⟨earlier,some,isDueK⟩
        · exact past clock (rest clock member) kind parkedK
        · rw [List.filterMap_cons_some some] at monotone
          exact isDue_mono (List.rel_of_pairwise_cons monotone member) kind isDueK
      rcases ih represents₁ monotone₁ past₁ with ⟨q',run',len⟩ | ⟨exhausted,full⟩
      · rw [list] at run' len
        refine .inl ⟨q',?_,len⟩
        simp [TimerQueue.execute,run,run',bind,Except.bind,pure,Except.pure,LinearTimerQueue.execute]
      · refine .inr ⟨by simp [TimerQueue.execute,run,exhausted,bind,Except.bind],?_⟩
        rw [List.countP_cons]
        omega
    · refine .inr ⟨by simp [TimerQueue.execute,exhausted,bind,Except.bind],?_⟩
      rw [List.countP_cons,if_pos isPush]
      omega

/-- Every run whose clocks never go back answers as the linear queue does and is as long. The
only panic left is the insertion sequence itself, after `2 ^ 64` insertions. -/
theorem refines_linear_queue (ops : List (Op τ)) (monotone : (ops.filterMap Op.clock).Pairwise NoEarlier) :
    (∃ q, execute ops new = .ok (q,(LinearTimerQueue.execute ops []).2) ∧
      q.len = (LinearTimerQueue.execute ops []).1.length) ∨
    (execute ops new = .error .sequenceExhausted ∧ 2 ^ 64 ≤ ops.countP Op.isPush) := by
  have empty : Represents (new : TimerQueue τ) [] (fun _ => False) := by
    refine ⟨⟨.nil,by simp,by simp,?_,?_,?_,by simp [new],by simp [new],by simp [new]⟩,by simp [new],?_⟩
    · intro i x found
      simp [new,deadlines] at found
    · intro j _ a b ha
      simp [new] at ha
    · simp [new,tally]
    · intro id
      simp [new,Indexes,Carries]
  have result := empty.execute ops monotone (by simp)
  simpa [new,linear] using result

/-- A repeated id, a parked entry cancelled, and a bounded drain before a full one. -/
theorem refines_linear_queue_parked :
    let ops : List (Op Nat) := [.push 7 (.deadline 5),.push 7 (.frame 2),.push 8 (.deadline 3),
      .dueLimited 5 2 1,.remove 7,.due 6 2]
    (ops.filterMap Op.clock).Pairwise NoEarlier ∧
      ∃ q, execute ops new = .ok (q,[.pushed,.pushed,.pushed,.ids [7],.removed true,.ids [8]]) ∧ q.len = 0 := by
  intro ops
  have clocks : ops.filterMap Op.clock = [(5,2),(6,2)] := rfl
  have monotone : (ops.filterMap Op.clock).Pairwise NoEarlier := by
    rw [clocks]; simp [NoEarlier]
  rcases refines_linear_queue ops monotone with answered | ⟨_,full⟩
  · exact ⟨monotone,answered⟩
  · exact absurd full (by decide)

end S2Script.TimerQueue
