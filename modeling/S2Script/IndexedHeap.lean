import Mathlib

/-! A binary min-heap in an array whose items are found through a map from their key to
their place. The map may hold other keys too; the heap leaves those alone. -/
namespace S2Script.IndexedHeap

structure Indexed (α κ β : Type) [BEq κ] [Hashable κ] where
  heap : Array α
  places : Std.HashMap κ β

def parent (i : Nat) : Nat := (i - 1) / 2

section Operations

variable {α κ β ρ : Type} [BEq κ] [Hashable κ] [LinearOrder ρ]
variable (rank : α → ρ) (key : α → κ) (place : Nat → β)

/-- Exchange two items and record both places. No result is an index out of bounds. -/
def Indexed.swap (h : Indexed α κ β) (a b : Nat) : Option (Indexed α κ β) :=
  if inside : a < h.heap.size ∧ b < h.heap.size then
    some ⟨h.heap.swap a b inside.1 inside.2,
      (h.places.insert (key h.heap[b]) (place a)).insert (key h.heap[a]) (place b)⟩
  else none

theorem Indexed.swap_size {h h' : Indexed α κ β} {a b : Nat} (swapped : h.swap key place a b = some h') :
    h'.heap.size = h.heap.size := by
  rw [swap] at swapped
  split at swapped
  · cases swapped; simp
  · cases swapped

def Indexed.siftUp (h : Indexed α κ β) (i : Nat) : Option (Indexed α κ β) :=
  if i = 0 then some h
  else match h.heap[i]?, h.heap[parent i]? with
    | some x, some p =>
      if rank x < rank p then
        match h.swap key place i (parent i) with
        | some h' => h'.siftUp (parent i)
        | none => none
      else some h
    | _, _ => none
termination_by i
decreasing_by unfold parent; omega

/-- The right child if it is there and comes first, else the left. -/
def Indexed.child (h : Indexed α κ β) (i : Nat) : Nat :=
  match h.heap[2 * i + 2]?, h.heap[2 * i + 1]? with
  | some right, some left => if rank right < rank left then 2 * i + 2 else 2 * i + 1
  | _, _ => 2 * i + 1

theorem Indexed.child_gt (h : Indexed α κ β) (i : Nat) : i < h.child rank i := by
  rw [child]
  split
  · split <;> omega
  · omega

def Indexed.siftDown (h : Indexed α κ β) (i : Nat) : Option (Indexed α κ β) :=
  if 2 * i + 1 < h.heap.size then
    match h.heap[h.child rank i]?, h.heap[i]? with
    | some c, some x =>
      if rank c < rank x then
        match _swapped : h.swap key place i (h.child rank i) with
        | some h' => h'.siftDown (h.child rank i)
        | none => none
      else some h
    | _, _ => none
  else some h
termination_by h.heap.size - i
decreasing_by
  have := Indexed.swap_size key place _swapped
  have := h.child_gt rank i
  omega

/-- Swap `i` with the last item, pop the array's end and forget the removed key. -/
def Indexed.detach (h : Indexed α κ β) (i : Nat) : Option (Indexed α κ β × α) :=
  if inside : i < h.heap.size then
    let swapped : Indexed α κ β := if i = h.heap.size - 1 then h else
      ⟨h.heap.swap i (h.heap.size - 1),h.places.insert (key h.heap[h.heap.size - 1]) (place i)⟩
    match swapped.heap.back? with
    | some removed => some (⟨swapped.heap.pop,swapped.places.erase (key removed)⟩,removed)
    | none => none
  else none

/-- Restore the order at `i` after `detach`, in whichever direction it is broken. -/
def Indexed.settle (h : Indexed α κ β) (i : Nat) : Option (Indexed α κ β) :=
  if i < h.heap.size then
    if i = 0 then h.siftDown rank key place i
    else match h.heap[i]?, h.heap[parent i]? with
      | some x, some p => if rank x < rank p then h.siftUp rank key place i else h.siftDown rank key place i
      | _, _ => none
  else some h

theorem Indexed.siftUp_size (i : Nat) {h h' : Indexed α κ β} (sifted : h.siftUp rank key place i = some h') :
    h'.heap.size = h.heap.size := by
  induction i using Nat.strongRecOn generalizing h with
  | ind i ih =>
    rw [siftUp] at sifted
    split at sifted
    · cases sifted; rfl
    next zero =>
      have lower : parent i < i := by unfold parent; omega
      split at sifted
      · split at sifted
        · split at sifted
          next h₁ swapped => exact (ih _ lower sifted).trans (swap_size key place swapped)
          next => cases sifted
        · cases sifted; rfl
      · cases sifted

theorem Indexed.siftDown_size (n i : Nat) {h h' : Indexed α κ β} (distance : h.heap.size - i ≤ n)
    (sifted : h.siftDown rank key place i = some h') : h'.heap.size = h.heap.size := by
  induction n generalizing h i with
  | zero =>
    rw [siftDown,if_neg (by omega)] at sifted
    cases sifted; rfl
  | succ n ih =>
    rw [siftDown] at sifted
    split at sifted
    next inside =>
      split at sifted
      · split at sifted
        · split at sifted
          next h₁ swapped =>
            have size := swap_size key place swapped
            have deeper := h.child_gt rank i
            exact (ih _ (by omega) sifted).trans size
          next => cases sifted
        · cases sifted; rfl
      · cases sifted
    · cases sifted; rfl

theorem Indexed.settle_size {h h' : Indexed α κ β} {i : Nat} (settled : h.settle rank key place i = some h') :
    h'.heap.size = h.heap.size := by
  rw [settle] at settled
  split at settled
  · split at settled
    · exact siftDown_size rank key place _ _ (Nat.le_refl _) settled
    · split at settled
      · split at settled
        · exact siftUp_size rank key place _ settled
        · exact siftDown_size rank key place _ _ (Nat.le_refl _) settled
      · cases settled
  · cases settled; rfl

theorem Indexed.detach_size {h h' : Indexed α κ β} {i : Nat} {x : α} (detached : h.detach key place i = some (h',x)) :
    h'.heap.size < h.heap.size := by
  rw [detach] at detached
  split at detached
  next inside =>
    simp only at detached
    split at detached
    · simp only [Option.some.injEq,Prod.mk.injEq] at detached
      rw [← detached.1]
      split <;> simp <;> omega
    · cases detached
  next => cases detached

end Operations

section Order

variable {α ρ : Type} [LinearOrder ρ] (rank : α → ρ)

/-- The item at `p`, where both are there, does not come after the one at `c`. -/
def Le (f : Nat → Option α) (p c : Nat) : Prop := ∀ x y, f p = some x → f c = some y → rank x ≤ rank y

def Ordered (f : Nat → Option α) : Prop := ∀ j, 0 < j → Le rank f (parent j) j

/-- Ordered except that the item at `i` may come before its parent. -/
structure Rising (f : Nat → Option α) (i : Nat) : Prop where
  others : ∀ j, 0 < j → j ≠ i → Le rank f (parent j) j
  grand : 0 < i → ∀ c, 0 < c → parent c = i → Le rank f (parent i) c

/-- Ordered except that the item at `i` may come after its children. -/
structure Sinking (f : Nat → Option α) (i : Nat) : Prop where
  others : ∀ j, 0 < j → parent j ≠ i → Le rank f (parent j) j
  grand : 0 < i → ∀ c, 0 < c → parent c = i → Le rank f (parent i) c

/-- Exchange of two positions. -/
def exchange (f : Nat → Option α) (a b : Nat) : Nat → Option α :=
  fun k => if k = a then f b else if k = b then f a else f k

variable {rank}

theorem Rising.move {f : Nat → Option α} {i : Nat} {x p : α} (rising : Rising rank f i) (positive : 0 < i)
    (here : f i = some x) (above : f (parent i) = some p) (earlier : rank x < rank p) :
    Rising rank (exchange f i (parent i)) (parent i) := by
  have lower : parent i < i := by unfold parent; omega
  constructor
  · intro j hj differ a b ha hb
    have below : parent j < j := by unfold parent; omega
    by_cases atI : j = i
    · subst j
      simp [exchange,here,above,Nat.ne_of_lt lower] at ha hb
      subst ha hb
      exact earlier.le
    · simp only [exchange,atI,differ,if_false] at hb
      by_cases pi : parent j = i
      · simp only [exchange,pi,if_true] at ha
        exact rising.grand positive j hj pi a b ha hb
      · by_cases pp : parent j = parent i
        · simp only [exchange,pp,Nat.ne_of_lt lower,if_false,if_true,here,Option.some.injEq] at ha
          subst ha
          have := rising.others j hj atI p b (pp ▸ above) hb
          exact (earlier.trans_le this).le
        · simp only [exchange,pi,pp,if_false] at ha
          exact rising.others j hj atI a b ha hb
  · intro higher c hc child a b ha hb
    have up : parent (parent i) < parent i := by simp only [parent] at higher ⊢; omega
    have down : parent c < c := by unfold parent; omega
    have notI : parent (parent i) ≠ i := by omega
    simp only [exchange,notI,Nat.ne_of_lt up,if_false] at ha
    have first := rising.others (parent i) higher (Nat.ne_of_lt lower) a p ha above
    by_cases atI : c = i
    · simp only [exchange,atI,if_true,above,Option.some.injEq] at hb
      exact hb ▸ first
    · have notP : c ≠ parent i := by omega
      simp only [exchange,atI,notP,if_false] at hb
      exact first.trans (rising.others c hc atI p b (child ▸ above) hb)

theorem Rising.finish {f : Nat → Option α} {i : Nat} (rising : Rising rank f i)
    (stop : 0 < i → Le rank f (parent i) i) : Ordered rank f := by
  intro j hj
  by_cases atI : j = i
  · exact atI ▸ stop (atI ▸ hj)
  · exact rising.others j hj atI

theorem Sinking.move {f : Nat → Option α} {i c : Nat} {x y : α} (sinking : Sinking rank f i) (positive : 0 < c)
    (child : parent c = i) (here : f i = some x) (below : f c = some y) (earlier : rank y < rank x)
    (least : ∀ d z, 0 < d → parent d = i → f d = some z → rank y ≤ rank z) :
    Sinking rank (exchange f i c) c := by
  have lower : i < c := by unfold parent at child; omega
  constructor
  · intro j hj differ a b ha hb
    have down : parent j < j := by unfold parent; omega
    by_cases onI : parent j = i
    · simp only [exchange,onI,if_true,below,Option.some.injEq] at ha
      subst ha
      by_cases atC : j = c
      · subst j
        simp only [exchange,Nat.ne_of_gt lower,if_false,if_true,here,Option.some.injEq] at hb
        exact hb ▸ earlier.le
      · have notI : j ≠ i := by omega
        simp only [exchange,notI,atC,if_false] at hb
        exact least j b hj onI hb
    · simp only [exchange,onI,differ,if_false] at ha
      by_cases atI : j = i
      · subst j
        simp only [exchange,if_true] at hb
        exact sinking.grand hj c positive child a b ha hb
      · have notC : j ≠ c := by
          rintro rfl
          exact onI child
        simp only [exchange,atI,notC,if_false] at hb
        exact sinking.others j hj onI a b ha hb
  · intro _ d hd grandchild a b ha hb
    have notI : d ≠ i := by unfold parent at grandchild; omega
    have notC : d ≠ c := by unfold parent at grandchild; omega
    simp only [exchange,child,if_true,notI,notC,if_false] at ha hb
    exact sinking.others d hd (by omega) a b (grandchild ▸ ha) hb

theorem Sinking.finish {f : Nat → Option α} {i : Nat} (sinking : Sinking rank f i)
    (stop : ∀ c, 0 < c → parent c = i → Le rank f i c) : Ordered rank f := by
  intro j hj
  by_cases onI : parent j = i
  · exact onI ▸ stop j hj onI
  · exact sinking.others j hj onI

/-- The root comes first. -/
theorem Ordered.root {f : Nat → Option α} (ordered : Ordered rank f) (closed : ∀ j, (f j).isSome → (f (parent j)).isSome)
    {i : Nat} {x y : α} (root : f 0 = some x) (there : f i = some y) : rank x ≤ rank y := by
  induction i using Nat.strongRecOn generalizing y with
  | ind i ih =>
    rcases Nat.eq_zero_or_pos i with rfl | positive
    · rw [root] at there
      cases there; exact le_refl _
    · obtain ⟨p,above⟩ := Option.isSome_iff_exists.mp (closed i (by simp [there]))
      have lower : parent i < i := by unfold parent; omega
      exact (ih (parent i) lower above).trans (ordered i positive p y above there)

end Order

section Places

variable {α κ β ρ : Type} [BEq κ] [Hashable κ] [LinearOrder ρ]
variable (rank : α → ρ) (key : α → κ) (place : Nat → β)

/-- Every item's key leads to its place. -/
def Placed (h : Indexed α κ β) : Prop :=
  ∀ (i : Nat) (x : α), h.heap[i]? = some x → h.places[key x]? = some (place i)

/-- The same items, placed, with every other key left alone. -/
structure Rearranges (h h' : Indexed α κ β) : Prop where
  perm : h'.heap.toList.Perm h.heap.toList
  placed : Placed key place h'
  frame : ∀ k, (∀ x ∈ h.heap.toList, key x ≠ k) → h'.places[k]? = h.places[k]?

variable {rank key place} {h h' : Indexed α κ β}

theorem Placed.injective (placed : Placed key place h) (injective : Function.Injective place) {i j : Nat} {x y : α}
    (atI : h.heap[i]? = some x) (atJ : h.heap[j]? = some y) (same : key x = key y) : i = j := by
  have first := placed i x atI
  have second := placed j y atJ
  rw [same,second] at first
  exact (injective (Option.some.inj first)).symm

theorem Rearranges.refl (placed : Placed key place h) : Rearranges key place h h :=
  ⟨.refl _,placed,fun _ _ => rfl⟩

theorem Rearranges.trans {h'' : Indexed α κ β} (first : Rearranges key place h h')
    (second : Rearranges key place h' h'') : Rearranges key place h h'' := by
  refine ⟨second.perm.trans first.perm,second.placed,?_⟩
  intro k other
  have other' : ∀ x ∈ h'.heap.toList, key x ≠ k := fun x member => other x (first.perm.mem_iff.mp member)
  exact (second.frame k other').trans (first.frame k other)

theorem Rearranges.size (moved : Rearranges key place h h') : h'.heap.size = h.heap.size := by
  have := moved.perm.length_eq
  simpa using this

/-- The chosen child is one, and no child comes before it. -/
theorem child_spec (rank : α → ρ) (h : Indexed α κ β) (i : Nat) (inside : 2 * i + 1 < h.heap.size) :
    ∃ y, h.heap[h.child rank i]? = some y ∧ parent (h.child rank i) = i ∧
      ∀ d z, 0 < d → parent d = i → h.heap[d]? = some z → rank y ≤ rank z := by
  have left := Array.getElem?_eq_getElem inside
  have sides : ∀ d, 0 < d → parent d = i → d = 2 * i + 1 ∨ d = 2 * i + 2 := by
    intro d positive child
    unfold parent at child; omega
  cases right : h.heap[2 * i + 2]? with
  | none =>
    have chosen : h.child rank i = 2 * i + 1 := by simp only [Indexed.child,left,right]
    refine ⟨h.heap[2 * i + 1],by rw [chosen,left],by rw [chosen,parent]; omega,?_⟩
    intro d z positive child found
    rcases sides d positive child with rfl | rfl
    · rw [left] at found; cases found; exact le_refl _
    · rw [right] at found; cases found
  | some r =>
    by_cases earlier : rank r < rank h.heap[2 * i + 1]
    · have chosen : h.child rank i = 2 * i + 2 := by simp only [Indexed.child,left,right,earlier,if_true]
      refine ⟨r,by rw [chosen,right],by rw [chosen,parent]; omega,?_⟩
      intro d z positive child found
      rcases sides d positive child with rfl | rfl
      · rw [left] at found; cases found; exact earlier.le
      · rw [right] at found; cases found; exact le_refl _
    · have chosen : h.child rank i = 2 * i + 1 := by simp only [Indexed.child,left,right,earlier,if_false]
      refine ⟨h.heap[2 * i + 1],by rw [chosen,left],by rw [chosen,parent]; omega,?_⟩
      intro d z positive child found
      rcases sides d positive child with rfl | rfl
      · rw [left] at found; cases found; exact le_refl _
      · rw [right] at found; cases found; exact not_lt.mp earlier

variable [LawfulBEq κ]

theorem swap_spec (placed : Placed key place h) (injective : Function.Injective place) {a b : Nat}
    (hereA : a < h.heap.size) (hereB : b < h.heap.size) (differ : a ≠ b) :
    ∃ h', h.swap key place a b = some h' ∧ Rearranges key place h h' ∧
      (fun k => h'.heap[k]?) = exchange (fun k => h.heap[k]?) a b := by
  have lookup : (fun k => (h.heap.swap a b hereA hereB)[k]?) = exchange (fun k => h.heap[k]?) a b := by
    funext k
    rw [Array.getElem?_swap,exchange]
    by_cases atA : k = a
    · subst k
      simp [Ne.symm differ,hereB]
    · by_cases atB : k = b
      · subst k
        simp [atA,hereA]
      · simp [atA,atB,Ne.symm atA,Ne.symm atB]
  refine ⟨_,by rw [Indexed.swap,dif_pos ⟨hereA,hereB⟩],⟨(Array.swap_perm hereA hereB).toList,?_,?_⟩,lookup⟩
  · intro i x found
    have found' : exchange (fun k => h.heap[k]?) a b i = some x := by rw [← lookup]; exact found
    simp only [exchange] at found'
    simp only [Std.HashMap.getElem?_insert,beq_iff_eq]
    split at found'
    next atA =>
      have value : h.heap[b] = x := by simpa [hereB] using found'
      have other : key h.heap[a] ≠ key x := by
        intro same
        exact differ (placed.injective injective (Array.getElem?_eq_getElem hereA) found' same)
      simp [other,value,atA]
    next notA =>
      split at found'
      next atB =>
        have value : h.heap[a] = x := by simpa [hereA] using found'
        simp [value,atB]
      next notB =>
        have otherA : key h.heap[a] ≠ key x := by
          intro same
          exact notA (placed.injective injective found' (Array.getElem?_eq_getElem hereA) same.symm)
        have otherB : key h.heap[b] ≠ key x := by
          intro same
          exact notB (placed.injective injective found' (Array.getElem?_eq_getElem hereB) same.symm)
        simpa [otherA,otherB] using placed i x found'
  · intro k other
    have otherA := other h.heap[a] (by simp)
    have otherB := other h.heap[b] (by simp)
    simp [Std.HashMap.getElem?_insert,otherA,otherB]

theorem siftUp_spec (injective : Function.Injective place) (i : Nat) (placed : Placed key place h)
    (inside : i < h.heap.size) (rising : Rising rank (fun k => h.heap[k]?) i) :
    ∃ h', h.siftUp rank key place i = some h' ∧ Rearranges key place h h' ∧ Ordered rank (fun k => h'.heap[k]?) := by
  induction i using Nat.strongRecOn generalizing h with
  | ind i ih =>
    rw [Indexed.siftUp]
    by_cases zero : i = 0
    · exact ⟨h,if_pos zero,.refl placed,rising.finish (by omega)⟩
    · have lower : parent i < i := by unfold parent; omega
      have above : parent i < h.heap.size := by omega
      have here := Array.getElem?_eq_getElem inside
      have there := Array.getElem?_eq_getElem above
      simp only [zero,if_false,here,there]
      by_cases earlier : rank h.heap[i] < rank h.heap[parent i]
      · obtain ⟨h₁,swapped,moved,lookup⟩ := swap_spec placed injective inside above (by omega)
        have rising₁ : Rising rank (fun k => h₁.heap[k]?) (parent i) := by
          rw [lookup]; exact rising.move (by omega) here there earlier
        obtain ⟨h₂,sifted,moved₂,ordered⟩ := ih (parent i) lower moved.placed (by rw [moved.size]; exact above) rising₁
        exact ⟨h₂,by simp only [earlier,if_true,swapped,sifted],moved.trans moved₂,ordered⟩
      · refine ⟨h,if_neg earlier,.refl placed,rising.finish ?_⟩
        intro _ p x hp hx
        obtain rfl := Option.some.inj (there.symm.trans hp)
        obtain rfl := Option.some.inj (here.symm.trans hx)
        exact not_lt.mp earlier

theorem siftDown_spec (injective : Function.Injective place) (i : Nat) (placed : Placed key place h)
    (inside : i < h.heap.size) (sinking : Sinking rank (fun k => h.heap[k]?) i) :
    ∃ h', h.siftDown rank key place i = some h' ∧ Rearranges key place h h' ∧
      Ordered rank (fun k => h'.heap[k]?) := by
  -- the distance to the array's end falls with every exchange
  generalize distance : h.heap.size - i = n
  induction n using Nat.strongRecOn generalizing h i with
  | ind n ih =>
    rw [Indexed.siftDown]
    by_cases leaf : 2 * i + 1 < h.heap.size
    · obtain ⟨y,below,child,least⟩ := child_spec rank h i leaf
      have here := Array.getElem?_eq_getElem inside
      have deeper := h.child_gt rank i
      have bound := (Array.getElem?_eq_some_iff.mp below).1
      rw [if_pos leaf]
      simp only [below,here]
      by_cases earlier : rank y < rank h.heap[i]
      · obtain ⟨h₁,swapped,moved,lookup⟩ := swap_spec placed injective inside bound (Nat.ne_of_lt deeper)
        have sinking₁ : Sinking rank (fun k => h₁.heap[k]?) (h.child rank i) := by
          rw [lookup]; exact sinking.move (by omega) child here below earlier least
        obtain ⟨h₂,sifted,moved₂,ordered⟩ := ih (h₁.heap.size - h.child rank i)
          (by rw [moved.size]; omega) (h.child rank i) moved.placed (by rw [moved.size]; exact bound) sinking₁ rfl
        refine ⟨h₂,?_,moved.trans moved₂,ordered⟩
        rw [if_pos earlier]
        split
        next h' again => rw [swapped] at again; cases again; exact sifted
        next fails => rw [swapped] at fails; cases fails
      · refine ⟨h,if_neg earlier,.refl placed,sinking.finish ?_⟩
        intro c positive isChild x z hx hz
        obtain rfl := Option.some.inj (here.symm.trans hx)
        exact (not_lt.mp earlier).trans (least c z positive isChild hz)
    · refine ⟨h,if_neg leaf,.refl placed,sinking.finish ?_⟩
      intro c positive child x y hx hy
      have := (Array.getElem?_eq_some_iff.mp hy).1
      unfold parent at child
      omega

/-- Ordered but for the item at `i`, which may be wrong in either direction. -/
structure Broken (rank : α → ρ) (f : Nat → Option α) (i : Nat) : Prop where
  others : ∀ j, 0 < j → j ≠ i → parent j ≠ i → Le rank f (parent j) j
  grand : 0 < i → ∀ c, 0 < c → parent c = i → Le rank f (parent i) c

/-- Replacing one item of an ordered heap breaks the order at that place only. -/
theorem Ordered.broken {f g : Nat → Option α} {i : Nat} {x : α} (ordered : Ordered rank f) (here : f i = some x)
    (kept : ∀ k y, k ≠ i → g k = some y → f k = some y) : Broken rank g i := by
  constructor
  · intro j positive atJ onI a b ha hb
    exact ordered j positive a b (kept _ a onI ha) (kept _ b atJ hb)
  · intro positive c hc child a b ha hb
    have lower : parent i ≠ i := by unfold parent; omega
    have deeper : c ≠ i := by unfold parent at child; omega
    have first := ordered i positive a x (kept _ a lower ha) here
    have second := ordered c hc x b (child ▸ here) (kept _ b deeper hb)
    exact first.trans second

theorem pop_perm (xs : Array α) {x : α} (back : xs.back? = some x) : xs.toList.Perm (x :: xs.pop.toList) := by
  have nonempty : xs.toList ≠ [] := by
    intro empty
    simp [Array.back?_eq_getElem?,Array.toList_eq_nil_iff.mp empty] at back
  have last : xs.toList.getLast nonempty = x := by
    have := List.getLast?_eq_some_getLast nonempty
    rw [Array.getLast?_toList,back] at this
    exact (Option.some.inj this).symm
  rw [← List.dropLast_concat_getLast nonempty,last,Array.toList_pop]
  exact List.perm_append_singleton _ _

theorem getElem?_pop_some {xs : Array α} {k : Nat} {y : α} (found : xs.pop[k]? = some y) :
    k < xs.size - 1 ∧ xs[k]? = some y := by
  rw [Array.getElem?_pop] at found
  split at found
  next inside => exact ⟨inside,found⟩
  next => cases found

/-- Detaching an item leaves the rest placed and moves nothing but the last item. -/
theorem detach_spec (injective : Function.Injective place) (placed : Placed key place h)
    {i : Nat} {x : α} (found : h.heap[i]? = some x) :
    ∃ h', h.detach key place i = some (h',x) ∧ h.heap.toList.Perm (x :: h'.heap.toList) ∧
      Placed key place h' ∧ h'.places[key x]? = none ∧
      (∀ k, (∀ y ∈ h.heap.toList, key y ≠ k) → h'.places[k]? = h.places[k]?) ∧
      ∀ k y, k ≠ i → h'.heap[k]? = some y → h.heap[k]? = some y := by
  obtain ⟨inside,here⟩ := Array.getElem?_eq_some_iff.mp found
  have listed : x ∈ h.heap.toList := by simp [← here]
  have apart : ∀ k y, k ≠ i → h.heap[k]? = some y → key y ≠ key x :=
    fun k y differ foundY same => differ (placed.injective injective foundY found same)
  by_cases last : i = h.heap.size - 1
  · have back : h.heap.back? = some x := by rw [Array.back?_eq_getElem?,← last,found]
    refine ⟨⟨h.heap.pop,h.places.erase (key x)⟩,?_,pop_perm _ back,?_,by simp,?_,?_⟩
    · simp only [Indexed.detach,dif_pos inside,if_pos last,back]
    · intro k y foundY
      obtain ⟨below,foundY⟩ := getElem?_pop_some foundY
      have differ := apart k y (by omega) foundY
      simpa [Std.HashMap.getElem?_erase,differ.symm] using placed k y foundY
    · intro k other
      simp [Std.HashMap.getElem?_erase,other x listed]
    · intro k y _ foundY
      exact (getElem?_pop_some foundY).2
  · have final : h.heap.size - 1 < h.heap.size := by omega
    have lookup : ∀ k, (h.heap.swap i (h.heap.size - 1))[k]? =
        if h.heap.size - 1 = k then some x else if i = k then some h.heap[h.heap.size - 1] else h.heap[k]? := by
      intro k
      rw [Array.getElem?_swap,here]
    have back : (h.heap.swap i (h.heap.size - 1)).back? = some x := by
      rw [Array.back?_eq_getElem?,lookup]
      simp
    have foundLast : h.heap[h.heap.size - 1]? = some h.heap[h.heap.size - 1] := Array.getElem?_eq_getElem final
    refine ⟨⟨(h.heap.swap i (h.heap.size - 1)).pop,
      (h.places.insert (key h.heap[h.heap.size - 1]) (place i)).erase (key x)⟩,?_,?_,?_,by simp,?_,?_⟩
    · simp only [Indexed.detach,dif_pos inside,if_neg last,back]
    · exact (Array.swap_perm inside final).toList.symm.trans (pop_perm _ back)
    · intro k y foundY
      obtain ⟨below,foundY⟩ := getElem?_pop_some foundY
      rw [Array.size_swap] at below
      rw [lookup,if_neg (by omega)] at foundY
      by_cases atI : i = k
      · rw [if_pos atI] at foundY
        obtain rfl := Option.some.inj foundY
        have differ := apart _ _ (Ne.symm last) foundLast
        simp [differ.symm,atI]
      · rw [if_neg atI] at foundY
        have differ := apart k y (Ne.symm atI) foundY
        have notLast : key h.heap[h.heap.size - 1] ≠ key y := by
          intro same
          have := placed.injective injective foundLast foundY same
          omega
        simpa [Std.HashMap.getElem?_erase,Std.HashMap.getElem?_insert,differ.symm,notLast] using placed k y foundY
    · intro k other
      have otherLast := other h.heap[h.heap.size - 1] (by simp)
      simp [Std.HashMap.getElem?_erase,Std.HashMap.getElem?_insert,other x listed,otherLast]
    · intro k y differ foundY
      obtain ⟨below,foundY⟩ := getElem?_pop_some foundY
      rw [Array.size_swap] at below
      rwa [lookup,if_neg (by omega),if_neg (Ne.symm differ)] at foundY

theorem settle_spec (injective : Function.Injective place) (placed : Placed key place h) {i : Nat}
    (broken : Broken rank (fun k => h.heap[k]?) i) :
    ∃ h', h.settle rank key place i = some h' ∧ Rearranges key place h h' ∧ Ordered rank (fun k => h'.heap[k]?) := by
  by_cases inside : i < h.heap.size
  · by_cases root : i = 0
    · have sinking : Sinking rank (fun k => h.heap[k]?) i :=
        ⟨fun j positive onI => broken.others j positive (by omega) onI,broken.grand⟩
      simpa only [Indexed.settle,if_pos inside,if_pos root] using siftDown_spec injective i placed inside sinking
    · have lower : parent i < h.heap.size := by unfold parent; omega
      have here := Array.getElem?_eq_getElem inside
      have above := Array.getElem?_eq_getElem lower
      simp only [Indexed.settle,if_pos inside,if_neg root,here,above]
      by_cases earlier : rank h.heap[i] < rank h.heap[parent i]
      · rw [if_pos earlier]
        refine siftUp_spec injective i placed inside ⟨?_,broken.grand⟩
        intro j positive atI
        by_cases onI : parent j = i
        · intro a b ha hb
          rw [onI] at ha
          obtain rfl := Option.some.inj (here.symm.trans ha)
          have := broken.grand (by omega) j positive onI _ b above hb
          exact (earlier.trans_le this).le
        · exact broken.others j positive atI onI
      · rw [if_neg earlier]
        refine siftDown_spec injective i placed inside ⟨?_,broken.grand⟩
        intro j positive onI
        by_cases atI : j = i
        · intro a b ha hb
          rw [atI] at ha hb
          obtain rfl := Option.some.inj (above.symm.trans ha)
          obtain rfl := Option.some.inj (here.symm.trans hb)
          exact not_lt.mp earlier
        · exact broken.others j positive atI onI
  · refine ⟨h,if_neg inside,.refl placed,?_⟩
    -- past the end there is nothing at `i`, so nothing is broken
    have absent : h.heap[i]? = none := Array.getElem?_eq_none (by omega)
    intro j positive a b ha hb
    by_cases atI : j = i
    · subst atI
      cases absent.symm.trans hb
    · by_cases onI : parent j = i
      · subst onI
        cases absent.symm.trans ha
      · exact broken.others j positive atI onI a b ha hb

end Places

end S2Script.IndexedHeap
