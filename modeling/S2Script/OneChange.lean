import Mathlib

/-! Lists and sums in which one entry changes. A ledger that is kept as a sum needs only the
old and the new value of that entry. -/
namespace S2Script.OneChange

variable {α : Type} {l : List α} {i : Nat} {a : α}

/-- A sum after one of its terms changed. -/
theorem sum_change {ι : Type} [Fintype ι] [DecidableEq ι] {f g : ι → Nat} (i : ι)
    (same : ∀ j, j ≠ i → g j = f j) : ∑ j, g j + f i = ∑ j, f j + g i := by
  have others : ∑ j ∈ {i}ᶜ, g j = ∑ j ∈ {i}ᶜ, f j :=
    Finset.sum_congr rfl fun j member => same j (by simpa using member)
  rw [Fintype.sum_eq_add_sum_compl i g,Fintype.sum_eq_add_sum_compl i f,others]
  omega

theorem term_le_sum {ι : Type} [Fintype ι] (f : ι → Nat) (i : ι) : f i ≤ ∑ j, f j :=
  Finset.single_le_sum (fun _ _ => Nat.zero_le _) (Finset.mem_univ i)

theorem eraseIdx_perm (here : l[i]? = some a) : l.Perm (a :: l.eraseIdx i) := by
  obtain ⟨bound,rfl⟩ := List.getElem?_eq_some_iff.mp here
  exact (List.getElem_cons_eraseIdx_perm bound).symm

theorem set_perm (here : l[i]? = some a) (b : α) : (l.set i b).Perm (b :: l.eraseIdx i) := by
  obtain ⟨bound,_⟩ := List.getElem?_eq_some_iff.mp here
  exact List.set_perm_cons_eraseIdx bound b

/-- The element moved to the end leaves a hole behind. -/
theorem move_perm (here : l[i]? = some a) (hole : α) : (l.set i hole ++ [a]).Perm (hole :: l) :=
  calc (l.set i hole ++ [a]).Perm ((hole :: l.eraseIdx i) ++ [a]) := (set_perm here hole).append_right _
    _ |>.Perm (hole :: a :: l.eraseIdx i) := (List.perm_append_singleton a _).cons hole
    _ |>.Perm (hole :: l) := (eraseIdx_perm here).symm.cons hole

end S2Script.OneChange
