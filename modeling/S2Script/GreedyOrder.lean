import Mathlib

/-! Orders of a finite graph in which each vertex follows those it needs: the greedy one, the
vertices it reaches, and that it is the least of all; and the one that takes off what no other needs. -/
namespace S2Script.GreedyOrder

open Relation

section Graph

variable {V : Type} {edge : V → V → Prop}

/-- Not taken yet, and all it needs is taken. -/
def Available (edge : V → V → Prop) (taken : List V) (v : V) : Prop := v ∉ taken ∧ ∀ p, edge p v → p ∈ taken

/-- Each vertex of the list is available when its turn comes. -/
def Topological (edge : V → V → Prop) : List V → List V → Prop
  | _,[] => True
  | taken,v :: rest => Available edge taken v ∧ Topological edge (v :: taken) rest

/-- On a cycle, or reachable from one. -/
def Blocked (edge : V → V → Prop) (v : V) : Prop := ∃ u, TransGen edge u u ∧ ReflTransGen edge u v

theorem Blocked.step {p v : V} (blocked : Blocked edge p) (needs : edge p v) : Blocked edge v := by
  obtain ⟨u,cycle,path⟩ := blocked
  exact ⟨u,cycle,path.tail needs⟩

/-- A blocked vertex needs a blocked one. -/
theorem Blocked.needs {v : V} (blocked : Blocked edge v) : ∃ p, edge p v ∧ Blocked edge p := by
  obtain ⟨u,cycle,path⟩ := blocked
  rcases ReflTransGen.cases_tail path with same | ⟨p,toP,last⟩
  · subst same
    obtain ⟨p,toP,last⟩ := TransGen.tail'_iff.mp cycle
    exact ⟨p,last,v,cycle,toP⟩
  · exact ⟨p,last,u,cycle,toP⟩

theorem Blocked.mono {other : V → V → Prop} (le : ∀ p v, edge p v → other p v) {v : V} (blocked : Blocked edge v) : Blocked other v := by
  obtain ⟨u,cycle,path⟩ := blocked
  exact ⟨u,TransGen.mono le _ _ cycle,ReflTransGen.mono le _ _ path⟩

/-- Going back from a vertex of a finite set in which each needs another ends on a cycle. -/
theorem blocked_of_needs {left : Set V} (finite : left.Finite) (each : ∀ w ∈ left, ∃ p ∈ left, edge p w) {v : V} (member : v ∈ left) :
    Blocked edge v := by
  by_contra free
  -- the unblocked vertices have no least one under what they need
  let Left := { w : V // w ∈ left ∧ ¬Blocked edge w }
  have inhabited : Finite Left := Set.Finite.to_subtype (finite.subset fun w here => here.1)
  let before : Left → Left → Prop := fun a b => TransGen edge a.1 b.1
  have trans : IsTrans Left before := ⟨fun _ _ _ first second => TransGen.trans first second⟩
  have irrefl : Std.Irrefl before := ⟨fun a cycle => a.2.2 ⟨a.1,cycle,.refl⟩⟩
  have founded : WellFounded before := Finite.wellFounded_of_trans_of_irrefl before
  obtain ⟨⟨w,here,unblocked⟩,_,least⟩ := founded.has_min Set.univ ⟨⟨v,member,free⟩,trivial⟩
  obtain ⟨p,inside,needs⟩ := each w here
  have earlier : ¬Blocked edge p := fun blocked => unblocked (blocked.step needs)
  exact least ⟨p,inside,earlier⟩ trivial (.single needs)

theorem Topological.unblocked {order taken : List V} (topological : Topological edge taken order)
    (before : ∀ v ∈ taken, ¬Blocked edge v) : ∀ v ∈ order, ¬Blocked edge v := by
  induction order generalizing taken with
  | nil => exact fun _ member => nomatch member
  | cons head rest ih =>
    obtain ⟨available,later⟩ := topological
    have free : ¬Blocked edge head := by
      intro blocked
      obtain ⟨p,needs,still⟩ := blocked.needs
      exact before p (available.2 p needs) still
    have others := ih later fun v member => by
      rcases List.mem_cons.mp member with rfl | old
      · exact free
      · exact before v old
    intro v member
    rcases List.mem_cons.mp member with rfl | inRest
    · exact free
    · exact others v inRest

theorem Topological.apart {order taken : List V} (topological : Topological edge taken order) :
    (∀ v ∈ order, v ∉ taken) ∧ order.Nodup := by
  induction order generalizing taken with
  | nil => exact ⟨fun _ member => (nomatch member),List.nodup_nil⟩
  | cons head rest ih =>
    obtain ⟨available,later⟩ := topological
    obtain ⟨apart,distinct⟩ := ih later
    refine ⟨fun v member => ?_,List.nodup_cons.mpr ⟨fun inRest => apart head inRest List.mem_cons_self,distinct⟩⟩
    rcases List.mem_cons.mp member with rfl | inRest
    · exact available.1
    · exact fun old => apart v inRest (List.mem_cons_of_mem head old)

/-- What a vertex of the order needs comes before it. -/
theorem Topological.before {order taken : List V} (topological : Topological edge taken order) {p c : V} (needs : edge p c)
    (listed : c ∈ order) : p ∈ taken ∨ [p,c].Sublist order := by
  induction order generalizing taken with
  | nil => exact nomatch listed
  | cons head rest ih =>
    obtain ⟨available,later⟩ := topological
    rcases List.mem_cons.mp listed with rfl | inRest
    · exact .inl (available.2 p needs)
    · rcases ih later inRest with earlier | inOrder
      · rcases List.mem_cons.mp earlier with rfl | old
        · exact .inr (List.Sublist.cons_cons _ (List.singleton_sublist.mpr inRest))
        · exact .inl old
      · exact .inr (inOrder.cons head)

/-- Only what the order's own vertices need matters. -/
theorem Topological.congr {other : V → V → Prop} {order taken : List V} (topological : Topological edge taken order)
    (same : ∀ v ∈ order, ∀ p, other p v → edge p v) : Topological other taken order := by
  induction order generalizing taken with
  | nil => trivial
  | cons head rest ih =>
    obtain ⟨⟨fresh,needs⟩,later⟩ := topological
    exact ⟨⟨fresh,fun p needed => needs p (same head List.mem_cons_self p needed)⟩,
      ih later fun v member => same v (List.mem_cons_of_mem head member)⟩

theorem available_congr {other : V → V → Prop} (same : ∀ p v, edge p v ↔ other p v) (taken : List V) (v : V) :
    Available edge taken v ↔ Available other taken v := by
  rw [Available,Available]
  constructor
  · exact fun available => ⟨available.1,fun p needs => available.2 p ((same p v).mpr needs)⟩
  · exact fun available => ⟨available.1,fun p needs => available.2 p ((same p v).mp needs)⟩

end Graph

section Greedy

variable {V : Type} [LinearOrder V] {edge : V → V → Prop} {vertices : List V}

/-- Each time the least available vertex, until none is left. -/
def Greedy (edge : V → V → Prop) (vertices : List V) : List V → List V → Prop
  | taken,[] => ∀ v ∈ vertices, ¬Available edge taken v
  | taken,v :: rest => v ∈ vertices ∧ Available edge taken v ∧ (∀ w ∈ vertices, Available edge taken w → v ≤ w) ∧
      Greedy edge vertices (v :: taken) rest

theorem Greedy.topological {order taken : List V} (greedy : Greedy edge vertices taken order) : Topological edge taken order := by
  induction order generalizing taken with
  | nil => trivial
  | cons head rest ih =>
    obtain ⟨_,available,_,later⟩ := greedy
    exact ⟨available,ih later⟩

theorem Greedy.subset {order taken : List V} (greedy : Greedy edge vertices taken order) : ∀ v ∈ order, v ∈ vertices := by
  induction order generalizing taken with
  | nil => exact fun _ member => nomatch member
  | cons head rest ih =>
    obtain ⟨listed,_,_,later⟩ := greedy
    intro v member
    rcases List.mem_cons.mp member with rfl | inRest
    · exact listed
    · exact ih later v inRest

/-- The graph alone decides the greedy order. -/
theorem Greedy.unique {other : V → V → Prop} {others : List V} (same : ∀ p v, edge p v ↔ other p v)
    (listed : ∀ v, v ∈ vertices ↔ v ∈ others) {first second taken : List V} (greedy : Greedy edge vertices taken first)
    (again : Greedy other others taken second) : first = second := by
  induction first generalizing second taken with
  | nil =>
    cases second with
    | nil => rfl
    | cons head rest => exact absurd ((available_congr same _ _).mpr again.2.1) (greedy head ((listed head).mpr again.1))
  | cons head rest ih =>
    cases second with
    | nil => exact absurd ((available_congr same _ _).mp greedy.2.1) (again head ((listed head).mp greedy.1))
    | cons next tail =>
      obtain ⟨inFirst,available,least,later⟩ := greedy
      obtain ⟨inSecond,available',least',later'⟩ := again
      have equal : head = next := le_antisymm (least next ((listed next).mpr inSecond) ((available_congr same _ _).mpr available'))
        (least' head ((listed head).mp inFirst) ((available_congr same _ _).mp available))
      subst equal
      rw [ih later later']

/-- No order of the same vertices is less than the greedy one. -/
theorem Greedy.least {order other taken : List V} (greedy : Greedy edge vertices taken order)
    (topological : Topological edge taken other) (perm : other.Perm order) : order = other ∨ List.Lex (· < ·) order other := by
  induction order generalizing other taken with
  | nil => exact .inl perm.eq_nil.symm
  | cons head rest ih =>
    cases other with
    | nil => exact absurd perm.symm.eq_nil (List.cons_ne_nil _ _)
    | cons next tail =>
      have inVertices : next ∈ vertices := greedy.subset next (perm.mem_iff.mp List.mem_cons_self)
      obtain ⟨_,_,least,later⟩ := greedy
      obtain ⟨available,after⟩ := topological
      rcases lt_or_eq_of_le (least next inVertices available) with smaller | same
      · exact .inr (.rel smaller)
      · subst same
        rcases ih later after (List.Perm.cons_inv perm) with equal | less
        · exact .inl (congrArg _ equal)
        · exact .inr (.cons less)

/-- What the greedy order leaves out is blocked: else some vertex, with all it needs before it,
would be left out although it is available. -/
theorem Greedy.covers {order : List V} (greedy : Greedy edge vertices [] order) (inside : ∀ p v, edge p v → p ∈ vertices) {v : V}
    (listed : v ∈ vertices) (free : ¬Blocked edge v) : v ∈ order := by
  have stops : ∀ taken rest, Greedy edge vertices taken rest → ∀ w ∈ vertices, w ∉ taken → w ∉ rest →
      ∃ p, edge p w ∧ p ∉ taken ∧ p ∉ rest := by
    intro taken rest
    induction rest generalizing taken with
    | nil =>
      intro stop w inVertices fresh _
      by_contra none
      push Not at none
      refine stop w inVertices ⟨fresh,fun p needs => ?_⟩
      by_contra out
      exact absurd (none p needs out) List.not_mem_nil
    | cons head tail ih =>
      rintro ⟨_,_,_,later⟩ w inVertices fresh out
      rw [List.mem_cons,not_or] at out
      obtain ⟨p,needs,apart,absent⟩ := ih (head :: taken) later w inVertices
        (fun member => (List.mem_cons.mp member).elim out.1 fresh) out.2
      rw [List.mem_cons,not_or] at apart
      exact ⟨p,needs,apart.2,fun member => (List.mem_cons.mp member).elim apart.1 absent⟩
  by_contra out
  have left : ({w | w ∈ vertices ∧ w ∉ order} : Set V).Finite := vertices.finite_toSet.subset fun w here => here.1
  refine free (blocked_of_needs left ?_ ⟨listed,out⟩)
  rintro w ⟨inVertices,absent⟩
  obtain ⟨p,needs,_,gone⟩ := stops [] order greedy w inVertices List.not_mem_nil absent
  exact ⟨p,⟨inside p w needs,gone⟩,needs⟩

theorem Greedy.mem_iff {order : List V} (greedy : Greedy edge vertices [] order) (inside : ∀ p v, edge p v → p ∈ vertices) (v : V) :
    v ∈ order ↔ v ∈ vertices ∧ ¬Blocked edge v :=
  ⟨fun member => ⟨greedy.subset v member,greedy.topological.unblocked (fun _ none => nomatch none) v member⟩,
    fun found => greedy.covers inside found.1 found.2⟩

end Greedy

section Peel

/-- Use of another one, both listed. -/
def UsesAmong {V : Type} (uses : V → V → Prop) (listed : List V) (q p : V) : Prop := q ∈ listed ∧ p ∈ listed ∧ q ≠ p ∧ uses q p

variable {V : Type} [DecidableEq V] (uses : V → V → Prop) [DecidableRel uses]

/-- Each time the first that no other remaining one uses; all the rest once there is none. -/
def peel (remaining : List V) : List V :=
  match _pick : remaining.find? fun p => !remaining.any fun q => q ≠ p ∧ uses q p with
  | some p => p :: peel (remaining.erase p)
  | none => remaining
termination_by remaining.length
decreasing_by
  have member := List.mem_of_find?_eq_some _pick
  have shorter := List.length_erase_of_mem member
  have positive := List.length_pos_of_mem member
  omega

theorem peel_perm (remaining : List V) : (peel uses remaining).Perm remaining := by
  fun_induction peel uses remaining with
  | case1 remaining p pick ih => exact (ih.cons p).trans (List.perm_cons_erase (List.mem_of_find?_eq_some pick)).symm
  | case2 remaining pick => exact .refl _

variable {uses}

/-- When none can be picked, all that remain are blocked. -/
theorem blocked_of_stuck {remaining : List V} (stuck : remaining.find? (fun p => !remaining.any fun q => q ≠ p ∧ uses q p) = none) {v : V}
    (member : v ∈ remaining) : Blocked (UsesAmong uses remaining) v := by
  refine blocked_of_needs (List.finite_toSet remaining) (fun w here => ?_) member
  have used := List.find?_eq_none.mp stuck w here
  simp only [Bool.not_eq_true,Bool.not_eq_false',List.any_eq_true,decide_eq_true_eq] at used
  obtain ⟨q,inside,other,use⟩ := used
  exact ⟨q,inside,inside,here,other,use⟩

/-- A user goes before what it uses, unless a cycle keeps it from being picked. -/
theorem peel_before {remaining : List V} (distinct : remaining.Nodup) {q p : V} (use : UsesAmong uses remaining q p) :
    [q,p].Sublist (peel uses remaining) ∨ Blocked (UsesAmong uses remaining) q := by
  fun_induction peel uses remaining with
  | case1 remaining first pick ih =>
    obtain ⟨inside,member,other,needs⟩ := use
    have unused := List.find?_some pick
    simp only [Bool.not_eq_true',List.any_eq_false,decide_eq_true_eq,not_and] at unused
    have kept : ∀ {v}, v ∈ remaining → v ≠ first → v ∈ remaining.erase first := fun here apart =>
      (List.mem_erase_of_ne apart).mpr here
    by_cases user : q = first
    · subst user
      have later := (peel_perm uses _).mem_iff.mpr (kept member (Ne.symm other))
      exact .inl (List.Sublist.cons_cons _ (List.singleton_sublist.mpr later))
    · have used : p ≠ first := fun same => unused q inside (same ▸ other) (same ▸ needs)
      rcases ih (distinct.erase first) ⟨kept inside user,kept member used,other,needs⟩ with before | blocked
      · exact .inl (before.cons first)
      · refine .inr (blocked.mono fun a b among => ?_)
        exact ⟨List.mem_of_mem_erase among.1,List.mem_of_mem_erase among.2.1,among.2.2⟩
  | case2 remaining stuck => exact .inr (blocked_of_stuck stuck use.1)

end Peel

end S2Script.GreedyOrder
