import S2Script.Table

/-! Indexes of a list by a key: what each key's entries are, how many there are, and each
key's first entry in the list's order. -/
namespace S2Script.ListIndex

variable {α K V : Type} {items : List α}

/-- Nothing stands for the empty list. -/
def nonEmpty (values : List V) : Option (List V) := if values.isEmpty then none else some values

@[simp] theorem nonEmpty_nil : nonEmpty ([] : List V) = none := rfl

theorem nonEmpty_of_ne {values : List V} (some : values ≠ []) : nonEmpty values = Option.some values := by
  rw [nonEmpty,if_neg]
  simpa using some

theorem nonEmpty_getD (values : List V) : (nonEmpty values).getD [] = values := by
  cases values <;> rfl

/-- Whether two elements of a list ordered by rank are the same is seen from their ranks. -/
theorem rank_inj {rank : α → Nat} (sorted : items.Pairwise fun a b => rank a < rank b) {a b : α}
    (aIn : a ∈ items) (bIn : b ∈ items) (same : rank a = rank b) : a = b := by
  by_contra differ
  have symmetric : Std.Symm fun a b => rank a ≠ rank b := ⟨fun _ _ ne => ne.symm⟩
  have apart : items.Pairwise fun a b => rank a ≠ rank b := sorted.imp Nat.ne_of_lt
  exact apart.forall aIn bIn differ same

/-- Lists ordered by a rank are equal when they have the same elements. -/
theorem sorted_ext {others : List α} {rank : α → Nat} (sorted : items.Pairwise fun a b => rank a < rank b)
    (also : others.Pairwise fun a b => rank a < rank b) (same : ∀ a, a ∈ items ↔ a ∈ others) : items = others := by
  have antisymmetric : Std.Antisymm fun a b : α => rank a < rank b := ⟨fun _ _ lt gt => absurd (Nat.lt_trans lt gt) (Nat.lt_irrefl _)⟩
  have irreflexive : Std.Irrefl fun a b : α => rank a < rank b := ⟨fun _ => Nat.lt_irrefl _⟩
  exact sorted.eq_of_mem_iff also same

/-- Where at most one element answers, taking out the first that does takes out all that do. -/
theorem eraseP_eq_filter {answers : α → Bool} (unique : items.Pairwise fun a b => answers a → ¬answers b) :
    items.eraseP answers = items.filter fun a => !answers a := by
  induction items with
  | nil => rfl
  | cons a rest ih =>
    obtain ⟨apart,restUnique⟩ := List.pairwise_cons.mp unique
    cases answer : answers a with
    | false => simp [answer,ih restUnique]
    | true =>
      have none : rest.filter (fun b => !answers b) = rest := by
        rw [List.filter_eq_self]
        intro b member
        simpa using apart b member answer
      simp [answer,none]

/-- Where at most one element answers, it is the one that is found. -/
theorem find?_eq_some {answers : α → Bool} (unique : items.Pairwise fun a b => answers a → ¬answers b) {a : α}
    (member : a ∈ items) (answer : answers a) : items.find? answers = some a := by
  induction items with
  | nil => exact nomatch member
  | cons b rest ih =>
    obtain ⟨apart,restUnique⟩ := List.pairwise_cons.mp unique
    rcases List.mem_cons.mp member with rfl | later
    · exact List.find?_cons_of_pos answer
    · have other : ¬answers b := fun also => apart a later also answer
      rw [List.find?_cons_of_neg other,ih restUnique later]

/-- A rank is held once. -/
theorem rank_unique {rank : α → Nat} (sorted : items.Pairwise fun a b => rank a < rank b) (n : Nat) :
    items.Pairwise fun a b => (rank a == n) = true → ¬(rank b == n) = true :=
  sorted.imp fun lt here there => by
    rw [beq_iff_eq] at here there
    omega

section Groups

variable [DecidableEq K]

/-- Append a value to a key's list, making it if there is none. -/
def pushAt (index : Table K (List V)) (key : K) (value : V) : Table K (List V) :=
  index.insert key ((index.lookup key).getD [] ++ [value])

/-- Take one value out of a key's list, and the list with it once it is empty. -/
def dropAt [BEq V] (index : Table K (List V)) (key : K) (value : V) : Table K (List V) :=
  match index.lookup key with
  | none => index
  | some values =>
    let rest := values.erase value
    if rest.isEmpty then index.erase key else index.insert key rest

/-- The index holds under each key the values of its items, and no empty list. -/
def Indexes (index : Table K (List V)) (key : α → K) (value : α → V) (items : List α) : Prop :=
  ∀ k, index.lookup k = nonEmpty ((items.filter fun a => key a == k).map value)

variable {index : Table K (List V)} {key : α → K} {value : α → V}

theorem Indexes.empty : Indexes (∅ : Table K (List V)) key value [] := fun _ => rfl

theorem Indexes.push (indexes : Indexes index key value items) (a : α) :
    Indexes (pushAt index (key a) (value a)) key value (items ++ [a]) := by
  intro k
  rw [pushAt,Table.lookup_insert_eq,indexes (key a),nonEmpty_getD,List.filter_append,List.map_append]
  by_cases same : k = key a
  · subst same
    rw [if_pos rfl,List.filter_singleton,beq_self_eq_true]
    exact (nonEmpty_of_ne (by simp)).symm
  · rw [if_neg same,List.filter_singleton,beq_eq_false_iff_ne.mpr fun equal => same equal.symm]
    simpa using indexes k

theorem Indexes.drop [DecidableEq V] (indexes : Indexes index key value items) {rank : α → Nat}
    (sorted : items.Pairwise fun a b => rank a < rank b) (faithful : ∀ a b, value a = value b ↔ rank a = rank b) {a : α}
    (member : a ∈ items) :
    Indexes (dropAt index (key a) (value a)) key value (items.filter fun b => rank b != rank a) := by
  have here : ((items.filter fun b => key b == key a).map value) ≠ [] := by
    simpa using ⟨a,member,rfl⟩
  have nodup : ((items.filter fun b => key b == key a).map value).Nodup := by
    refine List.pairwise_map.mpr ((sorted.filter _).imp fun lt same => ?_)
    exact Nat.ne_of_lt lt ((faithful _ _).mp same)
  have rest : ((items.filter fun b => key b == key a).map value).erase (value a) =
      ((items.filter fun b => rank b != rank a).filter fun b => key b == key a).map value := by
    rw [nodup.erase_eq_filter,List.filter_map,List.filter_filter,List.filter_filter]
    congr 1
    refine List.filter_congr fun b _ => ?_
    have equal : (value b != value a) = (rank b != rank a) := by
      rw [Bool.eq_iff_iff,bne_iff_ne,bne_iff_ne]
      exact not_congr (faithful b a)
    simp only [Function.comp_apply,equal,Bool.and_comm]
  intro k
  rw [dropAt,indexes (key a),nonEmpty_of_ne here]
  simp only [rest]
  by_cases same : k = key a
  · subst same
    split
    · next empty =>
      rw [AList.lookup_erase,nonEmpty,if_pos empty]
    · next some =>
      rw [AList.lookup_insert,nonEmpty,if_neg some]
  · have others : ((items.filter fun b => rank b != rank a).filter fun b => key b == k) = items.filter fun b => key b == k := by
      rw [List.filter_filter]
      refine List.filter_congr fun b inItems => ?_
      cases equal : key b == k with
      | false => rfl
      | true =>
        have apart : rank b ≠ rank a := fun equalRank => same (by
          rw [← beq_iff_eq.mp equal,rank_inj sorted inItems member equalRank])
        simp [apart]
    split
    · rw [AList.lookup_erase_ne same,indexes k,others]
    · rw [AList.lookup_insert_ne same,indexes k,others]

end Groups

section Firsts

variable [DecidableEq K]

/-- The first item of each key, in order. -/
def firsts (key : α → K) : List α → List α
  | [] => []
  | a :: rest => a :: (firsts key rest).filter fun b => key b != key a

variable {key : α → K} {rank : α → Nat}

theorem firsts_sublist (key : α → K) (items : List α) : (firsts key items).Sublist items := by
  induction items with
  | nil => exact List.Sublist.slnil
  | cons a rest ih => exact (List.filter_sublist.trans ih).cons_cons a

theorem firsts_sorted (key : α → K) (sorted : items.Pairwise fun a b => rank a < rank b) :
    (firsts key items).Pairwise fun a b => rank a < rank b :=
  sorted.sublist (firsts_sublist key items)

/-- An item is listed when no item of its key is ranked before it. -/
theorem mem_firsts (sorted : items.Pairwise fun a b => rank a < rank b) {a : α} :
    a ∈ firsts key items ↔ a ∈ items ∧ ∀ b ∈ items, key b = key a → rank a ≤ rank b := by
  induction items with
  | nil => simp [firsts]
  | cons c rest ih =>
    obtain ⟨below,restSorted⟩ := List.pairwise_cons.mp sorted
    simp only [firsts,List.mem_cons,List.mem_filter,ih restSorted,bne_iff_ne,ne_eq]
    constructor
    · rintro (rfl | ⟨⟨member,first⟩,apart⟩)
      · refine ⟨.inl rfl,fun b either _ => ?_⟩
        rcases either with rfl | later
        · exact Nat.le_refl _
        · exact Nat.le_of_lt (below b later)
      · refine ⟨.inr member,fun b either same => ?_⟩
        rcases either with rfl | later
        · exact absurd same.symm apart
        · exact first b later same
    · rintro ⟨rfl | member,first⟩
      · exact .inl rfl
      · refine .inr ⟨⟨member,fun b later => first b (.inr later)⟩,fun same => ?_⟩
        have := first c (.inl rfl) same.symm
        have := below a member
        omega

/-- Two listed items of one key are the same. -/
theorem firsts_key_inj (sorted : items.Pairwise fun a b => rank a < rank b) {a b : α} (aIn : a ∈ firsts key items)
    (bIn : b ∈ firsts key items) (same : key a = key b) : a = b := by
  obtain ⟨aItem,aFirst⟩ := (mem_firsts sorted).mp aIn
  obtain ⟨bItem,bFirst⟩ := (mem_firsts sorted).mp bIn
  exact rank_inj sorted aItem bItem (Nat.le_antisymm (aFirst b bItem same.symm) (bFirst a aItem same))

/-- Each key of the items is listed. -/
theorem firsts_complete (key : α → K) {a : α} (member : a ∈ items) : ∃ b ∈ firsts key items, key b = key a := by
  induction items with
  | nil => exact nomatch member
  | cons c rest ih =>
    by_cases same : key c = key a
    · exact ⟨c,List.mem_cons_self,same⟩
    · rcases List.mem_cons.mp member with rfl | later
      · exact absurd rfl same
      · obtain ⟨b,inRest,equal⟩ := ih later
        refine ⟨b,List.mem_cons_of_mem _ (List.mem_filter.mpr ⟨inRest,?_⟩),equal⟩
        simpa [equal] using fun same' => same same'.symm

theorem sorted_snoc (sorted : items.Pairwise fun a b => rank a < rank b) {a : α} (above : ∀ b ∈ items, rank b < rank a) :
    (items ++ [a]).Pairwise fun a b => rank a < rank b :=
  List.pairwise_append.mpr ⟨sorted,List.pairwise_singleton _ _,fun b member _ last =>
    List.mem_singleton.mp last ▸ above b member⟩

/-- A later item of a listed key changes nothing; one of a new key is listed last. -/
theorem firsts_snoc (key : α → K) (sorted : items.Pairwise fun a b => rank a < rank b) {a : α} (above : ∀ b ∈ items, rank b < rank a) :
    firsts key (items ++ [a]) = if ∃ b ∈ items, key b = key a then firsts key items else firsts key items ++ [a] := by
  have whole := sorted_snoc sorted above
  split
  · next known =>
    obtain ⟨c,member,same⟩ := known
    refine sorted_ext (firsts_sorted key whole) (firsts_sorted key sorted) fun b => ?_
    rw [mem_firsts whole,mem_firsts sorted]
    constructor
    · rintro ⟨inside,first⟩
      rcases List.mem_append.mp inside with old | new
      · exact ⟨old,fun d inItems => first d (List.mem_append_left _ inItems)⟩
      · have last := List.mem_singleton.mp new
        subst last
        have := first c (List.mem_append_left _ member) same
        have := above c member
        omega
    · rintro ⟨inside,first⟩
      refine ⟨List.mem_append_left _ inside,fun d inWhole equal => ?_⟩
      rcases List.mem_append.mp inWhole with old | new
      · exact first d old equal
      · rw [List.mem_singleton.mp new]
        exact Nat.le_of_lt (above b inside)
  · next unknown =>
    have listed : ∀ b ∈ firsts key items, rank b < rank a := fun b member => above b ((firsts_sublist key items).subset member)
    refine sorted_ext (firsts_sorted key whole) (sorted_snoc (firsts_sorted key sorted) listed) fun b => ?_
    have right : b ∈ firsts key items ++ [a] ↔ (b ∈ items ∧ ∀ c ∈ items, key c = key b → rank b ≤ rank c) ∨ b ∈ [a] := by
      rw [List.mem_append,mem_firsts sorted]
    rw [mem_firsts whole,right]
    constructor
    · rintro ⟨inside,first⟩
      rcases List.mem_append.mp inside with old | new
      · exact .inl ⟨old,fun d inItems => first d (List.mem_append_left _ inItems)⟩
      · exact .inr new
    · rintro (⟨inside,first⟩ | new)
      · refine ⟨List.mem_append_left _ inside,fun d inWhole equal => ?_⟩
        rcases List.mem_append.mp inWhole with old | last
        · exact first d old equal
        · rw [List.mem_singleton.mp last]
          exact Nat.le_of_lt (above b inside)
      · have last := List.mem_singleton.mp new
        subst last
        refine ⟨List.mem_append_right _ new,fun d inWhole equal => ?_⟩
        rcases List.mem_append.mp inWhole with old | last
        · exact absurd ⟨d,old,equal⟩ unknown
        · rw [List.mem_singleton.mp last]

/-- Put an item where its rank belongs. -/
def place (rank : α → Nat) (a : α) (items : List α) : List α :=
  items.takeWhile (fun b => rank b < rank a) ++ a :: items.dropWhile fun b => rank b < rank a

theorem mem_place {a b : α} : b ∈ place rank a items ↔ b = a ∨ b ∈ items := by
  rw [place,List.mem_append,List.mem_cons]
  constructor
  · rintro (before | rfl | later)
    · exact .inr (List.takeWhile_subset _ before)
    · exact .inl rfl
    · exact .inr (List.dropWhile_subset _ later)
  · rintro (rfl | member)
    · exact .inr (.inl rfl)
    · rw [← List.takeWhile_append_dropWhile (p := fun b => decide (rank b < rank a)) (l := items),List.mem_append] at member
      exact member.imp_right .inr

theorem place_map {β : Type} (rank : β → Nat) (f : α → β) (a : α) (items : List α) :
    place rank (f a) (items.map f) = (place (fun b => rank (f b)) a items).map f := by
  simp [place,List.takeWhile_map,List.dropWhile_map,Function.comp_def]

theorem place_sorted (sorted : items.Pairwise fun a b => rank a < rank b) {a : α} (fresh : ∀ b ∈ items, rank b ≠ rank a) :
    (place rank a items).Pairwise fun a b => rank a < rank b := by
  have before : ∀ b ∈ items.takeWhile (fun b => decide (rank b < rank a)), rank b < rank a :=
    fun b member => by simpa using List.mem_takeWhile_imp member
  have later : ∀ b ∈ items.dropWhile (fun b => decide (rank b < rank a)), rank a < rank b := by
    cases rest : items.dropWhile fun b => decide (rank b < rank a) with
    | nil => exact fun _ member => nomatch member
    | cons c tail =>
      have stop : ¬rank c < rank a := by
        have := List.head?_dropWhile_not (fun b => decide (rank b < rank a)) items
        rw [rest] at this
        simpa using this
      have inside : c ∈ items := List.dropWhile_subset _ (rest ▸ List.mem_cons_self)
      have sortedRest : (c :: tail).Pairwise fun a b => rank a < rank b := rest ▸ sorted.sublist (List.dropWhile_sublist _)
      intro b member
      have := fresh c inside
      rcases List.mem_cons.mp member with rfl | inTail
      · omega
      · have := (List.pairwise_cons.mp sortedRest).1 b inTail
        omega
  refine List.pairwise_append.mpr ⟨sorted.sublist (List.takeWhile_sublist _),?_,fun b inBefore c either => ?_⟩
  · exact List.pairwise_cons.mpr ⟨later,sorted.sublist (List.dropWhile_sublist _)⟩
  · have := before b inBefore
    rcases List.mem_cons.mp either with rfl | inLater
    · exact this
    · have := later c inLater
      omega

/-- Removing an item that is not listed changes nothing. -/
theorem firsts_remove_later (sorted : items.Pairwise fun a b => rank a < rank b) {a : α} (member : a ∈ items)
    (later : a ∉ firsts key items) : firsts key (items.filter fun b => rank b != rank a) = firsts key items := by
  have rest := sorted.filter fun b => rank b != rank a
  refine sorted_ext (firsts_sorted key rest) (firsts_sorted key sorted) fun b => ?_
  rw [mem_firsts rest,mem_firsts sorted]
  simp only [List.mem_filter,bne_iff_ne,ne_eq]
  constructor
  · rintro ⟨⟨inside,apart⟩,first⟩
    refine ⟨inside,fun c inItems same => ?_⟩
    by_cases equal : rank c = rank a
    · -- an earlier item of the key comes before the removed one
      obtain rfl := rank_inj sorted inItems member equal
      obtain ⟨d,listed,sameKey⟩ := firsts_complete key member
      obtain ⟨dItem,dFirst⟩ := (mem_firsts sorted).mp listed
      have dApart : rank d ≠ rank c := fun equal => later (rank_inj sorted dItem member equal ▸ listed)
      have := dFirst c member sameKey.symm
      have := first d ⟨dItem,dApart⟩ (sameKey.trans same)
      omega
    · exact first c ⟨inItems,equal⟩ same
  · rintro ⟨inside,first⟩
    refine ⟨⟨inside,fun equal => ?_⟩,fun c inRest same => first c inRest.1 same⟩
    obtain rfl := rank_inj sorted inside member equal
    exact later ((mem_firsts sorted).mpr ⟨inside,first⟩)

/-- Removing the only item of its key unlists the key. -/
theorem firsts_remove_only (sorted : items.Pairwise fun a b => rank a < rank b) {a : α} (member : a ∈ items)
    (only : ∀ b ∈ items, key b = key a → b = a) :
    firsts key (items.filter fun b => rank b != rank a) = (firsts key items).filter fun b => key b != key a := by
  have rest := sorted.filter fun b => rank b != rank a
  refine sorted_ext (firsts_sorted key rest) ((firsts_sorted key sorted).filter _) fun b => ?_
  simp only [mem_firsts rest,List.mem_filter,mem_firsts sorted,bne_iff_ne,ne_eq]
  constructor
  · rintro ⟨⟨inside,apart⟩,first⟩
    have keyApart : key b ≠ key a := fun same => apart (congrArg rank (only b inside same))
    refine ⟨⟨inside,fun c inItems same => ?_⟩,keyApart⟩
    refine first c ⟨inItems,fun equal => keyApart ?_⟩ same
    rw [← same,rank_inj sorted inItems member equal]
  · rintro ⟨⟨inside,first⟩,keyApart⟩
    exact ⟨⟨inside,fun equal => keyApart (congrArg key (rank_inj sorted inside member equal))⟩,
      fun c inRest same => first c inRest.1 same⟩

/-- Removing a listed item moves its key to the place of its next item. -/
theorem firsts_remove_first (sorted : items.Pairwise fun a b => rank a < rank b) {a next : α} (member : a ∈ items)
    (nextIn : next ∈ items) (sameKey : key next = key a) (apart : rank next ≠ rank a)
    (first : ∀ b ∈ items, key b = key a → rank b ≠ rank a → rank next ≤ rank b) :
    firsts key (items.filter fun b => rank b != rank a) =
      place rank next ((firsts key items).filter fun b => key b != key a) := by
  have rest := sorted.filter fun b => rank b != rank a
  have others := (firsts_sorted key sorted).filter fun b => key b != key a
  have fresh : ∀ b ∈ (firsts key items).filter fun b => key b != key a, rank b ≠ rank next := by
    intro b listed same
    obtain ⟨inFirsts,keyApart⟩ := List.mem_filter.mp listed
    rw [rank_inj sorted ((firsts_sublist key items).subset inFirsts) nextIn same,bne_iff_ne] at keyApart
    exact keyApart sameKey
  refine sorted_ext (firsts_sorted key rest) (place_sorted others fresh) fun b => ?_
  simp only [mem_firsts rest,mem_place,List.mem_filter,mem_firsts sorted,bne_iff_ne,ne_eq]
  constructor
  · rintro ⟨⟨inside,apartB⟩,least⟩
    by_cases same : key b = key a
    · have := first b inside same apartB
      have := least next ⟨nextIn,apart⟩ (sameKey.trans same.symm)
      exact .inl (rank_inj sorted inside nextIn (by omega))
    · refine .inr ⟨⟨inside,fun c inItems equal => least c ⟨inItems,fun equalRank => same ?_⟩ equal⟩,same⟩
      rw [← equal,rank_inj sorted inItems member equalRank]
  · rintro (rfl | ⟨⟨inside,least⟩,keyApart⟩)
    · exact ⟨⟨nextIn,apart⟩,fun c inRest same => first c inRest.1 (same.trans sameKey) inRest.2⟩
    · exact ⟨⟨inside,fun equal => keyApart (congrArg key (rank_inj sorted inside member equal))⟩,
        fun c inRest same => least c inRest.1 same⟩

end Firsts

end S2Script.ListIndex
