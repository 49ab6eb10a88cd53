import Mathlib

/-! Linear probing in a table that only grows. An entry lies on the probe path of its home,
behind occupied slots; so a search that meets a free slot has seen every entry it could find,
and in a table that is not full it ends. -/
namespace S2Script.Probing

variable {α β : Type}

/-- What a probe sees in a slot. -/
inductive Cell (β : Type) where
  | hit (found : β)
  | miss
  | free

inductive Found (β : Type) where
  | hit (found : β)
  | free (index : Nat)

/-- Probe from an index on. No result is a search that has used up its fuel. -/
def search (look : Nat → Cell β) (size : Nat) : Nat → Nat → Option (Found β)
  | 0, _ => none
  | fuel + 1, index =>
    match look index with
    | .hit found => some (.hit found)
    | .free => some (.free index)
    | .miss => search look size fuel ((index + 1) % size)

/-- How a search from an index ends after so many misses. -/
inductive Ends (look : Nat → Cell β) (size start fuel : Nat) : Option (Found β) → Prop where
  | hit (d : Nat) (b : β) (near : d < fuel) (found : look ((start + d) % size) = .hit b)
      (misses : ∀ e < d, look ((start + e) % size) = .miss) : Ends look size start fuel (some (.hit b))
  | free (d : Nat) (near : d < fuel) (found : look ((start + d) % size) = .free)
      (misses : ∀ e < d, look ((start + e) % size) = .miss) :
      Ends look size start fuel (some (.free ((start + d) % size)))
  | out (misses : ∀ e < fuel, look ((start + e) % size) = .miss) : Ends look size start fuel none

theorem search_ends (look : Nat → Cell β) (size start fuel : Nat) :
    Ends look size start fuel (search look size fuel (start % size)) := by
  induction fuel generalizing start with
  | zero => exact .out fun e before => absurd before (Nat.not_lt_zero e)
  | succ fuel ih =>
    have next : (start % size + 1) % size = (start + 1) % size := by simp
    have shift : ∀ d, start + 1 + d = start + (d + 1) := by omega
    have later : ∀ {d}, look (start % size) = .miss → (∀ e < d, look ((start + 1 + e) % size) = .miss) →
        ∀ e < d + 1, look ((start + e) % size) = .miss := by
      intro d first misses e before
      cases e with
      | zero => exact first
      | succ e => exact shift e ▸ misses e (by omega)
    rw [search]
    cases seen : look (start % size) with
    | hit b => exact .hit 0 b (Nat.succ_pos _) seen fun e before => absurd before (Nat.not_lt_zero e)
    | free => exact .free 0 (Nat.succ_pos _) seen fun e before => absurd before (Nat.not_lt_zero e)
    | miss =>
      simp only [next]
      have ends := ih (start + 1)
      generalize search look size fuel ((start + 1) % size) = result at ends ⊢
      cases ends with
      | hit d b near found misses => exact .hit (d + 1) b (by omega) (shift d ▸ found) (later seen misses)
      | free d near found misses =>
        rw [shift] at found ⊢
        exact .free (d + 1) (by omega) found (later seen misses)
      | out misses => exact .out (later seen misses)

variable {size : Nat} {home slot : α → Nat} {entries : List α}

/-- Every entry is reached from its home over occupied slots. -/
structure Placed (size : Nat) (home slot : α → Nat) (entries : List α) : Prop where
  slots : (entries.map slot).Nodup
  bound : ∀ a ∈ entries, slot a < size
  path : ∀ a ∈ entries, ∃ d, slot a = (home a + d) % size ∧ ∀ e < d, ∃ b ∈ entries, slot b = (home a + e) % size

theorem Placed.nil : Placed size home slot [] := ⟨List.nodup_nil,by simp,by simp⟩

/-- An entry put into the free slot that ends its probe path. -/
theorem Placed.append (placed : Placed size home slot entries) {a : α} {d : Nat} (positive : 0 < size)
    (reached : slot a = (home a + d) % size) (occupied : ∀ e < d, ∃ b ∈ entries, slot b = (home a + e) % size)
    (free : ∀ b ∈ entries, slot b ≠ slot a) : Placed size home slot (entries ++ [a]) where
  slots := by
    rw [List.map_append]
    refine List.nodup_append.mpr ⟨placed.slots,by simp,?_⟩
    intro i old j new
    obtain ⟨b,member,rfl⟩ := List.mem_map.mp old
    rw [List.mem_singleton.mp new]
    exact free b member
  bound b member := by
    rcases List.mem_append.mp member with old | new
    · exact placed.bound b old
    · rw [List.mem_singleton.mp new,reached]
      exact Nat.mod_lt _ positive
  path b member := by
    have grown : ∀ {i}, (∃ c ∈ entries, slot c = i) → ∃ c ∈ entries ++ [a], slot c = i :=
      fun ⟨c,inside,same⟩ => ⟨c,List.mem_append_left _ inside,same⟩
    rcases List.mem_append.mp member with old | new
    · obtain ⟨d,same,before⟩ := placed.path b old
      exact ⟨d,same,fun e near => grown (before e near)⟩
    · rw [List.mem_singleton.mp new]
      exact ⟨d,reached,fun e near => grown (occupied e near)⟩

/-- What the probes of one search see, against the entries. -/
structure Reads (size : Nat) (slot : α → Nat) (entries : List α) (look : Nat → Cell β) (same : α → Prop)
    (out : α → β) : Prop where
  hit : ∀ a ∈ entries, same a → look (slot a) = .hit (out a)
  miss : ∀ a ∈ entries, ¬same a → look (slot a) = .miss
  free : ∀ i < size, (∀ a ∈ entries, slot a ≠ i) → look i = .free

variable {look : Nat → Cell β} {same : α → Prop} {out : α → β}

variable (slot) in
/-- A table that is not full has a free slot within its size. -/
theorem not_full (room : entries.length < size) (start : Nat) :
    ∃ d < size, ∀ a ∈ entries, slot a ≠ (start + d) % size := by
  by_contra full
  have covered : ∀ d < size, ∃ a ∈ entries, slot a = (start + d) % size := by simpa using full
  have distinct : ((List.range size).map fun d => (start + d) % size).Nodup := by
    refine List.Nodup.map_on (fun d member e inside equal => ?_) List.nodup_range
    rw [List.mem_range] at member inside
    have congruent : d ≡ e [MOD size] := Nat.ModEq.add_left_cancel' start equal
    rwa [Nat.ModEq,Nat.mod_eq_of_lt member,Nat.mod_eq_of_lt inside] at congruent
  have inside : ((List.range size).map fun d => (start + d) % size) ⊆ entries.map slot := by
    intro i member
    obtain ⟨d,below,rfl⟩ := List.mem_map.mp member
    obtain ⟨a,held,here⟩ := covered d (List.mem_range.mp below)
    exact List.mem_map.mpr ⟨a,held,here⟩
  have length := (List.subperm_of_subset distinct inside).length_le
  simp only [List.length_map,List.length_range] at length
  omega

/-- A search of the whole table finds the entry that is meant, or the free slot where it would lie. -/
theorem Placed.search (placed : Placed size home slot entries) (reads : Reads size slot entries look same out)
    (room : entries.length < size) (start : Nat) (homes : ∀ a ∈ entries, same a → home a = start) :
    (∃ a ∈ entries, same a ∧ Probing.search look size size (start % size) = some (.hit (out a))) ∨
      ∃ d, Probing.search look size size (start % size) = some (.free ((start + d) % size)) ∧
        (∀ a ∈ entries, ¬same a) ∧ (∀ a ∈ entries, slot a ≠ (start + d) % size) ∧
        ∀ e < d, ∃ b ∈ entries, slot b = (start + e) % size := by
  have positive : 0 < size := by omega
  have occupied : ∀ {i}, i < size → look i ≠ .free → ∃ a ∈ entries, slot a = i := by
    intro i below taken
    by_contra none
    exact taken (reads.free i below (by simpa using none))
  have below : ∀ d, (start + d) % size < size := fun d => Nat.mod_lt _ positive
  have ends := search_ends look size start size
  generalize Probing.search look size size (start % size) = result at ends ⊢
  cases ends with
  | hit d b near found misses =>
    obtain ⟨a,member,here⟩ := occupied (below d) (by simp [found])
    by_cases meant : same a
    · have seen := reads.hit a member meant
      rw [here,found] at seen
      exact .inl ⟨a,member,meant,by rw [Cell.hit.inj seen]⟩
    · have seen := reads.miss a member meant
      rw [here,found] at seen
      cases seen
  | free d near found misses =>
    have vacant : ∀ a ∈ entries, slot a ≠ (start + d) % size := by
      intro a member here
      by_cases meant : same a
      · have seen := reads.hit a member meant
        rw [here,found] at seen
        cases seen
      · have seen := reads.miss a member meant
        rw [here,found] at seen
        cases seen
    refine .inr ⟨d,rfl,fun a member meant => ?_,vacant,fun e before => occupied (below e) (by simp [misses e before])⟩
    -- the entry would lie before the free slot, where every probe missed, or behind it
    obtain ⟨k,here,path⟩ := placed.path a member
    rw [homes a member meant] at here path
    rcases Nat.lt_trichotomy k d with before | rfl | after
    · have seen := reads.hit a member meant
      rw [here,misses k before] at seen
      cases seen
    · exact vacant a member here
    · obtain ⟨b,held,there⟩ := path d after
      exact vacant b held there
  | out misses =>
    obtain ⟨d,near,vacant⟩ := not_full slot room start
    have seen := reads.free _ (below d) vacant
    rw [misses d near] at seen
    cases seen

end S2Script.Probing
