import Mathlib

/-! Finite maps with a weight. A bounded table charges every entry it holds; the
lemmas here say what inserting, erasing and retaining do to the total. -/
namespace S2Script

/-- A finite map whose entries carry no key twice. -/
abbrev Table (K V : Type) := AList fun _ : K => V

namespace Table

variable {K V W : Type}

/-- Number of keys. -/
def size (table : Table K V) : Nat := table.entries.length

/-- Total charge of the entries. -/
def weight (charge : K → V → Nat) (table : Table K V) : Nat :=
  (table.entries.map fun entry => charge entry.1 entry.2).sum

/-- Keep the entries that pass. -/
def retain (keep : K → V → Bool) (table : Table K V) : Table K V where
  entries := table.entries.filter fun entry => keep entry.1 entry.2
  nodupKeys := table.nodupKeys.sublist List.filter_sublist

/-- Change every value, keeping the keys. -/
def mapValues (change : K → V → W) (table : Table K V) : Table K W where
  entries := table.entries.map fun entry => ⟨entry.1,change entry.1 entry.2⟩
  nodupKeys := by
    have keys : (table.entries.map fun entry => (⟨entry.1,change entry.1 entry.2⟩ : Sigma fun _ : K => W)).keys
        = table.entries.keys := by simp [List.keys]
    rw [List.NodupKeys,keys]
    exact table.nodupKeys

/-- The values, in the order of their entries. -/
def values (table : Table K V) : List V := table.entries.map fun entry => entry.2

@[simp] theorem values_empty : values (∅ : Table K V) = [] := rfl

theorem values_retain (keep : K → V → Bool) (table : Table K V) : (retain keep table).values.Sublist table.values :=
  List.filter_sublist.map _

@[simp] theorem size_empty : size (∅ : Table K V) = 0 := rfl

@[simp] theorem weight_empty (charge : K → V → Nat) : weight charge (∅ : Table K V) = 0 := rfl

theorem size_retain_le (keep : K → V → Bool) (table : Table K V) : size (retain keep table) ≤ size table :=
  List.length_filter_le _ _

theorem weight_retain_le (charge : K → V → Nat) (keep : K → V → Bool) (table : Table K V) :
    weight charge (retain keep table) ≤ weight charge table :=
  (List.filter_sublist.map _).sum_le_sum (by simp)

@[simp] theorem size_mapValues (change : K → V → W) (table : Table K V) :
    size (mapValues change table) = size table := by simp [size,mapValues]

variable [DecidableEq K]

theorem lookup_insert_eq (table : Table K V) (key other : K) (value : V) :
    (table.insert key value).lookup other = if other = key then some value else table.lookup other := by
  by_cases same : other = key
  · subst same
    simp
  · simp [AList.lookup_insert_ne same,same]

theorem lookup_insert_cases {table : Table K V} {key other : K} {value found : V}
    (here : (table.insert key value).lookup other = some found) :
    other = key ∧ found = value ∨ other ≠ key ∧ table.lookup other = some found := by
  rw [lookup_insert_eq] at here
  split at here
  next same => exact .inl ⟨same,(Option.some.inj here).symm⟩
  next different => exact .inr ⟨different,here⟩

theorem lookup_erase_eq (table : Table K V) (key other : K) :
    (table.erase key).lookup other = if other = key then none else table.lookup other := by
  by_cases same : other = key
  · subst same
    simp
  · simp [AList.lookup_erase_ne same,same]

theorem mem_iff (table : Table K V) (key : K) : key ∈ table ↔ ∃ value, table.lookup key = some value := by
  rw [← AList.lookup_isSome,Option.isSome_iff_exists]

theorem mem_of_lookup {table : Table K V} {key : K} {value : V} (here : table.lookup key = some value) :
    key ∈ table := (mem_iff table key).mpr ⟨value,here⟩

theorem lookup_of_mem {table : Table K V} {key : K} (member : key ∈ table) :
    ∃ value, table.lookup key = some value := (mem_iff table key).mp member

theorem lookup_iff_entry (table : Table K V) (key : K) (value : V) :
    table.lookup key = some value ↔ (⟨key,value⟩ : Sigma fun _ : K => V) ∈ table.entries :=
  AList.mem_lookup_iff

theorem size_insert_new {table : Table K V} {key : K} (absent : key ∉ table) (value : V) :
    size (table.insert key value) = size table + 1 := by
  rw [size,AList.entries_insert_of_notMem absent,List.length_cons,size]

theorem weight_insert_new (charge : K → V → Nat) {table : Table K V} {key : K} (absent : key ∉ table)
    (value : V) : weight charge (table.insert key value) = weight charge table + charge key value := by
  rw [weight,AList.entries_insert_of_notMem absent,List.map_cons,List.sum_cons,weight,Nat.add_comm]

theorem entries_erase_perm {table : Table K V} {key : K} {value : V}
    (here : table.lookup key = some value) :
    table.entries.Perm (⟨key,value⟩ :: (table.erase key).entries) := by
  obtain ⟨found,before,after,_,split,erased⟩ := List.exists_of_kerase (mem_of_lookup here)
  have entry : (⟨key,found⟩ : Sigma fun _ : K => V) ∈ table.entries := by simp [split]
  have same : found = value := by
    have := (lookup_iff_entry table key found).mpr entry
    rw [here] at this
    exact (Option.some.inj this).symm
  subst same
  have erasedEntries : (table.erase key).entries = before ++ after := erased
  rw [erasedEntries,split]
  exact List.perm_middle

theorem size_erase {table : Table K V} {key : K} {value : V} (here : table.lookup key = some value) :
    size table = size (table.erase key) + 1 := by
  simpa [size] using (entries_erase_perm here).length_eq

theorem weight_erase (charge : K → V → Nat) {table : Table K V} {key : K} {value : V}
    (here : table.lookup key = some value) :
    weight charge table = weight charge (table.erase key) + charge key value := by
  have same := ((entries_erase_perm here).map fun entry => charge entry.1 entry.2).sum_eq
  simp only [List.map_cons,List.sum_cons] at same
  rw [weight,same,Nat.add_comm]
  rfl

theorem erase_of_absent {table : Table K V} {key : K} (absent : key ∉ table) : table.erase key = table := by
  apply AList.ext
  exact List.kerase_of_notMem_keys absent

theorem insert_erase (table : Table K V) (key : K) (value : V) :
    (table.erase key).insert key value = table.insert key value := by
  apply AList.ext
  have absent : key ∉ table.erase key := by simp [AList.mem_erase]
  rw [AList.entries_insert_of_notMem absent,AList.entries_insert]
  rfl

theorem weight_insert_erase (charge : K → V → Nat) (table : Table K V) (key : K) (value : V) :
    weight charge (table.insert key value) = weight charge (table.erase key) + charge key value := by
  rw [← insert_erase]
  exact weight_insert_new charge (by simp [AList.mem_erase]) value

/-- What erasing a key releases. -/
theorem weight_split (charge : K → V → Nat) (table : Table K V) (key : K) :
    weight charge table = weight charge (table.erase key) + ((table.lookup key).map (charge key)).getD 0 := by
  cases here : table.lookup key with
  | none => simp [erase_of_absent (AList.lookup_eq_none.mp here)]
  | some value => simpa using weight_erase charge here

/-- What changing the value of a key does. -/
theorem weight_change (charge : K → V → Nat) {table : Table K V} {key : K} {value : V}
    (here : table.lookup key = some value) (changed : V) :
    weight charge (table.insert key changed) + charge key value = weight charge table + charge key changed := by
  rw [weight_insert_erase,weight_erase charge here]
  omega

theorem charge_le_weight (charge : K → V → Nat) {table : Table K V} {key : K} {value : V}
    (here : table.lookup key = some value) : charge key value ≤ weight charge table := by
  rw [weight_erase charge here]
  exact Nat.le_add_left _ _

theorem size_erase_le (table : Table K V) (key : K) : size (table.erase key) ≤ size table := by
  cases here : table.lookup key with
  | none => rw [erase_of_absent (AList.lookup_eq_none.mp here)]
  | some value =>
    rw [size_erase here]
    exact Nat.le_succ _

theorem lookup_retain (keep : K → V → Bool) (table : Table K V) (key : K) :
    (retain keep table).lookup key = (table.lookup key).filter (keep key) := by
  apply Option.ext
  intro value
  simp [lookup_iff_entry,retain,Option.filter_eq_some_iff]

theorem lookup_mapValues (change : K → V → W) (table : Table K V) (key : K) :
    (mapValues change table).lookup key = (table.lookup key).map (change key) := by
  apply Option.ext
  intro value
  simp only [lookup_iff_entry,mapValues,List.mem_map,Option.map_eq_some_iff]
  constructor
  · rintro ⟨⟨found,old⟩,entry,same⟩
    simp only [Sigma.mk.injEq,heq_eq_eq] at same
    obtain ⟨rfl,rfl⟩ := same
    exact ⟨old,entry,rfl⟩
  · rintro ⟨old,entry,rfl⟩
    exact ⟨⟨key,old⟩,entry,rfl⟩

theorem mem_values (table : Table K V) (value : V) : value ∈ table.values ↔ ∃ key, table.lookup key = some value := by
  simp only [values,List.mem_map,lookup_iff_entry]
  constructor
  · rintro ⟨⟨key,found⟩,entry,rfl⟩
    exact ⟨key,entry⟩
  · rintro ⟨key,entry⟩
    exact ⟨_,entry,rfl⟩

/-- Values that name their keys are as distinct as these. -/
theorem values_map_names {table : Table K V} {name : V → K} (named : ∀ key value, table.lookup key = some value → name value = key) :
    table.values.map name = table.keys := by
  rw [values,List.map_map]
  refine List.map_congr_left fun entry member => named entry.1 entry.2 ?_
  exact (lookup_iff_entry table entry.1 entry.2).mpr member

theorem values_erase (table : Table K V) (key : K) : (values (table.erase key)).Sublist table.values :=
  (List.kerase_sublist key table.entries).map _

theorem values_erase_perm {table : Table K V} {key : K} {value : V} (here : table.lookup key = some value) :
    table.values.Perm (value :: values (table.erase key)) :=
  (entries_erase_perm here).map _

theorem values_insert (table : Table K V) (key : K) (value : V) :
    values (table.insert key value) = value :: values (table.erase key) := by
  rw [values,AList.entries_insert]
  rfl

/-- A loop over the entries. -/
def visit {S : Type} (step : S → K → V → S) (table : Table K V) (state : S) : S :=
  table.entries.foldl (fun state entry => step state entry.1 entry.2) state

/-- Every key is visited once: what only the visit of one key changes, the loop changes as that visit does. -/
theorem visit_view {S X : Type} (step : S → K → V → S) (view : S → X) (change : V → X → X) (key : K)
    (changes : ∀ state value, view (step state key value) = change value (view state))
    (frame : ∀ state other value, other ≠ key → view (step state other value) = view state)
    (table : Table K V) (state : S) :
    view (visit step table state) = (table.lookup key).elim (view state) fun value => change value (view state) := by
  obtain ⟨entries,nodup⟩ := table
  simp only [visit,AList.lookup]
  induction entries generalizing state with
  | nil => rfl
  | cons entry rest ih =>
    obtain ⟨found,value⟩ := entry
    obtain ⟨fresh,nodupRest⟩ := List.nodupKeys_cons.mp nodup
    rw [List.foldl_cons,ih (step state found value) nodupRest]
    by_cases same : found = key
    · subst same
      rw [List.dlookup_eq_none.mpr fresh,List.dlookup_cons_eq]
      exact changes state value
    · rw [frame state found value same,List.dlookup_cons_ne rest ⟨found,value⟩ fun equal => same equal.symm]

omit [DecidableEq K] in
theorem visit_keeps {S X : Type} (step : S → K → V → S) (view : S → X)
    (keeps : ∀ state key value, view (step state key value) = view state) (table : Table K V) (state : S) :
    view (visit step table state) = view state := by
  simp only [visit]
  generalize table.entries = entries
  induction entries generalizing state with
  | nil => rfl
  | cons entry rest ih => exact (ih _).trans (keeps state entry.1 entry.2)

/-- Put what `pick` makes of the entries into a table. -/
def collectInto (pick : K → V → Option W) (table : Table K V) (start : Table K W) : Table K W :=
  visit (fun found key value => match pick key value with
    | some picked => found.insert key picked
    | none => found) table start

theorem lookup_collectInto (pick : K → V → Option W) (table : Table K V) (start : Table K W) (key : K) :
    (collectInto pick table start).lookup key = ((table.lookup key).bind (pick key)).or (start.lookup key) := by
  have visited := visit_view (fun found key value => match pick key value with
    | some picked => found.insert key picked
    | none => found) (fun found => found.lookup key) (fun value old => (pick key value).or old) key
    (fun found value => by cases pick key value <;> simp)
    (fun found other value different => by
      cases pick other value with
      | none => rfl
      | some picked => simp [Ne.symm different]) table start
  rw [collectInto,visited]
  cases table.lookup key <;> rfl

end Table

end S2Script
