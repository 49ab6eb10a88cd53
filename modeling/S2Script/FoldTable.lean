import S2Script.Table

/-! Rules of several owners, at most one value for an owner and a key. What holds at a key is
what every owner's value there folds to: an owner narrows what another allows and never widens
it. The order in which the owners are visited is nobody's business, so the results speak of
what the fold keeps and not of the order. -/
namespace S2Script

/-- How two owners' values at one key combine. -/
class AndFold (V : Type) where
  andFold : V → V → V

instance {width : Nat} : AndFold (BitVec width) := ⟨fun mask other => mask &&& other⟩

/-- `owner -> (key -> value)`. -/
structure FoldTable (K V : Type) where
  owners : Table String (Table K V)

namespace FoldTable

variable {K V : Type} [DecidableEq K]

def new : FoldTable K V := ⟨∅⟩

def insert (table : FoldTable K V) (owner : String) (key : K) (value : V) : FoldTable K V :=
  ⟨table.owners.insert owner (((table.owners.lookup owner).getD ∅).insert key value)⟩

def get (table : FoldTable K V) (owner : String) (key : K) : Option V :=
  (table.owners.lookup owner).bind fun rules => rules.lookup key

/-- Drop one rule, and the owner with its last one. -/
def remove (table : FoldTable K V) (owner : String) (key : K) : FoldTable K V × Option V :=
  match table.owners.lookup owner with
  | none => (table,none)
  | some rules =>
    let left := rules.erase key
    (⟨if Table.size left = 0 then table.owners.erase owner else table.owners.insert owner left⟩,rules.lookup key)

/-- Drop every rule of an owner; the keys it had come back. -/
def removeOwner (table : FoldTable K V) (owner : String) : FoldTable K V × List K :=
  (⟨table.owners.erase owner⟩,((table.owners.lookup owner).map AList.keys).getD [])

/-- Drop every owner's rule for a key, and say whether there was one. -/
def clearKey (table : FoldTable K V) (key : K) : FoldTable K V × Bool :=
  (⟨table.owners.mapValues fun _ rules => rules.erase key⟩,
    table.owners.values.any fun rules => (rules.lookup key).isSome)

/-- Drop the values at a key that are stale. -/
def evictAt (table : FoldTable K V) (key : K) (stale : V → Bool) : FoldTable K V :=
  ⟨table.owners.mapValues fun _ rules =>
    if (rules.lookup key).any stale then rules.erase key else rules⟩

@[simp] theorem get_new (owner : String) (key : K) : (new : FoldTable K V).get owner key = none := rfl

theorem get_insert (table : FoldTable K V) (owner other : String) (key found : K) (value : V) :
    (table.insert owner key value).get other found =
      if other = owner ∧ found = key then some value else table.get other found := by
  simp only [get,insert,Table.lookup_insert_eq]
  by_cases same : other = owner
  · subst same
    simp only [if_true,Option.bind_some,Table.lookup_insert_eq,true_and]
    split
    · rfl
    · cases table.owners.lookup other <;> simp
  · simp [same]

theorem get_remove (table : FoldTable K V) (owner other : String) (key found : K) :
    (table.remove owner key).1.get other found =
      if other = owner ∧ found = key then none else table.get other found := by
  simp only [get,remove]
  cases held : table.owners.lookup owner with
  | none =>
    by_cases same : other = owner
    · subst same
      simp [held]
    · simp [same]
  | some rules =>
    by_cases same : other = owner
    · subst same
      have erased := Table.lookup_erase_eq rules key found
      by_cases last : Table.size (rules.erase key) = 0
      · have empty : (rules.erase key).lookup found = none := by
          rw [Table.size,List.length_eq_zero_iff] at last
          rw [AList.lookup,last]
          rfl
        simp only [last,if_true,Table.lookup_erase_eq,Option.bind_none,true_and,held,Option.bind_some]
        rw [empty] at erased
        split at erased
        next here => rw [if_pos here]
        next elsewhere => rw [if_neg elsewhere,erased]
      · simp only [last,if_false,Table.lookup_insert_eq,if_true,Option.bind_some,true_and,held]
        exact erased
    · simp only [same,false_and,if_false]
      split
      · rw [Table.lookup_erase_eq,if_neg same]
      · rw [Table.lookup_insert_eq,if_neg same]

theorem remove_removed (table : FoldTable K V) (owner : String) (key : K) :
    (table.remove owner key).2 = table.get owner key := by
  simp only [remove,get]
  cases table.owners.lookup owner <;> rfl

theorem get_removeOwner (table : FoldTable K V) (owner other : String) (key : K) :
    (table.removeOwner owner).1.get other key = if other = owner then none else table.get other key := by
  simp only [get,removeOwner,Table.lookup_erase_eq]
  split <;> rfl

theorem mem_removeOwner (table : FoldTable K V) (owner : String) (key : K) :
    key ∈ (table.removeOwner owner).2 ↔ ∃ value, table.get owner key = some value := by
  simp only [removeOwner,get]
  cases table.owners.lookup owner with
  | none => simp
  | some rules => simpa [AList.mem_keys] using Table.mem_iff rules key

theorem removeOwner_nodup (table : FoldTable K V) (owner : String) : (table.removeOwner owner).2.Nodup := by
  simp only [removeOwner]
  cases table.owners.lookup owner with
  | none => exact List.nodup_nil
  | some rules => exact AList.keys_nodup rules

theorem get_clearKey (table : FoldTable K V) (owner : String) (key found : K) :
    (table.clearKey key).1.get owner found = if found = key then none else table.get owner found := by
  simp only [get,clearKey,Table.lookup_mapValues]
  cases table.owners.lookup owner <;> simp [Table.lookup_erase_eq]

theorem clearKey_any (table : FoldTable K V) (key : K) :
    (table.clearKey key).2 = true ↔ ∃ owner value, table.get owner key = some value := by
  simp only [clearKey,List.any_eq_true,get,Option.isSome_iff_exists,Table.mem_values,Option.bind_eq_some_iff]
  constructor
  · rintro ⟨rules,⟨owner,held⟩,value,here⟩
    exact ⟨owner,value,rules,held,here⟩
  · rintro ⟨owner,value,rules,held,here⟩
    exact ⟨rules,⟨owner,held⟩,value,here⟩

theorem get_evictAt (table : FoldTable K V) (owner : String) (key found : K) (stale : V → Bool) :
    (table.evictAt key stale).get owner found =
      if found = key then (table.get owner key).filter fun value => !stale value else table.get owner found := by
  simp only [get,evictAt,Table.lookup_mapValues]
  cases table.owners.lookup owner with
  | none => simp
  | some rules =>
    simp only [Option.map_some,Option.bind_some]
    by_cases same : found = key
    · subst same
      cases here : rules.lookup found with
      | none => simp [here]
      | some value => cases dropped : stale value <;> simp [dropped,here,Option.filter]
    · split <;> simp [same]

/-- The values that stand at a key. -/
def rulesAt (table : FoldTable K V) (key : K) : List V := table.owners.values.filterMap fun rules => rules.lookup key

theorem mem_rulesAt (table : FoldTable K V) (key : K) (value : V) :
    value ∈ table.rulesAt key ↔ ∃ owner, table.get owner key = some value := by
  simp only [rulesAt,List.mem_filterMap,Table.mem_values,get,Option.bind_eq_some_iff]
  constructor
  · rintro ⟨rules,⟨owner,held⟩,here⟩
    exact ⟨owner,rules,held,here⟩
  · rintro ⟨owner,rules,held,here⟩
    exact ⟨rules,⟨owner,held⟩,here⟩

/-- The rules a fold with a seed takes in. -/
def othersAt (table : FoldTable K V) (owner : String) (key : K) (included : V → Bool) : List V :=
  table.owners.entries.filterMap fun entry => if entry.1 = owner then none else (entry.2.lookup key).filter included

theorem mem_othersAt (table : FoldTable K V) (owner : String) (key : K) (included : V → Bool) (value : V) :
    value ∈ table.othersAt owner key included ↔
      ∃ other, other ≠ owner ∧ table.get other key = some value ∧ included value = true := by
  simp only [othersAt,List.mem_filterMap,get,Option.bind_eq_some_iff,Table.lookup_iff_entry table.owners]
  constructor
  · rintro ⟨⟨other,rules⟩,entry,here⟩
    split at here
    · contradiction
    · rw [Option.filter_eq_some_iff] at here
      exact ⟨other,‹_›,⟨rules,entry,here.1⟩,here.2⟩
  · rintro ⟨other,different,⟨rules,entry,here⟩,taken⟩
    exact ⟨⟨other,rules⟩,entry,by simp [different,here,Option.filter,taken]⟩

variable [AndFold V]

/-- One more value into what has been folded so far. -/
def absorb : Option V → Option V → Option V
  | folded,none => folded
  | none,some value => some value
  | some folded,some value => some (AndFold.andFold folded value)

/-- Every owner's value at a key, folded; nothing where no owner has a rule. -/
def merged (table : FoldTable K V) (key : K) : Option V :=
  table.owners.values.foldl (fun folded rules => absorb folded (rules.lookup key)) none

/-- The seed, folded with the other owners' values at a key that are taken in. -/
def foldExcept (table : FoldTable K V) (owner : String) (key : K) (seed : V) (included : V → Bool) : V :=
  table.owners.entries.foldl (fun folded entry =>
    if entry.1 = owner then folded
    else match entry.2.lookup key with
      | none => folded
      | some value => if included value then AndFold.andFold folded value else folded) seed

theorem merged_eq_rulesAt (table : FoldTable K V) (key : K) :
    table.merged key = (table.rulesAt key).foldl (fun folded value => absorb folded (some value)) none := by
  rw [merged,rulesAt]
  generalize (none : Option V) = folded
  induction table.owners.values generalizing folded with
  | nil => rfl
  | cons rules rest ih =>
    rw [List.foldl_cons,ih]
    cases here : rules.lookup key with
    | none => simp [here,absorb]
    | some value => simp [here]

/-- Folding starts with the first value and never comes back to nothing. -/
theorem foldl_absorb (values : List V) (folded : V) :
    values.foldl (fun folded value => absorb folded (some value)) (some folded) =
      some (values.foldl AndFold.andFold folded) := by
  induction values generalizing folded with
  | nil => rfl
  | cons value rest ih =>
    rw [List.foldl_cons,List.foldl_cons,absorb]
    exact ih _

theorem merged_cases (table : FoldTable K V) (key : K) :
    table.rulesAt key = [] ∧ table.merged key = none ∨
      ∃ first rest, table.rulesAt key = first :: rest ∧ table.merged key = some (rest.foldl AndFold.andFold first) := by
  rw [merged_eq_rulesAt]
  cases table.rulesAt key with
  | nil => exact .inl ⟨rfl,rfl⟩
  | cons first rest => exact .inr ⟨first,rest,rfl,foldl_absorb rest first⟩

/-- No rule is nothing, and nothing else is. -/
theorem merged_eq_none_iff (table : FoldTable K V) (key : K) :
    table.merged key = none ↔ ∀ owner, table.get owner key = none := by
  have none_iff : (∀ owner, table.get owner key = none) ↔ table.rulesAt key = [] := by
    simp only [List.eq_nil_iff_forall_not_mem,mem_rulesAt,not_exists,Option.eq_none_iff_forall_ne_some]
    exact forall_comm
  rw [none_iff]
  rcases merged_cases table key with ⟨empty,folded⟩ | ⟨first,rest,more,folded⟩
  · simp [empty,folded]
  · simp [more,folded]

section

variable {holds : V → Prop}

theorem foldl_of_all (closed : ∀ value other, holds value → holds other → holds (AndFold.andFold value other))
    (values : List V) (seed : V) (first : holds seed) (rest : ∀ value ∈ values, holds value) :
    holds (values.foldl AndFold.andFold seed) := by
  induction values generalizing seed with
  | nil => exact first
  | cons value others ih =>
    simp only [List.mem_cons,forall_eq_or_imp] at rest
    exact ih _ (closed _ _ first rest.1) rest.2

theorem foldl_all_iff (splits : ∀ value other, holds (AndFold.andFold value other) ↔ holds value ∧ holds other)
    (values : List V) (seed : V) :
    holds (values.foldl AndFold.andFold seed) ↔ holds seed ∧ ∀ value ∈ values, holds value := by
  induction values generalizing seed with
  | nil => simp
  | cons value rest ih =>
    rw [List.foldl_cons,ih,splits]
    simp [and_assoc]

/-- What two values pass on to their fold, all rules pass on to theirs. -/
theorem merged_of_all (closed : ∀ value other, holds value → holds other → holds (AndFold.andFold value other))
    {table : FoldTable K V} {key : K} {value : V} (folded : table.merged key = some value)
    (all : ∀ owner rule, table.get owner key = some rule → holds rule) : holds value := by
  have members : ∀ rule ∈ table.rulesAt key, holds rule := by
    intro rule member
    obtain ⟨owner,here⟩ := (mem_rulesAt table key rule).mp member
    exact all owner rule here
  rcases merged_cases table key with ⟨_,empty⟩ | ⟨first,rest,more,here⟩
  · rw [empty] at folded
    contradiction
  · rw [here] at folded
    rw [more,List.forall_mem_cons] at members
    rw [← Option.some.inj folded]
    exact foldl_of_all closed rest first members.1 members.2

/-- What a fold has just when both of its values do, a merge has just when every rule does. -/
theorem merged_all_iff (splits : ∀ value other, holds (AndFold.andFold value other) ↔ holds value ∧ holds other)
    {table : FoldTable K V} {key : K} {value : V} (folded : table.merged key = some value) :
    holds value ↔ ∀ owner rule, table.get owner key = some rule → holds rule := by
  have members : (∀ owner rule, table.get owner key = some rule → holds rule) ↔
      ∀ rule ∈ table.rulesAt key, holds rule := by
    simp only [mem_rulesAt,forall_exists_index]
    exact forall_comm
  rw [members]
  rcases merged_cases table key with ⟨_,empty⟩ | ⟨first,rest,more,here⟩
  · rw [empty] at folded
    contradiction
  · rw [here] at folded
    rw [← Option.some.inj folded,foldl_all_iff splits,more,List.forall_mem_cons]

theorem foldExcept_eq_othersAt (table : FoldTable K V) (owner : String) (key : K) (seed : V) (included : V → Bool) :
    table.foldExcept owner key seed included = (table.othersAt owner key included).foldl AndFold.andFold seed := by
  rw [foldExcept,othersAt]
  induction table.owners.entries generalizing seed with
  | nil => rfl
  | cons entry rest ih =>
    rw [List.foldl_cons,ih]
    by_cases same : entry.1 = owner
    · simp [same]
    · cases here : entry.2.lookup key with
      | none => simp [same,here]
      | some value => cases taken : included value <;> simp [same,here,taken,Option.filter]

theorem foldExcept_of_all
    (closed : ∀ value other, holds value → holds other → holds (AndFold.andFold value other))
    {table : FoldTable K V} {owner : String} {key : K} {seed : V} {included : V → Bool} (first : holds seed)
    (all : ∀ other rule, other ≠ owner → table.get other key = some rule → included rule = true → holds rule) :
    holds (table.foldExcept owner key seed included) := by
  rw [foldExcept_eq_othersAt]
  refine foldl_of_all closed _ _ first fun rule member => ?_
  obtain ⟨other,different,here,taken⟩ := (mem_othersAt table owner key included rule).mp member
  exact all other rule different here taken

theorem foldExcept_all_iff
    (splits : ∀ value other, holds (AndFold.andFold value other) ↔ holds value ∧ holds other)
    (table : FoldTable K V) (owner : String) (key : K) (seed : V) (included : V → Bool) :
    holds (table.foldExcept owner key seed included) ↔
      holds seed ∧ ∀ other rule, other ≠ owner → table.get other key = some rule → included rule = true → holds rule := by
  rw [foldExcept_eq_othersAt,foldl_all_iff splits]
  refine and_congr_right fun _ => ?_
  simp only [mem_othersAt]
  constructor
  · intro all other rule different here taken
    exact all rule ⟨other,different,here,taken⟩
  · rintro all rule ⟨other,different,here,taken⟩
    exact all other rule different here taken

end

end FoldTable

end S2Script
