import S2Script.VersionRangesPass

/-! The package.json files after the range pass: an edited file has its ranges replaced and is
otherwise what a write and a read leave of it. -/
namespace S2Script.VersionRanges

section Numbers

mutual

/-- Every number is finite and no negative zero. -/
def steady : Json → Bool
  | .natural n => !exceeds n 0
  | .number negative mantissa exponent => if mantissa = 0 then !negative else !exceeds mantissa exponent
  | .array items => steadyItems items
  | .object members => steadyMembers members
  | _ => true

def steadyItems : List Json → Bool
  | [] => true
  | item :: items => steady item && steadyItems items

def steadyMembers : List (Text × Json) → Bool
  | [] => true
  | (_,value) :: members => steady value && steadyMembers members

end

mutual

/-- A write and a read keep a value whose numbers are steady, and no other. -/
theorem savedJson_eq (value : Json) : savedJson value = value ↔ steady value = true := by
  cases value with
  | null | bool | string => simp [savedJson,steady]
  | natural n =>
    rw [savedJson,steady]
    split <;> simp_all
  | number negative mantissa exponent =>
    rw [savedJson,steady]
    split
    next zero => cases negative <;> simp
    next => split <;> simp_all
  | array items => simpa [savedJson,steady] using savedItems_eq items
  | object members => simpa [savedJson,steady] using savedMembers_eq members

theorem savedItems_eq (items : List Json) : savedItems items = items ↔ steadyItems items = true := by
  match items with
  | [] => simp [savedItems,steadyItems]
  | item :: items =>
    rw [savedItems,steadyItems,List.cons.injEq,Bool.and_eq_true,savedJson_eq item,savedItems_eq items]

theorem savedMembers_eq (members : List (Text × Json)) : savedMembers members = members ↔ steadyMembers members = true := by
  match members with
  | [] => simp [savedMembers,steadyMembers]
  | (key,value) :: members =>
    rw [savedMembers,steadyMembers,List.cons.injEq,Bool.and_eq_true,Prod.mk.injEq,savedJson_eq value,savedMembers_eq members]
    simp

end

def PackageJson.steady (pkg : PackageJson) : Bool :=
  steadyMembers pkg.rest && match pkg.s2script with
    | none => true
    | some s2 => steadyMembers s2.rest && (s2.publishes.all VersionRanges.steady) &&
      match s2.pluginDependencies with
      | none => true
      | some d => steadyMembers d.entries

theorem savedMembers_map (members : List (Text × Json)) : savedMembers members = members.map fun m => (m.1,savedJson m.2) := by
  induction members with
  | nil => rfl
  | cons m rest ih => rw [savedMembers,ih,List.map_cons]

theorem savedJson_string {value : Json} {text : Text} : savedJson value = .string text ↔ value = .string text := by
  cases value with
  | natural n => by_cases exceeds n 0 <;> simp_all [savedJson]
  | number negative mantissa exponent =>
    rw [savedJson]
    split
    next => split <;> simp
    next => split <;> simp
  | _ => simp [savedJson]

end Numbers

section Ranges

/-- A range leaves nothing but that it is there. -/
def unranged : Json → Json
  | .string _ => .null
  | value => value

/-- The dependencies with their ranges left out. -/
def Dependencies.others (d : Dependencies) : List (Text × Json) := d.entries.map fun entry => (entry.1,unranged entry.2)

/-- Every field of a package.json but the ranges of its dependencies. -/
structure Others where
  version : Option Text
  block : Option (Option Json × Option (List (Text × Json)) × List (Text × Json))
  rest : List (Text × Json)

def PackageJson.others (pkg : PackageJson) : Others :=
  ⟨pkg.version,pkg.s2script.map fun s2 => (s2.publishes,s2.pluginDependencies.map Dependencies.others,s2.rest),pkg.rest⟩

theorem Dependencies.ext {d d' : Dependencies} (same : d.entries = d'.entries) : d = d' := by
  cases d
  cases d'
  simp_all

theorem setKey_map {key : Text} {value : Json} {l : List (Text × Json)} (distinct : (l.map Prod.fst).Nodup)
    (member : key ∈ l.map Prod.fst) :
    setKey key value l = l.map fun e => (e.1,if e.1 = key then value else e.2) := by
  induction l with
  | nil => cases member
  | cons e rest ih =>
    obtain ⟨k,v⟩ := e
    obtain ⟨new,others⟩ := List.nodup_cons.mp distinct
    rw [setKey,List.map_cons]
    split
    next same =>
      subst same
      have kept : (rest.map fun e => (e.1,if e.1 = k then value else e.2)) = rest := by
        refine (List.map_congr_left fun e inside => ?_).trans (List.map_id rest)
        have different : e.1 ≠ k := fun equal => new (List.mem_map.mpr ⟨e,inside,equal⟩)
        simp [different]
      rw [kept]
    next different =>
      have later : key ∈ rest.map Prod.fst := by
        rcases List.mem_cons.mp member with here | later
        · exact absurd here.symm different
        · exact later
      rw [ih others later]

theorem assignAll_entries (ranges : List (Text × Text)) : ∀ (d : Dependencies), (ranges.map Prod.fst).Nodup →
    (∀ key ∈ ranges.map Prod.fst, key ∈ d.entries.map Prod.fst) →
      (d.assignAll ranges).entries = d.entries.map fun e => (e.1,((getKey e.1 ranges).map Json.string).getD e.2) := by
  induction ranges with
  | nil =>
    intro d _ _
    simp [Dependencies.assignAll]
  | cons range rest ih =>
    intro d distinct known
    obtain ⟨new,others⟩ := List.nodup_cons.mp distinct
    have first : (d.assign range.1 range.2).entries =
        d.entries.map fun e => (e.1,if e.1 = range.1 then .string range.2 else e.2) :=
      setKey_map d.distinct (known _ (by simp))
    have keys : (d.assign range.1 range.2).entries.map Prod.fst = d.entries.map Prod.fst := by simp [first]
    have all := ih (d.assign range.1 range.2) others fun key member => by
      rw [keys]
      exact known key (List.mem_cons_of_mem _ member)
    rw [Dependencies.assignAll,List.foldl_cons,← Dependencies.assignAll,all,first,List.map_map]
    refine List.map_congr_left fun e _ => ?_
    simp only [Function.comp_apply,getKey_cons]
    by_cases same : e.1 = range.1
    · rw [same,getKey_none.mpr new]
      simp
    · simp [same,Ne.symm same]

/-- A package.json with the edits of its plugin. -/
def PackageJson.assigned (json : PackageJson) (ranges : List (Text × Text)) : PackageJson :=
  { json with s2script := json.s2script.map fun s2 =>
      { s2 with pluginDependencies := s2.pluginDependencies.map fun d => d.assignAll ranges } }

theorem assigned_dependencies {json : PackageJson} {ranges : List (Text × Text)} (distinct : (ranges.map Prod.fst).Nodup)
    (known : ∀ key ∈ ranges.map Prod.fst, key ∈ json.dependencies.map Prod.fst) :
    (json.assigned ranges).dependencies =
      json.dependencies.map fun e => (e.1,((getKey e.1 ranges).map Json.string).getD e.2) := by
  rw [PackageJson.dependencies,PackageJson.assigned,PackageJson.dependencies]
  rw [PackageJson.dependencies] at known
  cases block : json.s2script with
  | none => rfl
  | some s2 =>
    cases here : s2.pluginDependencies with
    | none => simp [here]
    | some d =>
      simp only [block,here,Option.map_some,Option.bind_some,Option.getD_some] at known ⊢
      exact assignAll_entries ranges d distinct known

theorem saved_dependencies (json : PackageJson) :
    json.saved.dependencies = json.dependencies.map fun e => (e.1,savedJson e.2) := by
  rw [PackageJson.dependencies,PackageJson.saved,PackageJson.dependencies]
  cases json.s2script with
  | none => rfl
  | some s2 =>
    cases here : s2.pluginDependencies with
    | none => simp [S2script.saved,here]
    | some d => simp [S2script.saved,Dependencies.saved,here,savedMembers_map]

/-- A range of an edited file is the target of its dependency, or the authored range where there is none. -/
theorem written_range {json : PackageJson} {ranges : List (Text × Text)} (distinct : (ranges.map Prod.fst).Nodup)
    (known : ∀ key ∈ ranges.map Prod.fst, key ∈ json.dependencies.map Prod.fst) (iface range : Text) :
    (iface,.string range) ∈ (json.assigned ranges).saved.dependencies ↔
      ∃ value, (iface,value) ∈ json.dependencies ∧
        (getKey iface ranges = some range ∨ getKey iface ranges = none ∧ value = .string range) := by
  rw [saved_dependencies,assigned_dependencies distinct known,List.map_map]
  simp only [List.mem_map,Function.comp_apply,Prod.mk.injEq]
  constructor
  · rintro ⟨⟨key,value⟩,member,rfl,same⟩
    refine ⟨value,member,?_⟩
    cases target : getKey key ranges with
    | none =>
      rw [target] at same
      exact .inr ⟨rfl,savedJson_string.mp same⟩
    | some t =>
      rw [target] at same
      exact .inl (congrArg some (Json.string.inj (savedJson_string.mp same)))
  · rintro ⟨value,member,target | ⟨none,rfl⟩⟩
    · exact ⟨_,member,rfl,by rw [target]; rfl⟩
    · exact ⟨_,member,rfl,by rw [none]; rfl⟩

theorem steadyMembers_iff (members : List (Text × Json)) :
    steadyMembers members = true ↔ ∀ m ∈ members, steady m.2 = true := by
  induction members with
  | nil => simp [steadyMembers]
  | cons m rest ih => simp [steadyMembers,ih]

theorem unranged_saved (value : Json) : unranged (savedJson value) = unranged value ↔ steady value = true := by
  rw [← savedJson_eq]
  cases value with
  | natural n => by_cases exceeds n 0 <;> simp_all [savedJson,unranged]
  | number negative mantissa exponent =>
    rw [savedJson]
    split
    next => split <;> simp [unranged]
    next => split <;> simp [unranged]
  | _ => simp [savedJson,unranged]

theorem saved_others {d : Dependencies} {ranges : List (Text × Text)} (distinct : (ranges.map Prod.fst).Nodup)
    (known : ∀ key ∈ ranges.map Prod.fst, ∃ range, (key,.string range) ∈ d.entries) :
    (d.assignAll ranges).saved.others = d.others ↔ steadyMembers d.entries = true := by
  have keys : ∀ key ∈ ranges.map Prod.fst, key ∈ d.entries.map Prod.fst := by
    intro key member
    obtain ⟨range,inside⟩ := known key member
    exact List.mem_map.mpr ⟨_,inside,rfl⟩
  have entries : (d.assignAll ranges).saved.entries =
      d.entries.map fun e => (e.1,savedJson (((getKey e.1 ranges).map Json.string).getD e.2)) := by
    have assigned := assignAll_entries ranges d distinct keys
    simp only [Dependencies.saved,savedMembers_map,assigned,List.map_map,Function.comp_def]
  rw [Dependencies.others,Dependencies.others,entries,List.map_map,List.map_inj_left,steadyMembers_iff]
  refine forall₂_congr fun e member => ?_
  simp only [Function.comp_apply,Prod.mk.injEq,true_and]
  cases target : getKey e.1 ranges with
  | none => exact unranged_saved e.2
  | some t =>
    obtain ⟨range,inside⟩ := known e.1 (List.mem_map.mpr ⟨_,getKey_mem target,rfl⟩)
    have string : e.2 = .string range := by
      have here := getKey_of_mem d.distinct inside
      rw [getKey_of_mem d.distinct (show (e.1,e.2) ∈ d.entries from member)] at here
      exact Option.some.inj here
    rw [string]
    simp [savedJson,unranged,steady]

theorem map_savedJson (value : Option Json) : value.map savedJson = value ↔ value.all steady = true := by
  cases value <;> simp [savedJson_eq]

/-- The edited file keeps its other fields exactly if its numbers are steady. -/
theorem written_others {json : PackageJson} {ranges : List (Text × Text)} (distinct : (ranges.map Prod.fst).Nodup)
    (known : ∀ key ∈ ranges.map Prod.fst, ∃ range, (key,.string range) ∈ json.dependencies) :
    (json.assigned ranges).saved.others = json.others ↔ json.steady = true := by
  rw [PackageJson.others,PackageJson.others,PackageJson.saved,PackageJson.assigned,PackageJson.steady]
  rw [PackageJson.dependencies] at known
  cases block : json.s2script with
  | none => simp [savedMembers_eq]
  | some s2 =>
    cases here : s2.pluginDependencies with
    | none =>
      simp only [block,here,Option.map_some,Option.map_none,S2script.saved,Others.mk.injEq,Option.some.injEq,Prod.mk.injEq,
        map_savedJson,savedMembers_eq,Bool.and_eq_true]
      tauto
    | some d =>
      simp only [block,here,Option.map_some,Option.bind_some,Option.getD_some] at known
      simp only [block,here,Option.map_some,S2script.saved,Others.mk.injEq,Option.some.injEq,Prod.mk.injEq,
        map_savedJson,savedMembers_eq,saved_others distinct known,Bool.and_eq_true]
      tauto

end Ranges

end S2Script.VersionRanges
