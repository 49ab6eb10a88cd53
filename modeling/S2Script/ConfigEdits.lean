import S2Script.ConfigFile

/-! Reading the generated file back: the values it gives, and what replacing one declared value in it
changes. -/
namespace S2Script.Config

open Interop

variable {F : Type}

section Defaults

/-- What the generated file declares. -/
def defaults (entries : List (String × ConfigEntry F)) : List (String × Value F) := defaultsOf (orderedEntries entries)

theorem defaultOf_sect (children : List (String × ConfigEntry F)) : defaultOf (ordered (.sect children)) = .object (defaults children) := by
  rw [ordered,defaultOf]
  rfl

theorem lookup_orderedInsert {A : Type} (key wanted : String) (value : A) (members : List (String × A)) :
    (members.orderedInsert (fun a b => a.1 ≤ b.1) (key,value)).lookup wanted =
      if wanted = key then some value else members.lookup wanted := by
  induction members with
  | nil => exact lookup_cons_if (key,value)
  | cons member members ih =>
    obtain ⟨other,held⟩ := member
    rw [List.orderedInsert_cons]
    split
    · exact lookup_cons_if (key,value)
    · next later =>
      rw [lookup_cons_if,lookup_cons_if,ih]
      by_cases same : wanted = key
      · have apart : wanted ≠ other := by
          rintro rfl
          subst same
          exact later (String.le_refl _)
        rw [if_neg apart]
        simp only [if_pos same]
      · simp only [if_neg same]

theorem lookup_orderedEntries (wanted : String) (entries : List (String × ConfigEntry F)) :
    (orderedEntries entries).lookup wanted = if dotted wanted then none else (entries.lookup wanted).map ordered := by
  induction entries with
  | nil => simp [orderedEntries]
  | cons member entries ih =>
    obtain ⟨key,entry⟩ := member
    rw [orderedEntries,lookup_cons_if]
    by_cases same : wanted = key
    · subst same
      split
      · next point => rw [ih,if_pos point]
      · simp [lookup_orderedInsert]
    · rw [if_neg same]
      split
      · exact ih
      · rw [lookup_orderedInsert,if_neg same,ih]

theorem lookup_defaultsOf (wanted : String) (entries : List (String × ConfigEntry F)) :
    (defaultsOf entries).lookup wanted = (entries.lookup wanted).map defaultOf := by
  induction entries with
  | nil => rfl
  | cons member entries ih =>
    obtain ⟨key,entry⟩ := member
    rw [defaultsOf,lookup_cons_if,lookup_cons_if,ih]
    split <;> rfl

theorem lookup_defaults (wanted : String) (entries : List (String × ConfigEntry F)) :
    (defaults entries).lookup wanted = if dotted wanted then none else (entries.lookup wanted).map fun entry => defaultOf (ordered entry) := by
  rw [defaults,lookup_defaultsOf,lookup_orderedEntries]
  split
  · rfl
  · rw [Option.map_map]
    rfl

/-- The value has exactly the defaults of the entry, each under its key. -/
inductive Shows : ConfigEntry F → Value F → Prop
  | decl (decl : ConfigDecl F) : Shows (.decl decl) decl.default
  | sect {children : List (String × ConfigEntry F)} {members : List (String × Value F)}
      (keys : ∀ key, (members.lookup key).isSome = true ↔ dotted key = false ∧ (children.lookup key).isSome = true)
      (values : ∀ key entry value, children.lookup key = some entry → members.lookup key = some value → Shows entry value) :
      Shows (.sect children) (.object members)

mutual

theorem shows_defaultOf : (entry : ConfigEntry F) → Shows entry (defaultOf (ordered entry))
  | .decl decl => by
    rw [ordered,defaultOf]
    exact .decl decl
  | .sect children => by
    rw [defaultOf_sect]
    refine .sect (fun key => ?_) fun key entry value found held => ?_
    · rw [lookup_defaults]
      split <;> simp_all
    · rw [lookup_defaults,found] at held
      split at held
      · cases held
      · cases held
        exact shows_each children key entry (mem_of_lookup found)

theorem shows_each : (entries : List (String × ConfigEntry F)) → ∀ key entry, (key,entry) ∈ entries → Shows entry (defaultOf (ordered entry))
  | (_,entry) :: rest,key,other,member => by
    rcases List.mem_cons.mp member with same | member
    · cases same
      exact shows_defaultOf entry
    · exact shows_each rest key other member

end

end Defaults

section Values

variable [RangeFloat F]

/-- The value of a declaration under an override of it. -/
def chosen (decl : ConfigDecl F) (override : Option (Value F)) : Value F :=
  match override with
  | some ov => if valueMatchesType ov decl.type && satisfiesConstraints ov decl then ov else defaultValue decl
  | none => defaultValue decl

mutual

/-- The value of an entry under an override of it, without the warnings. -/
def valueOf (override : Option (Value F)) : ConfigEntry F → Value F
  | .sect children => .object (valuesOf ((override.bind Value.asObject).getD []) [] children)
  | .decl decl => chosen decl override

def valuesOf (overrides values : List (String × Value F)) : List (String × ConfigEntry F) → List (String × Value F)
  | [] => values
  | (key,entry) :: rest =>
    valuesOf overrides (if dotted key then values else insertKey key (valueOf (overrides.lookup key) entry) values) rest

end

variable (json : SerdeJson F)

theorem materializeDecl_value (decl : ConfigDecl F) (fullkey : String) (override : Option (Value F)) (warnings : List String) :
    (materializeDecl json decl fullkey override warnings).1 = chosen decl override := by
  cases override with
  | none => rfl
  | some ov =>
    simp only [materializeDecl,chosen]
    split
    · rfl
    · split <;> rfl

mutual

theorem materializeEntry_values (key fullkey : String) (override : Option (Value F)) (result : MaterializeResult F) :
    (entry : ConfigEntry F) → (materializeEntry json key fullkey override result entry).values = insertKey key (valueOf override entry) result.values
  | .sect children => by
    rw [materializeEntry,valueOf,materializeEntries_values _ _ _ children]
  | .decl decl => by
    have value := materializeDecl_value json decl fullkey override result.warnings
    rw [materializeEntry,valueOf,← value]

theorem materializeEntries_values (overrides : List (String × Value F)) (path : String) (result : MaterializeResult F) :
    (entries : List (String × ConfigEntry F)) → (materializeEntries json overrides path result entries).values = valuesOf overrides result.values entries
  | [] => by rw [materializeEntries,valuesOf]
  | (key,entry) :: rest => by
    rw [materializeEntries,valuesOf]
    split
    · rw [materializeEntries_values overrides path _ rest]
    · rw [materializeEntries_values overrides path _ rest,materializeEntry_values key _ _ _ entry]

end

end Values

section Trees

mutual

/-- No key of a level occurs twice, as in a hash map. -/
def DistinctEntry : ConfigEntry F → Prop
  | .decl _ => True
  | .sect children => (children.map Prod.fst).Nodup ∧ DistinctEntries children

def DistinctEntries : List (String × ConfigEntry F) → Prop
  | [] => True
  | (_,entry) :: rest => DistinctEntry entry ∧ DistinctEntries rest

end

theorem DistinctEntries.of_mem {entries : List (String × ConfigEntry F)} (distinct : DistinctEntries entries) {key : String}
    {entry : ConfigEntry F} (member : (key,entry) ∈ entries) : DistinctEntry entry := by
  induction entries with
  | nil => cases member
  | cons head entries ih =>
    rcases List.mem_cons.mp member with rfl | later
    · exact distinct.1
    · exact ih distinct.2 later

/-- The declaration at a path of keys without points. -/
def declAt : List String → ConfigEntry F → Option (ConfigDecl F)
  | [],.decl decl => some decl
  | key :: rest,.sect children => if dotted key then none else (children.lookup key).bind (declAt rest)
  | _,_ => none

/-- What is kept under the keys, with `f` applied under one of them. -/
def under {A : Type} (key : String) (f : A → A) (members : List (String × A)) : List (String × A) :=
  members.map fun member => (member.1,if member.1 = key then f member.2 else member.2)

/-- The tree with another default at the path. -/
def withDefault (value : Value F) : List String → ConfigEntry F → ConfigEntry F
  | [],.decl decl => .decl { decl with default := value }
  | key :: rest,.sect children => .sect (under key (withDefault value rest) children)
  | _,entry => entry

/-- The value with another one at the path. -/
def putAt (value : Value F) : List String → Value F → Value F
  | [],_ => value
  | key :: rest,.object members => .object (under key (putAt value rest) members)
  | _ :: _,other => other

theorem lookup_under {A : Type} (key wanted : String) (f : A → A) (members : List (String × A)) :
    (under key f members).lookup wanted = (members.lookup wanted).map fun held => if wanted = key then f held else held := by
  induction members with
  | nil => rfl
  | cons member members ih =>
    rw [under,List.map_cons,← under,lookup_cons_if,lookup_cons_if,ih]
    by_cases same : wanted = member.1
    · subst same
      rw [if_pos rfl,if_pos rfl]
      rfl
    · rw [if_neg same,if_neg same]

end Trees

section Edits

variable [RangeFloat F]

theorem insertKey_map {A : Type} (g : String → A → A) (key : String) (value : A) (members : List (String × A)) :
    (insertKey key value members).map (fun member => (member.1,g member.1 member.2)) =
      insertKey key (g key value) (members.map fun member => (member.1,g member.1 member.2)) := by
  induction members with
  | nil => rfl
  | cons member members ih =>
    simp only [insertKey,List.map_cons]
    split
    · rfl
    · split
      · rfl
      · rw [List.map_cons,ih]

/-- Overrides that change each value alike change the values alike. -/
theorem valuesOf_map (g : String → Value F → Value F) {first second : List (String × Value F)} :
    ∀ (entries : List (String × ConfigEntry F)) (values : List (String × Value F)),
      (∀ key entry, (key,entry) ∈ entries → dotted key = false → valueOf (second.lookup key) entry = g key (valueOf (first.lookup key) entry)) →
      valuesOf second (values.map fun member => (member.1,g member.1 member.2)) entries =
        (valuesOf first values entries).map fun member => (member.1,g member.1 member.2)
  | [],values,_ => by rw [valuesOf,valuesOf]
  | (key,entry) :: rest,values,each => by
    rw [valuesOf,valuesOf]
    have later := fun values => valuesOf_map g rest values fun other next member => each other next (List.mem_cons_of_mem _ member)
    split
    · exact later values
    · next plain =>
      rw [each key entry List.mem_cons_self (eq_false_of_ne_true plain),← insertKey_map]
      exact later _

/-- The values of a block under the defaults of an edited one. -/
theorem values_edited {children : List (String × ConfigEntry F)} (distinct : (children.map Prod.fst).Nodup) (key : String)
    (edit : ConfigEntry F → ConfigEntry F) (put : Value F → Value F)
    (here : ∀ entry, children.lookup key = some entry → dotted key = false → valueOf (some (defaultOf (ordered (edit entry)))) entry = put (valueOf none entry))
    (others : ∀ name entry, (name,entry) ∈ children → valueOf (some (defaultOf (ordered entry))) entry = valueOf none entry) :
    valuesOf (defaults (under key edit children)) [] children = under key put (valuesOf [] [] children) := by
  apply valuesOf_map (fun name value => if name = key then put value else value) children []
  intro name entry member plain
  have found := lookup_of_mem distinct member
  rw [lookup_defaults,lookup_under,found]
  simp only [plain,Bool.false_eq_true,if_false,Option.map_some,List.lookup_nil]
  split
  · next same =>
    subst same
    exact here entry found plain
  · exact others name entry member

theorem chosen_default (decl : ConfigDecl F) : chosen decl (some decl.default) = chosen decl none := by
  simp only [chosen,defaultValue]
  split
  · next fits =>
    rw [Bool.and_eq_true] at fits
    rw [if_pos fits.1]
  · rfl

theorem under_id {A : Type} (key : String) (members : List (String × A)) : under key id members = members := by
  simp [under]

theorem valueOf_sect (children : List (String × ConfigEntry F)) (members : List (String × Value F)) :
    valueOf (some (.object members)) (.sect children) = .object (valuesOf members [] children) := by
  rw [valueOf]
  rfl

mutual

/-- The defaults as overrides change nothing. -/
theorem entry_same : (entry : ConfigEntry F) → DistinctEntry entry → valueOf (some (defaultOf (ordered entry))) entry = valueOf none entry
  | .decl decl,_ => by
    rw [ordered,defaultOf,valueOf,valueOf]
    exact chosen_default decl
  | .sect children,distinct => by
    have each := entries_same children distinct.2
    have same := values_edited distinct.1 "" id id (fun entry found _ => each "" entry (mem_of_lookup found)) each
    rw [under_id,under_id] at same
    rw [defaultOf_sect,valueOf_sect,same,valueOf]
    rfl

theorem entries_same : (entries : List (String × ConfigEntry F)) → DistinctEntries entries →
    ∀ name entry, (name,entry) ∈ entries → valueOf (some (defaultOf (ordered entry))) entry = valueOf none entry
  | (_,first) :: rest,distinct,name,entry,member => by
    rcases List.mem_cons.mp member with same | later
    · cases same
      exact entry_same first distinct.1
    · exact entries_same rest distinct.2 name entry later

end

/-- One declared value replaced by another that fits changes that value only. -/
theorem entry_edited {value : Value F} {decl : ConfigDecl F} (fits : valueMatchesType value decl.type = true)
    (allowed : satisfiesConstraints value decl = true) :
    ∀ (path : List String) (entry : ConfigEntry F), DistinctEntry entry → declAt path entry = some decl →
      valueOf (some (defaultOf (ordered (withDefault value path entry)))) entry = putAt value path (valueOf none entry) := by
  intro path
  induction path with
  | nil =>
    intro entry _ found
    cases entry with
    | sect children => cases found
    | decl other =>
      cases found
      rw [withDefault,ordered,defaultOf,valueOf,chosen,fits,allowed]
      rfl
  | cons key rest ih =>
    intro entry distinct found
    cases entry with
    | decl other => cases found
    | sect children =>
      rw [declAt] at found
      split at found
      · cases found
      · obtain ⟨inner,held,deeper⟩ := Option.bind_eq_some_iff.mp found
        have edited := values_edited distinct.1 key (withDefault value rest) (putAt value rest)
          (fun entry same _ => by
            rw [held] at same
            cases same
            exact ih inner (distinct.2.of_mem (mem_of_lookup held)) deeper)
          (entries_same children distinct.2)
        rw [withDefault,defaultOf_sect,valueOf_sect,edited,valueOf]
        rfl

end Edits

end S2Script.Config
