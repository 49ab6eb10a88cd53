import Mathlib

/-! The wire algebra of interface protocol 2: JSON values as the host holds them, the schemas of a
contract, and which values a schema accepts. -/
namespace S2Script.Interop

/-- What is used of 64-bit floats: their comparison, and the float next to an integer. -/
class HostFloat (F : Type) where
  eq : F → F → Bool
  ofInt : Int → F

/-- An integer of either sign within 64 bits, or a float. -/
inductive Number (F : Type) where
  | posInt (value : UInt64)
  | negInt (value : Int64)
  | float (value : F)

namespace Number

variable {F : Type} [HostFloat F]

def eq : Number F → Number F → Bool
  | .posInt a,.posInt b => a == b
  | .negInt a,.negInt b => a == b
  | .float a,.float b => HostFloat.eq a b
  | _,_ => false

def asF64 : Number F → F
  | .posInt value => HostFloat.ofInt value.toNat
  | .negInt value => HostFloat.ofInt value.toInt
  | .float value => value

def asU64 : Number F → Option UInt64
  | .posInt value => some value
  | _ => none

end Number

inductive Value (F : Type) where
  | null
  | bool (value : Bool)
  | number (value : Number F)
  | string (value : String)
  | array (items : List (Value F))
  | object (members : List (String × Value F))

structure Field (S : Type) where
  schema : S
  optional : Bool

inductive Schema (F : Type) where
  | null | boolean | number | string | void | entityRef
  | literal (value : Value F)
  | array (item : Schema F)
  | object (fields : List (String × Field (Schema F)))
  | union (variants : List (Schema F))

namespace Value

variable {F : Type}

def isNull : Value F → Bool
  | .null => true
  | _ => false

def isBoolean : Value F → Bool
  | .bool _ => true
  | _ => false

def isString : Value F → Bool
  | .string _ => true
  | _ => false

def asNumber : Value F → Option (Number F)
  | .number value => some value
  | _ => none

def isNumber (value : Value F) : Bool := value.asNumber.isSome

def asArray : Value F → Option (List (Value F))
  | .array items => some items
  | _ => none

def asObject : Value F → Option (List (String × Value F))
  | .object members => some members
  | _ => none

def asU64 (value : Value F) : Option UInt64 := value.asNumber.bind Number.asU64

section Equality

variable [HostFloat F]

def asF64 (value : Value F) : Option F := value.asNumber.map Number.asF64

mutual

def eq : Value F → Value F → Bool
  | .null,.null => true
  | .bool a,.bool b => a == b
  | .number a,.number b => a.eq b
  | .string a,.string b => a == b
  | .array a,.array b => eqItems a b
  | .object a,.object b => a.length == b.length && eqMembers a b
  | _,_ => false

def eqItems : List (Value F) → List (Value F) → Bool
  | [],[] => true
  | a :: items,b :: others => a.eq b && eqItems items others
  | _,_ => false

/-- Each member is one of the other object. -/
def eqMembers : List (String × Value F) → List (String × Value F) → Bool
  | [],_ => true
  | (key,a) :: members,others => (others.lookup key).any (fun b => a.eq b) && eqMembers members others

end

end Equality

mutual

/-- No object of the value has a key twice. -/
def Distinct : Value F → Prop
  | .array items => DistinctItems items
  | .object members => (members.map Prod.fst).Nodup ∧ DistinctMembers members
  | _ => True

def DistinctItems : List (Value F) → Prop
  | [] => True
  | item :: items => item.Distinct ∧ DistinctItems items

def DistinctMembers : List (String × Value F) → Prop
  | [] => True
  | (_,value) :: members => value.Distinct ∧ DistinctMembers members

end

mutual

/-- Some object of the value, at any depth, has the key. -/
def mentions (key : String) : Value F → Bool
  | .array items => mentionsItems key items
  | .object members => mentionsMembers key members
  | _ => false

def mentionsItems (key : String) : List (Value F) → Bool
  | [] => false
  | item :: items => item.mentions key || mentionsItems key items

def mentionsMembers (key : String) : List (String × Value F) → Bool
  | [] => false
  | (name,value) :: members => name == key || value.mentions key || mentionsMembers key members

end

end Value

namespace Schema

variable {F : Type}

/-- The key of an entity reference's envelope. -/
def refKey : String := "__s2ref"

mutual

def wellFormed (allowVoid : Bool) (depth : Nat) : Schema F → Bool
  | .void => if depth > 64 then false else allowVoid
  | .literal value => if depth > 64 then false else value.isBoolean || value.isString || value.isNumber
  | .array item => if depth > 64 then false else item.wellFormed false (depth + 1)
  | .object fields =>
    if depth > 64 then false else (fields.lookup refKey).isNone && wellFormedFields (depth + 1) fields
  | .union variants => if depth > 64 then false else !variants.isEmpty && wellFormedAll (depth + 1) variants
  | _ => if depth > 64 then false else true

def wellFormedFields (depth : Nat) : List (String × Field (Schema F)) → Bool
  | [] => true
  | (_,⟨schema,_⟩) :: fields => schema.wellFormed false depth && wellFormedFields depth fields

def wellFormedAll (depth : Nat) : List (Schema F) → Bool
  | [] => true
  | schema :: variants => schema.wellFormed false depth && wellFormedAll depth variants

end

mutual

/-- The schema cannot carry an entity reference, so its values travel as they are. -/
def entityRefFree : Schema F → Bool
  | .null | .boolean | .number | .string | .literal _ => true
  | .array item => item.entityRefFree
  | .object fields => entityRefFreeFields fields
  | .union variants => entityRefFreeAll variants
  | .void | .entityRef => false

def entityRefFreeFields : List (String × Field (Schema F)) → Bool
  | [] => true
  | (_,⟨schema,_⟩) :: fields => schema.entityRefFree && entityRefFreeFields fields

def entityRefFreeAll : List (Schema F) → Bool
  | [] => true
  | schema :: variants => schema.entityRefFree && entityRefFreeAll variants

end

mutual

def accepts [HostFloat F] : Schema F → Value F → Bool
  | .null,value => value.isNull
  | .boolean,value => value.isBoolean
  | .number,value => value.isNumber
  | .string,value => value.isString
  | .void,_ => false
  | .literal wanted,value =>
    value.eq wanted ||
      value.isNumber && wanted.isNumber &&
        (value.asF64.any fun a => wanted.asF64.any fun b => HostFloat.eq a b)
  | .array item,value => value.asArray.any fun items => items.all fun v => item.accepts v
  | .object fields,value =>
    value.asObject.any fun members =>
      members.all (fun member => (fields.lookup member.1).isSome) && acceptsFields fields members
  | .union variants,value => acceptsAny variants value
  | .entityRef,value =>
    value.asObject.any fun members =>
      members.length == 1 &&
        ((members.lookup refKey).bind Value.asArray).any fun items =>
          items.length == 2 && items.all fun v => v.asU64.isSome

/-- A field that is missing has to be optional. -/
def acceptsFields [HostFloat F] : List (String × Field (Schema F)) → List (String × Value F) → Bool
  | [],_ => true
  | (key,⟨schema,optional⟩) :: fields,members =>
    (match members.lookup key with
      | none => optional
      | some value => schema.accepts value) && acceptsFields fields members

def acceptsAny [HostFloat F] : List (Schema F) → Value F → Bool
  | [],_ => false
  | schema :: variants,value => schema.accepts value || acceptsAny variants value

end

mutual

/-- No object schema has a field twice. -/
def Distinct : Schema F → Prop
  | .array item => item.Distinct
  | .object fields => (fields.map Prod.fst).Nodup ∧ DistinctFields fields
  | .union variants => DistinctAll variants
  | _ => True

def DistinctFields : List (String × Field (Schema F)) → Prop
  | [] => True
  | (_,⟨schema,_⟩) :: fields => schema.Distinct ∧ DistinctFields fields

def DistinctAll : List (Schema F) → Prop
  | [] => True
  | schema :: variants => schema.Distinct ∧ DistinctAll variants

end

end Schema

section Lookup

variable {V : Type} {members : List (String × V)} {key : String} {value : V}

theorem lookup_cons_if (head : String × V) : (head :: members).lookup key = if key = head.1 then some head.2 else members.lookup key := by
  rw [List.lookup_cons]
  by_cases same : key = head.1
  · rw [if_pos same,beq_iff_eq.mpr same]
  · rw [if_neg same,beq_eq_false_iff_ne.mpr same]

theorem mem_of_lookup (found : members.lookup key = some value) : (key,value) ∈ members := by
  induction members with
  | nil => cases found
  | cons member members ih =>
    rw [lookup_cons_if] at found
    split at found
    · next same =>
      cases found
      exact same ▸ List.mem_cons_self
    · exact List.mem_cons_of_mem member (ih found)

theorem lookup_of_mem (distinct : (members.map Prod.fst).Nodup) (member : (key,value) ∈ members) :
    members.lookup key = some value := by
  induction members with
  | nil => cases member
  | cons head members ih =>
    rw [List.map_cons,List.nodup_cons] at distinct
    rw [lookup_cons_if]
    rcases List.mem_cons.mp member with rfl | later
    · exact if_pos rfl
    · have other : key ≠ head.1 := fun same => distinct.1 (same ▸ List.mem_map_of_mem later)
      rw [if_neg other]
      exact ih distinct.2 later

end Lookup

section Accepted

variable {F : Type}

theorem Value.mentionsItems_eq_false {key : String} {items : List (Value F)} :
    Value.mentionsItems key items = false ↔ ∀ item ∈ items, item.mentions key = false := by
  induction items with
  | nil => simp [Value.mentionsItems]
  | cons item items ih => simp [Value.mentionsItems,ih]

theorem Value.mentionsMembers_eq_false {key : String} {members : List (String × Value F)} :
    Value.mentionsMembers key members = false ↔ ∀ member ∈ members, member.1 ≠ key ∧ member.2.mentions key = false := by
  induction members with
  | nil => simp [Value.mentionsMembers]
  | cons member members ih => simp [Value.mentionsMembers,ih,and_assoc]

theorem Value.distinctItems_iff {items : List (Value F)} : Value.DistinctItems items ↔ ∀ item ∈ items, item.Distinct := by
  induction items with
  | nil => simp [Value.DistinctItems]
  | cons item items ih => simp [Value.DistinctItems,ih]

theorem Value.distinctMembers_iff {members : List (String × Value F)} :
    Value.DistinctMembers members ↔ ∀ member ∈ members, member.2.Distinct := by
  induction members with
  | nil => simp [Value.DistinctMembers]
  | cons member members ih => simp [Value.DistinctMembers,ih]

variable [HostFloat F]

namespace Schema

/-- What a field admits at its key. -/
def FieldAccepts (field : Field (Schema F)) (value : Option (Value F)) : Prop :=
  match value with
  | none => field.optional = true
  | some value => field.schema.accepts value = true

theorem acceptsFields_iff {fields : List (String × Field (Schema F))} {members : List (String × Value F)} :
    acceptsFields fields members = true ↔ ∀ entry ∈ fields, FieldAccepts entry.2 (members.lookup entry.1) := by
  induction fields with
  | nil => simp [acceptsFields]
  | cons entry fields ih =>
    rw [acceptsFields,Bool.and_eq_true,List.forall_mem_cons,ih]
    refine and_congr_left fun _ => ?_
    cases found : members.lookup entry.1 <;> simp [FieldAccepts]

theorem accepts_object_iff {fields : List (String × Field (Schema F))} {members : List (String × Value F)} :
    (Schema.object fields).accepts (.object members) = true ↔
      (∀ member ∈ members, (fields.lookup member.1).isSome) ∧
        ∀ entry ∈ fields, FieldAccepts entry.2 (members.lookup entry.1) := by
  simp only [accepts,Value.asObject,Option.any_some,Bool.and_eq_true,List.all_eq_true,acceptsFields_iff]

theorem object_of_accepts {fields : List (String × Field (Schema F))} {value : Value F}
    (accepted : (Schema.object fields).accepts value = true) : ∃ members, value = .object members := by
  cases value with
  | object members => exact ⟨members,rfl⟩
  | null | bool | number | string | array => simp [accepts,Value.asObject] at accepted

mutual

/-- By the schema's constructors: a literal is a primitive, and an object's keys are its schema's. -/
theorem accepts_noRef (schema : Schema F) {allowVoid : Bool} {depth : Nat} (formed : schema.wellFormed allowVoid depth = true)
    (free : schema.entityRefFree = true) {value : Value F} (distinct : value.Distinct) (accepted : schema.accepts value = true) :
    value.mentions refKey = false := by
  match schema with
  | .null | .boolean | .number | .string =>
    cases value <;> simp_all [accepts,Value.mentions,Value.isNull,Value.isBoolean,Value.isNumber,Value.isString,Value.asNumber]
  | .void | .entityRef => cases free
  | .literal wanted =>
    cases value with
    | null | bool | number | string => rfl
    | array items => cases wanted <;> simp_all [accepts,wellFormed,Value.eq,Value.isBoolean,Value.isString,Value.isNumber,Value.asNumber]
    | object members => cases wanted <;> simp_all [accepts,wellFormed,Value.eq,Value.isBoolean,Value.isString,Value.isNumber,Value.asNumber]
  | .array item =>
    cases value with
    | array items =>
      rw [accepts] at accepted
      simp only [Value.asArray,Option.any_some,List.all_eq_true] at accepted
      rw [wellFormed] at formed
      split at formed
      · cases formed
      rw [Value.mentions,Value.mentionsItems_eq_false]
      intro v member
      exact accepts_noRef item formed free (Value.distinctItems_iff.mp distinct v member) (accepted v member)
    | null | bool | number | string | object => simp [accepts,Value.asArray] at accepted
  | .object fields =>
    obtain ⟨members,rfl⟩ := object_of_accepts accepted
    obtain ⟨known,each⟩ := accepts_object_iff.mp accepted
    rw [wellFormed] at formed
    split at formed
    · cases formed
    rw [Bool.and_eq_true,Option.isNone_iff_eq_none] at formed
    rw [Value.mentions,Value.mentionsMembers_eq_false]
    rintro ⟨key,v⟩ member
    obtain ⟨field,found⟩ := Option.isSome_iff_exists.mp (known _ member)
    have own : v.Distinct := Value.distinctMembers_iff.mp distinct.2 _ member
    have here := lookup_of_mem distinct.1 member
    have inFields := mem_of_lookup found
    constructor
    · rintro rfl
      exact nomatch formed.1.symm.trans found
    · have fieldAccepts := each _ inFields
      rw [here] at fieldAccepts
      exact accepts_noRef_fields fields formed.2 free _ inFields own fieldAccepts
  | .union variants =>
    rw [wellFormed] at formed
    split at formed
    · cases formed
    rw [Bool.and_eq_true] at formed
    exact accepts_noRef_any variants formed.2 free distinct accepted

theorem accepts_noRef_fields (fields : List (String × Field (Schema F))) {depth : Nat} (formed : wellFormedFields depth fields = true)
    (free : entityRefFreeFields fields = true) (entry : String × Field (Schema F)) (member : entry ∈ fields) {value : Value F}
    (distinct : value.Distinct) (accepted : entry.2.schema.accepts value = true) : value.mentions refKey = false := by
  match fields with
  | [] => cases member
  | (key,⟨schema,optional⟩) :: fields =>
    rw [wellFormedFields,Bool.and_eq_true] at formed
    rw [entityRefFreeFields,Bool.and_eq_true] at free
    rcases List.mem_cons.mp member with rfl | later
    · exact accepts_noRef schema formed.1 free.1 distinct accepted
    · exact accepts_noRef_fields fields formed.2 free.2 entry later distinct accepted

theorem accepts_noRef_any (variants : List (Schema F)) {depth : Nat} (formed : wellFormedAll depth variants = true)
    (free : entityRefFreeAll variants = true) {value : Value F} (distinct : value.Distinct) (accepted : acceptsAny variants value = true) :
    value.mentions refKey = false := by
  match variants with
  | [] => cases accepted
  | schema :: variants =>
    rw [wellFormedAll,Bool.and_eq_true] at formed
    rw [entityRefFreeAll,Bool.and_eq_true] at free
    rw [acceptsAny,Bool.or_eq_true] at accepted
    rcases accepted with this | later
    · exact accepts_noRef schema formed.1 free.1 distinct this
    · exact accepts_noRef_any variants formed.2 free.2 distinct later

end

end Schema

end Accepted

end S2Script.Interop
