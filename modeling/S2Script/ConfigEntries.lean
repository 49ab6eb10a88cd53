import S2Script.InteropSchema
import S2Script.Json

/-! A plugin's config block: the tree of declarations and sections, the values an override gives it,
the default file generated from it, and the comment stripper that file is read back through. -/
namespace S2Script.Config

open Interop

/-- What the range check uses of 64-bit floats. -/
class RangeFloat (F : Type) extends HostFloat F where
  lt : F → F → Bool

/-- A value declaration. -/
structure ConfigDecl (F : Type) where
  type : String
  default : Value F
  description : Option String
  min : Option F
  max : Option F
  enum : Option (List (Value F))

/-- A declaration or a nested section; the entries of a block are a hash map in iteration order. -/
inductive ConfigEntry (F : Type) where
  | decl (decl : ConfigDecl F)
  | sect (children : List (String × ConfigEntry F))

/-- The JSON library: the compact text of a value, and the value of a text. -/
structure SerdeJson (F : Type) where
  toText : Value F → Text
  fromText : Text → Option (Value F)

structure MaterializeResult (F : Type) where
  values : List (String × Value F)
  warnings : List String

/-- The key contains a point. -/
def dotted (key : String) : Bool := key.toList.contains '.'

section Checks

variable {F : Type}

def asI64 : Number F → Option Int
  | .posInt value => if value.toNat < 2 ^ 63 then some value.toNat else none
  | .negInt value => some value.toInt
  | .float _ => none

def isI64 : Number F → Bool
  | .posInt value => value.toNat < 2 ^ 63
  | .negInt _ => true
  | .float _ => false

def isU64 : Number F → Bool
  | .posInt _ => true
  | _ => false

def isF64 : Number F → Bool
  | .float _ => true
  | _ => false

def valueMatchesType (value : Value F) (type : String) : Bool :=
  match type with
  | "string" => value.isString
  | "int" => value.asNumber.any fun n => (asI64 n).any (fun _ => isI64 n || isU64 n) && !isF64 n
  | "float" => value.isNumber
  | "bool" => value.isBoolean
  | _ => false

def zeroValue (type : String) : Value F :=
  match type with
  | "string" => .string ""
  | "int" | "float" => .number (.posInt 0)
  | "bool" => .bool false
  | _ => .null

/-- An enumeration takes precedence over a range, and a range is checked of numbers only. -/
def satisfiesConstraints [RangeFloat F] (value : Value F) (decl : ConfigDecl F) : Bool :=
  match decl.enum with
  | some allowed => allowed.any fun a => a.eq value
  | none => match value.asF64 with
    | some n => !(decl.min.any fun mn => RangeFloat.lt n mn) && !(decl.max.any fun mx => RangeFloat.lt mx n)
    | none => true

end Checks

section Materialize

variable {F : Type} [RangeFloat F] (json : SerdeJson F)

/-- Insertion into a map that is kept in key order. -/
def insertKey {A : Type} (key : String) (value : A) : List (String × A) → List (String × A)
  | [] => [(key,value)]
  | (other,old) :: rest =>
    if key = other then (key,value) :: rest
    else if key < other then (key,value) :: (other,old) :: rest
    else (other,old) :: insertKey key value rest

def fullKey (path key : String) : String := if path = "" then key else path ++ "." ++ key

/-- The default, or the zero value of its type. -/
def defaultValue (decl : ConfigDecl F) : Value F :=
  if valueMatchesType decl.default decl.type then decl.default else zeroValue decl.type

def materializeDecl (decl : ConfigDecl F) (fullkey : String) (override : Option (Value F)) (warnings : List String) :
    Value F × List String :=
  let warnings :=
    if valueMatchesType decl.default decl.type then warnings
    else warnings ++ ["config '" ++ fullkey ++ "': default does not match type '" ++ decl.type ++ "' — using zero-value"]
  match override with
  | some ov =>
    if valueMatchesType ov decl.type && satisfiesConstraints ov decl then (ov,warnings)
    else if valueMatchesType ov decl.type then
      (defaultValue decl,warnings ++
        ["config '" ++ fullkey ++ "': override " ++ String.ofList (json.toText ov) ++ " out of range / not in enum — using default"])
    else (defaultValue decl,warnings ++ ["config '" ++ fullkey ++ "': override wrong type — using default"])
  | none => (defaultValue decl,warnings)

mutual

def materializeEntry (key fullkey : String) (override : Option (Value F)) (result : MaterializeResult F) :
    ConfigEntry F → MaterializeResult F
  | .sect children =>
    let inner := materializeEntries ((override.bind Value.asObject).getD []) fullkey ⟨[],result.warnings⟩ children
    ⟨insertKey key (.object inner.values) result.values,inner.warnings⟩
  | .decl decl =>
    let (value,warnings) := materializeDecl json decl fullkey override result.warnings
    ⟨insertKey key value result.values,warnings⟩

def materializeEntries (overrides : List (String × Value F)) (path : String) (result : MaterializeResult F) :
    List (String × ConfigEntry F) → MaterializeResult F
  | [] => result
  | (key,entry) :: rest =>
    let fullkey := fullKey path key
    if dotted key then
      let warning := "config '" ++ fullkey ++ "': key contains '.' — skipped (dotted names are reserved for section access)"
      materializeEntries overrides path ⟨result.values,result.warnings ++ [warning]⟩ rest
    else materializeEntries overrides path (materializeEntry key fullkey (overrides.lookup key) result entry) rest

end

end Materialize

section Strip

/-- The lines of a text, without their line feeds and the carriage return before one. -/
def lines : Text → List Text
  | [] => []
  | '\n' :: rest => [] :: lines rest
  | '\r' :: '\n' :: rest => [] :: lines rest
  | c :: rest => match lines rest with
    | [] => [[c]]
    | line :: others => (c :: line) :: others

/-- The line up to a comment that starts outside a string literal. -/
def stripLine (inString escaped : Bool) : Text → Text
  | [] => []
  | c :: rest =>
    if inString then
      if escaped then c :: stripLine true false rest
      else if c = '\x5c' then c :: stripLine true true rest
      else if c = '\x22' then c :: stripLine false escaped rest
      else c :: stripLine true escaped rest
    else if c = '\x22' then c :: stripLine true escaped rest
    else if c = '/' ∧ rest.head? = some '/' then []
    else c :: stripLine false escaped rest

def join : List Text → Text
  | [] => []
  | [line] => line
  | line :: lines => line ++ '\n' :: join lines

def stripLineComments (text : Text) : Text := join ((lines text).map (stripLine false false))

/-- The values with what an override text changes; no text and a text that is no object change nothing. -/
def materializeConfig {F : Type} [RangeFloat F] (json : SerdeJson F) (entries : List (String × ConfigEntry F))
    (override : Option Text) : MaterializeResult F :=
  let overrides := ((override.bind fun text => json.fromText (stripLineComments text)).bind Value.asObject).getD []
  materializeEntries json overrides "" ⟨[],[]⟩ entries

end Strip

section Generate

variable {F : Type} (json : SerdeJson F)

mutual

def ordered : ConfigEntry F → ConfigEntry F
  | .decl decl => .decl decl
  | .sect children => .sect (orderedEntries children)

/-- The entries without those under a dotted key, by key, and so at every level. -/
def orderedEntries : List (String × ConfigEntry F) → List (String × ConfigEntry F)
  | [] => []
  | (key,entry) :: rest =>
    if dotted key then orderedEntries rest
    else (orderedEntries rest).orderedInsert (fun a b => a.1 ≤ b.1) (key,ordered entry)

end

def pad (indent : Nat) : Text := List.replicate (2 * indent) ' '

/-- The comment of a declaration, without the blanks before it. -/
def comment (decl : ConfigDecl F) : Text :=
  let desc := decl.description.getD ""
  ['/','/',' '] ++ decl.type.toList ++ if desc = "" then [] else [' ','—',' '] ++ desc.toList

mutual

def genEntry (indent : Nat) (key : String) (comma : Text) : ConfigEntry F → Text
  | .decl decl =>
    pad indent ++ comment decl ++ ['\n'] ++
      (pad indent ++ json.toText (.string key) ++ [':',' '] ++ json.toText decl.default ++ comma ++ ['\n'])
  | .sect children =>
    pad indent ++ json.toText (.string key) ++ [':',' ','\x7b','\n'] ++
      (genEntries (indent + 1) children ++ (pad indent ++ ['\x7d'] ++ comma ++ ['\n']))

def genEntries (indent : Nat) : List (String × ConfigEntry F) → Text
  | [] => []
  | (key,entry) :: rest => genEntry indent key (if rest.isEmpty then [] else [',']) entry ++ genEntries indent rest

end

/-- Every level in key order, without dotted keys. -/
def generateDefaultJsonc (entries : List (String × ConfigEntry F)) : Text :=
  ['\x7b','\n'] ++ genEntries json 1 (orderedEntries entries) ++ ['\x7d','\n']

end Generate

end S2Script.Config
