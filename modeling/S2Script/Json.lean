import Mathlib

/-! JSON texts: a parser for the whole grammar, and the indented form of a value. -/
namespace S2Script

/-- A text is its Unicode scalar values. -/
abbrev Text := List Char

/-- A value as its text gives it: members in their order, numbers that are plain digits apart. -/
inductive Json where
  | null
  | bool (value : Bool)
  | natural (value : Nat)
  | number (negative : Bool) (mantissa : Nat) (exponent : Int)
  | string (text : Text)
  | array (items : List Json)
  | object (members : List (Text × Json))

namespace Json

section Write

def hexDigit (n : Nat) : Char := Nat.digitChar n

/-- Control characters, the quote and the backslash are escaped, and nothing else. -/
def escapeChar (c : Char) : Text :=
  if c = '\x22' then ['\x5c','\x22']
  else if c = '\x5c' then ['\x5c','\x5c']
  else if c = '\x08' then ['\x5c','b']
  else if c = '\x0c' then ['\x5c','f']
  else if c = '\n' then ['\x5c','n']
  else if c = '\r' then ['\x5c','r']
  else if c = '\t' then ['\x5c','t']
  else if c.toNat < 32 then ['\x5c','u','0','0',hexDigit (c.toNat / 16),hexDigit (c.toNat % 16)]
  else [c]

def quoted (text : Text) : Text := '\x22' :: text.flatMap escapeChar ++ ['\x22']

def digitsOf (n : Nat) : Text := Nat.toDigits 10 n

def newline (level : Nat) : Text := '\n' :: List.replicate (2 * level) ' '

variable (print : Bool → Nat → Int → Text)

mutual

/-- The value with two blanks for each level, and empty arrays and objects closed at once. A number
that is no plain digits is written as `print` writes it. -/
def write (level : Nat) : Json → Text
  | .null => ['n','u','l','l']
  | .bool true => ['t','r','u','e']
  | .bool false => ['f','a','l','s','e']
  | .natural value => digitsOf value
  | .number negative mantissa exponent => print negative mantissa exponent
  | .string text => quoted text
  | .array [] => ['[',']']
  | .array (item :: items) =>
    '[' :: newline (level + 1) ++ write (level + 1) item ++ writeItems (level + 1) items ++ newline level ++ [']']
  | .object [] => ['\x7b','\x7d']
  | .object ((key,value) :: members) =>
    '\x7b' :: newline (level + 1) ++ quoted key ++ [':',' '] ++ write (level + 1) value ++ writeMembers (level + 1) members ++
      newline level ++ ['\x7d']

def writeItems (level : Nat) : List Json → Text
  | [] => []
  | item :: items => ',' :: newline level ++ write level item ++ writeItems level items

def writeMembers (level : Nat) : List (Text × Json) → Text
  | [] => []
  | (key,value) :: members =>
    ',' :: newline level ++ quoted key ++ [':',' '] ++ write level value ++ writeMembers level members

end

def pretty (value : Json) : Text := value.write print 0

end Write

section Parse

def isSpace (c : Char) : Bool := c == ' ' || c == '\n' || c == '\r' || c == '\t'

def skipSpace (text : Text) : Text := text.dropWhile isSpace

def hexValue (c : Char) : Option Nat :=
  if '0' ≤ c ∧ c ≤ '9' then some (c.toNat - 48)
  else if 'a' ≤ c ∧ c ≤ 'f' then some (c.toNat - 87)
  else if 'A' ≤ c ∧ c ≤ 'F' then some (c.toNat - 55)
  else none

def codeUnit (a b c d : Char) : Option Nat :=
  match hexValue a,hexValue b,hexValue c,hexValue d with
  | some a,some b,some c,some d => some (((a * 16 + b) * 16 + c) * 16 + d)
  | _,_,_,_ => none

def unescape (c : Char) : Option Char :=
  if c = '\x22' ∨ c = '\x5c' ∨ c = '/' then some c
  else if c = 'b' then some '\x08'
  else if c = 'f' then some '\x0c'
  else if c = 'n' then some '\n'
  else if c = 'r' then some '\r'
  else if c = 't' then some '\t'
  else none

def withHead (c : Char) (read : Option (Text × Text)) : Option (Text × Text) :=
  read.map fun (text,rest) => (c :: text,rest)

/-- What follows the opening quote, up to the closing one. A surrogate needs its other half. -/
def readString : Text → Option (Text × Text)
  | [] => none
  | '\x22' :: rest => some ([],rest)
  | '\x5c' :: 'u' :: a :: b :: c :: d :: rest =>
    match codeUnit a b c d with
    | none => none
    | some unit =>
      if unit < 0xD800 ∨ 0xE000 ≤ unit then withHead (Char.ofNat unit) (readString rest)
      else match rest with
        | '\x5c' :: 'u' :: e :: f :: g :: h :: rest =>
          match codeUnit e f g h with
          | none => none
          | some low =>
            if unit < 0xDC00 ∧ 0xDC00 ≤ low ∧ low < 0xE000 then
              withHead (Char.ofNat (0x10000 + (unit - 0xD800) * 1024 + (low - 0xDC00))) (readString rest)
            else none
        | _ => none
  | '\x5c' :: c :: rest =>
    match unescape c with
    | none => none
    | some c => withHead c (readString rest)
  | c :: rest => if c.toNat < 32 then none else withHead c (readString rest)

def valueOf (digits : Text) : Nat := Nat.ofDigitChars 10 digits 0

/-- The digits after a point, none if there is no point. -/
def readFraction : Text → Option (Text × Text)
  | '.' :: rest =>
    let digits := rest.takeWhile Char.isDigit
    if digits = [] then none else some (digits,rest.dropWhile Char.isDigit)
  | text => some ([],text)

/-- The exponent, if there is one. -/
def readExponent (text : Text) : Option (Option Int × Text) :=
  match text with
  | c :: rest =>
    if c = 'e' ∨ c = 'E' then
      let (negative,rest) := match rest with
        | '-' :: rest => (true,rest)
        | '+' :: rest => (false,rest)
        | rest => (false,rest)
      let digits := rest.takeWhile Char.isDigit
      if digits = [] then none
      else some (some (if negative then -(valueOf digits : Int) else valueOf digits),rest.dropWhile Char.isDigit)
    else some (none,text)
  | [] => some (none,text)

def readSign : Text → Bool × Text
  | '-' :: rest => (true,rest)
  | text => (false,text)

def readNumber (text : Text) : Option (Json × Text) :=
  let (negative,text) := readSign text
  let whole := text.takeWhile Char.isDigit
  let rest := text.dropWhile Char.isDigit
  if whole = [] ∨ (whole.head? = some '0' ∧ whole ≠ ['0']) then none
  else match readFraction rest with
    | none => none
    | some (fraction,rest) => match readExponent rest with
      | none => none
      | some (exponent,rest) =>
        if negative ∨ fraction ≠ [] ∨ exponent.isSome then
          some (.number negative (valueOf (whole ++ fraction)) (exponent.getD 0 - fraction.length),rest)
        else some (.natural (valueOf whole),rest)

mutual

/-- A value and what follows it; the fuel bounds the nesting and the length. -/
def readValue : Nat → Text → Option (Json × Text)
  | 0,_ => none
  | fuel + 1,text =>
    match skipSpace text with
    | 'n' :: 'u' :: 'l' :: 'l' :: rest => some (.null,rest)
    | 't' :: 'r' :: 'u' :: 'e' :: rest => some (.bool true,rest)
    | 'f' :: 'a' :: 'l' :: 's' :: 'e' :: rest => some (.bool false,rest)
    | '\x22' :: rest => (readString rest).map fun (text,rest) => (.string text,rest)
    | '[' :: rest =>
      match skipSpace rest with
      | ']' :: rest => some (.array [],rest)
      | rest => (readItems fuel rest).map fun (items,rest) => (.array items,rest)
    | '\x7b' :: rest =>
      match skipSpace rest with
      | '\x7d' :: rest => some (.object [],rest)
      | rest => (readMembers fuel rest).map fun (members,rest) => (.object members,rest)
    | text => readNumber text

def readItems : Nat → Text → Option (List Json × Text)
  | 0,_ => none
  | fuel + 1,text =>
    match readValue fuel text with
    | none => none
    | some (item,rest) =>
      match skipSpace rest with
      | ',' :: rest => (readItems fuel rest).map fun (items,rest) => (item :: items,rest)
      | ']' :: rest => some ([item],rest)
      | _ => none

def readMembers : Nat → Text → Option (List (Text × Json) × Text)
  | 0,_ => none
  | fuel + 1,text =>
    match skipSpace text with
    | '\x22' :: rest =>
      match readString rest with
      | none => none
      | some (key,rest) =>
        match skipSpace rest with
        | ':' :: rest =>
          match readValue fuel rest with
          | none => none
          | some (value,rest) =>
            match skipSpace rest with
            | ',' :: rest => (readMembers fuel rest).map fun (members,rest) => ((key,value) :: members,rest)
            | '\x7d' :: rest => some ([(key,value)],rest)
            | _ => none
        | _ => none
    | _ => none

end

/-- The value of a whole text. -/
def parse (text : Text) : Option Json :=
  match readValue (text.length + 1) text with
  | none => none
  | some (value,rest) => if skipSpace rest = [] then some value else none

end Parse

end Json

end S2Script
