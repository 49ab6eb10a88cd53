import S2Script.ConfigFile
import S2Script.JsonRoundTrip

/-! A JSON library with whole numbers for floats: its compact texts are tokens on one line, and its reader
drops the blanks between tokens. -/
namespace S2Script.Config

open Interop Comments

instance : RangeFloat Int where
  eq a b := a == b
  ofInt n := n
  lt a b := a < b

section Write

def writeInt (n : Int) : Text := if n < 0 then '-' :: Json.digitsOf n.natAbs else Json.digitsOf n.natAbs

def writeNumber : Number Int → Text
  | .posInt value => Json.digitsOf value.toNat
  | .negInt value => writeInt value.toInt
  | .float value => writeInt value ++ ['.','0']

mutual

def writeValue : Value Int → Text
  | .null => ['n','u','l','l']
  | .bool true => ['t','r','u','e']
  | .bool false => ['f','a','l','s','e']
  | .number value => writeNumber value
  | .string value => Json.quoted value.toList
  | .array items => '[' :: (writeItems items ++ [']'])
  | .object members => '\x7b' :: (writeMembers members ++ ['\x7d'])

def writeItems : List (Value Int) → Text
  | [] => []
  | [item] => writeValue item
  | item :: items => writeValue item ++ ',' :: writeItems items

def writeMembers : List (String × Value Int) → Text
  | [] => []
  | [(key,value)] => Json.quoted key.toList ++ ':' :: writeValue value
  | (key,value) :: members => Json.quoted key.toList ++ ':' :: (writeValue value ++ ',' :: writeMembers members)

end

mutual

def ofJson : Json → Value Int
  | .null => .null
  | .bool value => .bool value
  | .natural value => if value < 2 ^ 64 then .number (.posInt (UInt64.ofNat value)) else .number (.float value)
  | .number negative mantissa exponent =>
    let value : Int := if negative then -mantissa else mantissa
    if exponent = 0 then .number (.negInt (Int64.ofInt value)) else .number (.float (value / 10 ^ exponent.natAbs))
  | .string value => .string (String.ofList value)
  | .array items => .array (ofItems items)
  | .object members => .object (ofMembers members)

def ofItems : List Json → List (Value Int)
  | [] => []
  | item :: items => ofJson item :: ofItems items

def ofMembers : List (Text × Json) → List (String × Value Int)
  | [] => []
  | (key,value) :: members => (String.ofList key,ofJson value) :: ofMembers members

end

def wholeJson : SerdeJson Int where
  toText := writeValue
  fromText text := (Json.parse (dropSpaces false text)).map ofJson

end Write

section Tokens

theorem inside_cons {c : Char} (noQuote : c ≠ '\x22') (noEscape : c ≠ '\x5c') {rest : Text} (inside : Piece.Inside true rest) :
    Piece.Inside true (c :: rest) := by
  cases rest with
  | nil => exact ⟨noQuote,fun same => absurd same noEscape⟩
  | cons d rest =>
    rw [Piece.Inside,if_neg noEscape]
    exact ⟨noQuote,inside⟩

theorem inside_pair (c : Char) {rest : Text} (inside : Piece.Inside true rest) : Piece.Inside true ('\x5c' :: c :: rest) := by
  rw [Piece.Inside,if_pos rfl]
  exact inside

/-- No quote, no backslash and no line break. -/
def PlainChar (c : Char) : Prop := c ≠ '\x22' ∧ c ≠ '\x5c' ∧ c ≠ '\n' ∧ c ≠ '\r'

theorem hexDigit_plain : ∀ n < 16, PlainChar (Json.hexDigit n) := by
  unfold PlainChar
  decide

/-- A character is escaped by a pair, by four digits, or not at all. -/
theorem escapeChar_shape (c : Char) :
    (∃ d, d ≠ '\n' ∧ d ≠ '\r' ∧ Json.escapeChar c = ['\x5c',d]) ∨
      (∃ high low, PlainChar high ∧ PlainChar low ∧ Json.escapeChar c = ['\x5c','u','0','0',high,low]) ∨
        PlainChar c ∧ Json.escapeChar c = [c] := by
  simp only [Json.escapeChar]
  split
  · exact .inl ⟨_,by decide,by decide,rfl⟩
  split
  · exact .inl ⟨_,by decide,by decide,rfl⟩
  split
  · exact .inl ⟨_,by decide,by decide,rfl⟩
  split
  · exact .inl ⟨_,by decide,by decide,rfl⟩
  split
  · exact .inl ⟨_,by decide,by decide,rfl⟩
  split
  · exact .inl ⟨_,by decide,by decide,rfl⟩
  split
  · exact .inl ⟨_,by decide,by decide,rfl⟩
  split
  · exact .inr (.inl ⟨_,_,hexDigit_plain _ (by omega),hexDigit_plain _ (by omega),rfl⟩)
  · next noQuote noSlash _ _ noFeed noReturn _ _ => exact .inr (.inr ⟨⟨noQuote,noSlash,noFeed,noReturn⟩,rfl⟩)

theorem inside_escape (c : Char) {rest : Text} (inside : Piece.Inside true rest) : Piece.Inside true (Json.escapeChar c ++ rest) := by
  obtain ⟨d,_,_,same⟩ | ⟨high,low,first,second,same⟩ | ⟨plain,same⟩ := escapeChar_shape c
  · rw [same]
    exact inside_pair d inside
  · rw [same]
    have digits := inside_cons first.1 first.2.1 (inside_cons second.1 second.2.1 inside)
    exact inside_pair 'u' (inside_cons (by decide) (by decide) (inside_cons (by decide) (by decide) digits))
  · rw [same]
    exact inside_cons plain.1 plain.2.1 inside

theorem unbroken_escape (c : Char) : Unbroken (Json.escapeChar c) := by
  intro x member
  obtain ⟨d,noFeed,noReturn,same⟩ | ⟨high,low,first,second,same⟩ | ⟨plain,same⟩ := escapeChar_shape c
  · simp only [same,List.mem_cons,List.not_mem_nil,or_false] at member
    rcases member with rfl | rfl
    · decide
    · exact ⟨noFeed,noReturn⟩
  · simp only [same,List.mem_cons,List.not_mem_nil,or_false] at member
    rcases member with rfl | rfl | rfl | rfl | rfl | rfl
    · decide
    · decide
    · decide
    · decide
    · exact first.2.2
    · exact second.2.2
  · rw [same,List.mem_singleton] at member
    exact member ▸ plain.2.2

theorem tokens_quoted (text : Text) : Tokens (Json.quoted text) := by
  have inside : Piece.Inside true (text.flatMap Json.escapeChar) := by
    induction text with
    | nil => trivial
    | cons c text ih =>
      rw [List.flatMap_cons]
      exact inside_escape c ih
  have unbroken : Unbroken (text.flatMap Json.escapeChar) := by
    intro x member
    obtain ⟨c,_,here⟩ := List.mem_flatMap.mp member
    exact unbroken_escape c x here
  exact .literal inside unbroken .nil

/-- Characters that are no quote, slash or line break are tokens. -/
theorem tokens_plain {text : Text} (plain : ∀ c ∈ text, c ≠ '\x22' ∧ c ≠ '/' ∧ c ≠ '\n' ∧ c ≠ '\r') : Tokens text := by
  induction text with
  | nil => exact .nil
  | cons c text ih =>
    obtain ⟨noQuote,noSlash,noFeed,noReturn⟩ := plain c List.mem_cons_self
    exact .solid noQuote noSlash noFeed noReturn (ih fun d member => plain d (List.mem_cons_of_mem c member))

theorem tokens_digits (n : Nat) : Tokens (Json.digitsOf n) := by
  apply tokens_plain
  intro c member
  have digit := Json.digitsOf_isDigit c member
  refine ⟨?_,?_,?_,?_⟩ <;> rintro rfl <;> exact nomatch digit

theorem tokens_cons {c : Char} {text : Text} (plain : c ≠ '\x22' ∧ c ≠ '/' ∧ c ≠ '\n' ∧ c ≠ '\r') (tokens : Tokens text) :
    Tokens (c :: text) :=
  .solid plain.1 plain.2.1 plain.2.2.1 plain.2.2.2 tokens

theorem tokens_writeInt (n : Int) : Tokens (writeInt n) := by
  rw [writeInt]
  split
  · exact tokens_cons (by decide) (tokens_digits _)
  · exact tokens_digits _

theorem tokens_writeNumber (n : Number Int) : Tokens (writeNumber n) := by
  cases n with
  | posInt value => exact tokens_digits _
  | negInt value => exact tokens_writeInt _
  | float value => exact (tokens_writeInt value).append (tokens_cons (by decide) (tokens_cons (by decide) .nil))

mutual

theorem tokens_writeValue : (value : Value Int) → Tokens (writeValue value)
  | .null | .bool true | .bool false => by
    rw [writeValue]
    exact tokens_plain (by simp)
  | .number value => by
    rw [writeValue]
    exact tokens_writeNumber value
  | .string value => by
    rw [writeValue]
    exact tokens_quoted value.toList
  | .array items => by
    rw [writeValue]
    exact tokens_cons (by decide) ((tokens_writeItems items).append (tokens_cons (by decide) .nil))
  | .object members => by
    rw [writeValue]
    exact tokens_cons (by decide) ((tokens_writeMembers members).append (tokens_cons (by decide) .nil))

theorem tokens_writeItems : (items : List (Value Int)) → Tokens (writeItems items)
  | [] => by
    rw [writeItems]
    exact .nil
  | [item] => by
    rw [writeItems]
    exact tokens_writeValue item
  | item :: next :: items => by
    rw [writeItems]
    · exact (tokens_writeValue item).append (tokens_cons (by decide) (tokens_writeItems (next :: items)))
    · exact nofun

theorem tokens_writeMembers : (members : List (String × Value Int)) → Tokens (writeMembers members)
  | [] => by
    rw [writeMembers]
    exact .nil
  | [(key,value)] => by
    rw [writeMembers]
    exact (tokens_quoted key.toList).append (tokens_cons (by decide) (tokens_writeValue value))
  | (key,value) :: next :: members => by
    rw [writeMembers]
    · have later : Tokens (',' :: writeMembers (next :: members)) := tokens_cons (by decide) (tokens_writeMembers (next :: members))
      exact (tokens_quoted key.toList).append (tokens_cons (by decide) ((tokens_writeValue value).append later))
    · exact nofun

end

end Tokens

section Blanks

/-- Blanks are dropped from tokens by themselves. -/
theorem dropSpaces_tokens {text : Text} (tokens : Tokens text) (rest : Text) :
    dropSpaces false (text ++ rest) = dropSpaces false text ++ dropSpaces false rest := by
  induction tokens with
  | nil => simp [dropSpaces]
  | solid noQuote _ _ _ _ ih =>
    rw [List.cons_append,dropSpaces_cons,dropSpaces_cons,decide_eq_false noQuote]
    split
    · exact ih
    · rw [ih,List.cons_append]
  | literal inside _ _ ih =>
    have opens : ∀ tail, dropSpaces false ('\x22' :: tail) = '\x22' :: dropSpaces true tail := by
      intro tail
      rw [dropSpaces_cons]
      rfl
    have closes : ∀ tail, dropSpaces true ('\x22' :: tail) = '\x22' :: dropSpaces false tail := by
      intro tail
      rw [dropSpaces_quoted (by decide)]
      rfl
    have through := fun tail => dropSpaces_inside inside tail fun no => by cases no
    rw [List.cons_append,List.append_assoc,List.cons_append,opens,opens,through,through,closes,closes,ih]
    simp

theorem dropSpaces_plain {c : Char} (noQuote : c ≠ '\x22') (solid : Json.isSpace c = false) (rest : Text) :
    dropSpaces false (c :: rest) = c :: dropSpaces false rest := by
  rw [dropSpaces_cons,if_neg (by simp [solid]),decide_eq_false noQuote]

/-- A text without its blanks, whatever follows it. -/
def SameTokens (text compact : Text) : Prop :=
  ∀ rest, dropSpaces false (text ++ rest) = dropSpaces false (compact ++ rest)

theorem SameTokens.cons {c : Char} (noQuote : c ≠ '\x22') (solid : Json.isSpace c = false) {text compact : Text}
    (same : SameTokens text compact) : SameTokens (c :: text) (c :: compact) := by
  intro rest
  rw [List.cons_append,List.cons_append,dropSpaces_plain noQuote solid,dropSpaces_plain noQuote solid,same]

theorem SameTokens.append {first second compact other : Text} (one : SameTokens first compact) (tokens : Tokens compact)
    (two : SameTokens second other) : SameTokens (first ++ second) (compact ++ other) := by
  intro rest
  rw [List.append_assoc,List.append_assoc,one,dropSpaces_tokens tokens,dropSpaces_tokens tokens,two]

theorem SameTokens.blank {blank text compact : Text} (spaces : Blank blank) (same : SameTokens text compact) :
    SameTokens (blank ++ text) compact := by
  intro rest
  rw [List.append_assoc,dropSpaces_blank spaces,same]

theorem SameTokens.refl (text : Text) : SameTokens text text := fun _ => rfl

mutual

theorem same_spaced : {value : Value Int} → {text : Text} → Spaced wholeJson value text → SameTokens text (writeValue value)
  | _,_,.compact value => .refl (writeValue value)
  | _,_,.object inside => by
    rw [writeValue]
    have closes : SameTokens ['\x7d'] ['\x7d'] := .refl _
    exact .cons (by decide) (by decide) ((same_members inside).append (tokens_writeMembers _) closes)

theorem same_members : {members : List (String × Value Int)} → {text : Text} → SpacedMembers wholeJson members text →
    SameTokens text (writeMembers members)
  | _,_,.none blanks => by
    rw [writeMembers]
    have dropped := SameTokens.blank blanks (.refl [])
    rwa [List.append_nil] at dropped
  | _,_,@SpacedMembers.last _ _ key _ _ _ _ _ first second here third => by
    have tail := SameTokens.blank third (.refl [])
    rw [List.append_nil] at tail
    have value := (same_spaced here).append (tokens_writeValue _) tail
    rw [List.append_nil] at value
    rw [writeMembers]
    exact .blank first ((SameTokens.refl _).append (tokens_quoted key.toList) (.cons (by decide) (by decide) (.blank second value)))
  | _,_,@SpacedMembers.more _ _ key _ _ _ _ _ _ _ first second here later => by
    have comma := @SameTokens.cons ',' (by decide) (by decide) _ _ (same_members later)
    have value := (same_spaced here).append (tokens_writeValue _) comma
    rw [writeMembers]
    · exact .blank first ((SameTokens.refl _).append (tokens_quoted key.toList) (.cons (by decide) (by decide) (.blank second value)))
    · exact nofun

end

theorem wholeJson_laws : wholeJson.Laws where
  tokens := tokens_writeValue
  spaces value text spaced := by
    have same := same_spaced spaced []
    rw [List.append_nil,List.append_nil] at same
    simp only [wholeJson,same]

end Blanks

end S2Script.Config
