import S2Script.Json

/-! What is written is read back: strings by their escapes, values by their structure. -/
namespace S2Script.Json

section Strings

theorem codeUnit_control : ∀ n < 32, codeUnit '0' '0' (hexDigit (n / 16)) (hexDigit (n % 16)) = some n := by decide

theorem readString_plain {c : Char} (noQuote : c ≠ '\x22') (noSlash : c ≠ '\x5c') (printable : ¬c.toNat < 32) (rest : Text) :
    readString (c :: rest) = withHead c (readString rest) := by
  rw [readString.eq_def]
  split <;> simp_all <;> omega

theorem readString_escape (c : Char) (rest : Text) : readString (escapeChar c ++ rest) = withHead c (readString rest) := by
  rw [escapeChar]
  split
  · next same => subst same; rfl
  split
  · next same => subst same; rfl
  split
  · next same => subst same; rfl
  split
  · next same => subst same; rfl
  split
  · next same => subst same; rfl
  split
  · next same => subst same; rfl
  split
  · next same => subst same; rfl
  split
  · next control =>
    simp only [List.cons_append,List.nil_append]
    rw [readString,codeUnit_control c.toNat control]
    simp only
    rw [if_pos (.inl (by omega)),Char.ofNat_toNat]
  · next noQuote noSlash _ _ _ _ _ printable => exact readString_plain noQuote noSlash printable rest

theorem readString_quoted (text rest : Text) : readString (text.flatMap escapeChar ++ '\x22' :: rest) = some (text,rest) := by
  induction text with
  | nil => rfl
  | cons c text ih =>
    rw [List.flatMap_cons,List.append_assoc,readString_escape,ih]
    rfl

end Strings

section Numbers

theorem digitsOf_isDigit {n : Nat} : ∀ c ∈ digitsOf n, c.isDigit = true := fun _ member =>
  Nat.isDigit_of_mem_toDigits (by omega) (by omega) member

theorem digitsOf_ne_nil (n : Nat) : digitsOf n ≠ [] := Nat.toDigits_ne_nil

theorem valueOf_digitsOf (n : Nat) : valueOf (digitsOf n) = n := Nat.ofDigitChars_ten_toDigits

/-- Only zero is written with a leading zero. -/
theorem digitsOf_head (n : Nat) (zero : (digitsOf n).head? = some '0') : n = 0 := by
  induction n using Nat.strongRecOn with
  | ind n ih =>
    rw [digitsOf,Nat.toDigits_eq_if (by omega)] at zero
    split at zero
    · next small =>
      rw [List.head?_cons,Option.some.injEq] at zero
      exact Nat.digitChar_eq_zero.mp zero
    · next large =>
      rw [List.head?_append_of_ne_nil _ Nat.toDigits_ne_nil] at zero
      have smaller := ih (n / 10) (by omega) zero
      omega

/-- Nothing follows that would belong to a number. -/
def Ends (rest : Text) : Prop := ∀ c ∈ rest.head?, c.isDigit = false ∧ c ≠ '.' ∧ c ≠ 'e' ∧ c ≠ 'E'

theorem Ends.noDigit {rest : Text} (ends : Ends rest) : ∀ c ∈ rest.head?, c.isDigit = false :=
  fun c head => (ends c head).1

theorem takeWhile_digits {digits rest : Text} (all : ∀ c ∈ digits, c.isDigit = true)
    (ends : ∀ c ∈ rest.head?, c.isDigit = false) :
    (digits ++ rest).takeWhile Char.isDigit = digits ∧ (digits ++ rest).dropWhile Char.isDigit = rest := by
  induction digits with
  | nil =>
    cases rest with
    | nil => exact ⟨rfl,rfl⟩
    | cons c tail =>
      have other := ends c rfl
      rw [List.nil_append,List.takeWhile_cons_of_neg (by simp [other]),List.dropWhile_cons_of_neg (by simp [other])]
      exact ⟨rfl,rfl⟩
  | cons c digits ih =>
    have digit := all c List.mem_cons_self
    obtain ⟨taken,dropped⟩ := ih fun other member => all other (List.mem_cons_of_mem c member)
    rw [List.cons_append,List.takeWhile_cons_of_pos digit,List.dropWhile_cons_of_pos digit,taken,dropped]
    exact ⟨rfl,rfl⟩

theorem readFraction_none {rest : Text} (ends : Ends rest) : readFraction rest = some ([],rest) := by
  rw [readFraction.eq_def]
  split
  · next tail => exact absurd rfl (ends '.' rfl).2.1
  · rfl

theorem readExponent_none {rest : Text} (ends : Ends rest) : readExponent rest = some (none,rest) := by
  rw [readExponent.eq_def]
  split
  · next c tail =>
    obtain ⟨_,_,lower,upper⟩ := ends c rfl
    rw [if_neg (by simp [lower,upper])]
  · rfl

theorem readSign_digits (n : Nat) (rest : Text) : readSign (digitsOf n ++ rest) = (false,digitsOf n ++ rest) := by
  rw [readSign.eq_def]
  split
  · next tail same =>
    cases digits : digitsOf n with
    | nil => exact absurd digits (digitsOf_ne_nil n)
    | cons c others =>
      have digit := digitsOf_isDigit c (digits ▸ List.mem_cons_self)
      rw [digits,List.cons_append,List.cons.injEq] at same
      rw [same.1] at digit
      exact nomatch digit
  · rfl

theorem readNumber_digitsOf (n : Nat) {rest : Text} (ends : Ends rest) :
    readNumber (digitsOf n ++ rest) = some (.natural n,rest) := by
  have digit := @digitsOf_isDigit n
  obtain ⟨taken,dropped⟩ := takeWhile_digits digit ends.noDigit
  have valid : ¬(digitsOf n = [] ∨ ((digitsOf n).head? = some '0' ∧ digitsOf n ≠ ['0'])) := by
    rintro (empty | ⟨zero,longer⟩)
    · exact digitsOf_ne_nil n empty
    · rw [digitsOf_head n zero] at longer
      exact longer rfl
  rw [readNumber,readSign_digits n]
  simp only [taken,dropped]
  rw [if_neg valid,readFraction_none ends]
  simp only
  rw [readExponent_none ends]
  simp [valueOf_digitsOf]

end Numbers

section Values

/-- A printed number is read back. -/
structure Spells (print : Bool → Nat → Int → Text) (negative : Bool) (mantissa : Nat) (exponent : Int) : Prop where
  head : ∃ c tail, print negative mantissa exponent = c :: tail ∧ (c = '-' ∨ c.isDigit = true)
  read : ∀ rest, Ends rest →
    readNumber (print negative mantissa exponent ++ rest) = some (.number negative mantissa exponent,rest)

variable (print : Bool → Nat → Int → Text)

mutual

/-- Its numbers are read back as they are printed. -/
def Plain : Json → Prop
  | .number negative mantissa exponent => Spells print negative mantissa exponent
  | .array items => PlainItems items
  | .object members => PlainMembers members
  | _ => True

def PlainItems : List Json → Prop
  | [] => True
  | item :: items => Plain item ∧ PlainItems items

def PlainMembers : List (Text × Json) → Prop
  | [] => True
  | (_,value) :: members => Plain value ∧ PlainMembers members

end

variable {print}

theorem skipSpace_newline (level : Nat) (text : Text) : skipSpace (newline level ++ text) = skipSpace text := by
  have blanks : ∀ n, skipSpace (List.replicate n ' ' ++ text) = skipSpace text := by
    intro n
    induction n with
    | zero => rfl
    | succ n ih => exact ih
  exact blanks (2 * level)

theorem skipSpace_cons {c : Char} (solid : isSpace c = false) (text : Text) : skipSpace (c :: text) = c :: text := by
  rw [skipSpace,List.dropWhile_cons_of_neg (by simp [solid])]

theorem readValue_newline (fuel level : Nat) (text : Text) : readValue fuel (newline level ++ text) = readValue fuel text := by
  cases fuel with
  | zero => rfl
  | succ fuel => rw [readValue,skipSpace_newline,readValue]

theorem readItems_newline (fuel level : Nat) (text : Text) : readItems fuel (newline level ++ text) = readItems fuel text := by
  cases fuel with
  | zero => rfl
  | succ fuel => rw [readItems,readValue_newline,readItems]

theorem readMembers_newline (fuel level : Nat) (text : Text) : readMembers fuel (newline level ++ text) = readMembers fuel text := by
  cases fuel with
  | zero => rfl
  | succ fuel => rw [readMembers,skipSpace_newline,readMembers]

theorem ends_newline (level : Nat) (rest : Text) : Ends (newline level ++ rest) := by
  rintro c ⟨⟩
  decide

theorem ends_items (level : Nat) (items : List Json) (last : Nat) (rest : Text) :
    Ends (writeItems print level items ++ (newline last ++ rest)) := by
  cases items with
  | nil => exact ends_newline last rest
  | cons item items =>
    rw [writeItems]
    rintro c ⟨⟩
    decide

theorem ends_members (level : Nat) (members : List (Text × Json)) (last : Nat) (rest : Text) :
    Ends (writeMembers print level members ++ (newline last ++ rest)) := by
  cases members with
  | nil => exact ends_newline last rest
  | cons member members =>
    rw [writeMembers]
    rintro c ⟨⟩
    decide

/-- A number starts with a digit or a sign. -/
theorem first_solid {c : Char} (head : c = '-' ∨ c.isDigit = true) : isSpace c = false ∧ c ≠ ']' := by
  rcases head with rfl | digit
  · decide
  · refine ⟨?_,?_⟩
    · rw [← Bool.not_eq_true]
      intro space
      simp only [isSpace,Bool.or_eq_true,beq_iff_eq] at space
      rcases space with ((rfl | rfl) | rfl) | rfl <;> exact nomatch digit
    · rintro rfl
      exact nomatch digit

theorem digitsOf_first (n : Nat) : ∃ c tail, digitsOf n = c :: tail ∧ (c = '-' ∨ c.isDigit = true) := by
  cases digits : digitsOf n with
  | nil => exact absurd digits (digitsOf_ne_nil n)
  | cons c tail => exact ⟨c,tail,rfl,.inr (digitsOf_isDigit c (digits ▸ List.mem_cons_self))⟩

/-- A written value starts with a character that is no blank and no closing bracket. -/
theorem write_head (level : Nat) (value : Json) (plain : Plain print value) :
    ∃ c tail, write print level value = c :: tail ∧ isSpace c = false ∧ c ≠ ']' := by
  cases value with
  | null => exact ⟨_,_,by rw [write],by decide,by decide⟩
  | bool value => cases value <;> exact ⟨_,_,by rw [write],by decide,by decide⟩
  | natural n =>
    rw [write]
    obtain ⟨c,tail,same,head⟩ := digitsOf_first n
    exact ⟨c,tail,same,first_solid head⟩
  | number negative mantissa exponent =>
    obtain ⟨c,tail,same,head⟩ := plain.head
    rw [write]
    exact ⟨c,tail,same,first_solid head⟩
  | string text => exact ⟨_,_,by rw [write,quoted,List.cons_append],by decide,by decide⟩
  | array items =>
    cases items with
    | nil => exact ⟨_,_,by rw [write],by decide,by decide⟩
    | cons item items => exact ⟨'[',_,by simp only [write,List.cons_append]; rfl,by decide,by decide⟩
  | object members =>
    rcases members with _ | ⟨⟨key,value⟩,members⟩
    · exact ⟨_,_,by rw [write],by decide,by decide⟩
    · exact ⟨'\x7b',_,by simp only [write,List.cons_append]; rfl,by decide,by decide⟩

/-- A writer's text for the first element and the others. -/
theorem length_write_pos (level : Nat) (value : Json) (plain : Plain print value) : 0 < (write print level value).length := by
  obtain ⟨c,tail,same,_⟩ := write_head level value plain
  rw [same]
  exact Nat.succ_pos _

theorem readMembers_head (fuel : Nat) (key : Text) (rest : Text) : readMembers (fuel + 1) (quoted key ++ ':' :: ' ' :: rest) =
    match readValue fuel (' ' :: rest) with
    | none => none
    | some (value,rest) =>
      match skipSpace rest with
      | ',' :: rest => (readMembers fuel rest).map fun (members,rest) => ((key,value) :: members,rest)
      | '\x7d' :: rest => some ([(key,value)],rest)
      | _ => none := by
  have quote : skipSpace (quoted key ++ ':' :: ' ' :: rest) = quoted key ++ ':' :: ' ' :: rest := skipSpace_cons (by decide) _
  rw [readMembers,quote,quoted]
  simp only [List.cons_append,List.append_assoc,List.nil_append]
  rw [readString_quoted]
  simp only
  rw [skipSpace_cons (by decide)]
  rfl

theorem readValue_blank (fuel : Nat) (text : Text) : readValue fuel (' ' :: text) = readValue fuel text := by
  cases fuel with
  | zero => rfl
  | succ fuel => rw [readValue,readValue]; rfl

/-- The head of a written number decides how it is read. -/
theorem readValue_number {text : Text} (fuel : Nat) (number : ∃ c tail, text = c :: tail ∧ (c = '-' ∨ c.isDigit = true)) :
    readValue (fuel + 1) text = readNumber text := by
  obtain ⟨c,tail,rfl,head⟩ := number
  have other : ∀ d, d ∈ ['n','t','f','\x22','[','\x7b'] → c ≠ d := by
    rintro d member rfl
    rcases head with rfl | digit
    · exact absurd member (by decide)
    · have none : ∀ d ∈ ['n','t','f','\x22','[','\x7b'], d.isDigit = false := by
        simp only [List.mem_cons,List.not_mem_nil,or_false]
        rintro d (rfl | rfl | rfl | rfl | rfl | rfl) <;> rfl
      rw [none _ member] at digit
      cases digit
  rw [readValue,skipSpace_cons (first_solid head).1]
  split
  · next same => exact absurd (List.cons.inj same).1 (other _ (by decide))
  · next same => exact absurd (List.cons.inj same).1 (other _ (by decide))
  · next same => exact absurd (List.cons.inj same).1 (other _ (by decide))
  · next same => exact absurd (List.cons.inj same).1 (other _ (by decide))
  · next same => exact absurd (List.cons.inj same).1 (other _ (by decide))
  · next same => exact absurd (List.cons.inj same).1 (other _ (by decide))
  · rfl

theorem readValue_array (fuel : Nat) {c : Char} (solid : isSpace c = false) (other : c ≠ ']') (level : Nat) (text : Text) :
    readValue (fuel + 1) ('[' :: (newline level ++ c :: text)) =
      (readItems fuel (c :: text)).map fun (items,rest) => (.array items,rest) := by
  rw [readValue,skipSpace_cons (by decide)]
  simp only
  rw [skipSpace_newline,skipSpace_cons solid]
  split
  · next same => exact absurd (List.cons.inj same).1 other
  · rfl

theorem readValue_object (fuel level : Nat) (text : Text) :
    readValue (fuel + 1) ('\x7b' :: (newline level ++ '\x22' :: text)) =
      (readMembers fuel ('\x22' :: text)).map fun (members,rest) => (.object members,rest) := by
  rw [readValue,skipSpace_cons (by decide)]
  simp only
  rw [skipSpace_newline,skipSpace_cons (by decide)]
  rfl

mutual

/-- A written value is read back, with what follows it. -/
theorem readValue_write (value : Json) (plain : Plain print value) (level fuel : Nat) (enough : (write print level value).length < fuel)
    (rest : Text) (ends : Ends rest) : readValue fuel (write print level value ++ rest) = some (value,rest) := by
  obtain ⟨fuel,rfl⟩ : ∃ less, fuel = less + 1 := ⟨fuel - 1,by omega⟩
  match value with
  | .null => rw [write]; rfl
  | .bool true => rw [write]; rfl
  | .bool false => rw [write]; rfl
  | .natural n =>
    obtain ⟨c,tail,same,head⟩ := digitsOf_first n
    rw [write,readValue_number fuel ⟨c,tail ++ rest,by rw [same,List.cons_append],head⟩]
    exact readNumber_digitsOf n ends
  | .number negative mantissa exponent =>
    obtain ⟨c,tail,same,head⟩ := plain.head
    rw [write,readValue_number fuel ⟨c,tail ++ rest,by rw [same,List.cons_append],head⟩]
    exact plain.read rest ends
  | .string text =>
    rw [write,quoted,readValue]
    simp only [List.cons_append,List.append_assoc,List.nil_append]
    rw [skipSpace_cons (by decide)]
    simp only
    rw [readString_quoted]
    rfl
  | .array [] => rw [write]; rfl
  | .array (item :: items) =>
    obtain ⟨c,tail,text,solid,other⟩ := write_head (level + 1) item plain.1
    rw [write] at enough ⊢
    simp only [List.cons_append,List.append_assoc,List.nil_append,List.length_cons,List.length_append] at enough ⊢
    rw [text,List.cons_append,readValue_array fuel solid other,← List.cons_append,← text]
    rw [readItems_write item items plain (level + 1) fuel level (by simp; omega) rest]
    rfl
  | .object [] => rw [write]; rfl
  | .object ((key,value) :: members) =>
    rw [write] at enough ⊢
    simp only [List.cons_append,List.append_assoc,List.nil_append,List.length_cons,List.length_append] at enough ⊢
    have inside := readMembers_write key value members plain (level + 1) fuel level (by simp; omega) rest
    simp only [quoted,List.cons_append] at inside ⊢
    rw [readValue_object,inside]
    rfl
termination_by fuel

theorem readItems_write (item : Json) (items : List Json) (plain : PlainItems print (item :: items)) (level fuel last : Nat)
    (enough : (write print level item ++ writeItems print level items).length + 1 < fuel) (rest : Text) :
    readItems fuel (write print level item ++ (writeItems print level items ++ (newline last ++ ']' :: rest))) = some (item :: items,rest) := by
  obtain ⟨fuel,rfl⟩ : ∃ less, fuel = less + 1 := ⟨fuel - 1,by omega⟩
  rw [List.length_append] at enough
  rw [readItems,readValue_write item plain.1 level fuel (by omega) _ (ends_items level items last _)]
  simp only
  match items with
  | [] =>
    rw [writeItems,List.nil_append,skipSpace_newline,skipSpace_cons (by decide)]
    rfl
  | next :: items =>
    have positive := length_write_pos level item plain.1
    rw [writeItems] at enough ⊢
    simp only [List.cons_append,List.append_assoc,List.length_cons,List.length_append] at enough ⊢
    rw [skipSpace_cons (by decide)]
    simp only
    rw [readItems_newline,readItems_write next items plain.2 level fuel last (by simp; omega) rest]
    rfl
termination_by fuel

theorem readMembers_write (key : Text) (value : Json) (members : List (Text × Json)) (plain : PlainMembers print ((key,value) :: members))
    (level fuel last : Nat) (enough : (quoted key ++ [':',' '] ++ write print level value ++ writeMembers print level members).length + 1 < fuel)
    (rest : Text) :
    readMembers fuel (quoted key ++ ':' :: ' ' :: (write print level value ++ (writeMembers print level members ++ (newline last ++ '\x7d' :: rest)))) =
      some ((key,value) :: members,rest) := by
  obtain ⟨fuel,rfl⟩ : ∃ less, fuel = less + 1 := ⟨fuel - 1,by omega⟩
  simp only [List.length_append,List.length_cons] at enough
  rw [readMembers_head,readValue_blank,readValue_write value plain.1 level fuel (by omega) _ (ends_members level members last _)]
  simp only
  match members with
  | [] =>
    rw [writeMembers,List.nil_append,skipSpace_newline,skipSpace_cons (by decide)]
    rfl
  | (other,next) :: members =>
    rw [writeMembers] at enough ⊢
    simp only [List.cons_append,List.append_assoc,List.nil_append,List.length_cons,List.length_append] at enough ⊢
    rw [skipSpace_cons (by decide)]
    simp only
    rw [readMembers_newline,readMembers_write other next members plain.2 level fuel last (by simp; omega) rest]
    rfl
termination_by fuel

end

/-- Writing and parsing, with blanks allowed after the value. -/
theorem parse_pretty (value : Json) (plain : Plain print value) (blanks : Text) (blank : ∀ c ∈ blanks, isSpace c = true) :
    parse (pretty print value ++ blanks) = some value := by
  have ends : Ends blanks := by
    intro c member
    have space := blank c (List.mem_of_mem_head? member)
    simp only [isSpace,Bool.or_eq_true,beq_iff_eq] at space
    rcases space with ((rfl | rfl) | rfl) | rfl <;> decide
  have skipped : skipSpace blanks = [] := by
    rw [skipSpace,List.dropWhile_eq_nil_iff]
    exact blank
  rw [parse,pretty,readValue_write value plain 0 _ (by simp <;> omega) blanks ends]
  simp only
  rw [if_pos skipped]

end Values

end S2Script.Json
