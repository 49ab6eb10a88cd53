import Mathlib

/-! Fields of a block of bytes: what a write leaves of them, and numbers that they hold in octal. -/
namespace S2Script.ByteFields

abbrev Bytes := List UInt8

section Fields

/-- Bytes put over those from an offset on. -/
def write (block bytes : Bytes) (offset : Nat) : Bytes :=
  block.take offset ++ bytes ++ block.drop (offset + bytes.length)

def field (block : Bytes) (offset size : Nat) : Bytes := (block.drop offset).take size

variable {block bytes : Bytes} {offset : Nat}

theorem write_length (inside : offset + bytes.length ≤ block.length) :
    (write block bytes offset).length = block.length := by
  simp only [write,List.length_append,List.length_take,List.length_drop]
  omega

theorem getElem?_write (inside : offset + bytes.length ≤ block.length) (i : Nat) :
    (write block bytes offset)[i]? =
      if offset ≤ i ∧ i < offset + bytes.length then bytes[i - offset]? else block[i]? := by
  have front : (block.take offset).length = offset := List.length_take_of_le (by omega)
  simp only [write,List.append_assoc,List.getElem?_append,front,List.getElem?_take,List.getElem?_drop]
  by_cases before : i < offset
  · have outside : ¬(offset ≤ i ∧ i < offset + bytes.length) := by omega
    simp only [before,if_true,if_neg outside]
  · by_cases within : i - offset < bytes.length
    · have here : offset ≤ i ∧ i < offset + bytes.length := by omega
      simp only [before,within,if_false,if_true,if_pos here]
    · have outside : ¬(offset ≤ i ∧ i < offset + bytes.length) := by omega
      have place : offset + bytes.length + (i - offset - bytes.length) = i := by omega
      simp only [before,within,if_false,if_neg outside,place]

theorem getElem?_field (block : Bytes) (offset size k : Nat) :
    (field block offset size)[k]? = if k < size then block[offset + k]? else none := by
  simp only [field,List.getElem?_take,List.getElem?_drop]

/-- A field beside the write is as it was. -/
theorem field_write_other (inside : offset + bytes.length ≤ block.length) {start size : Nat}
    (beside : start + size ≤ offset ∨ offset + bytes.length ≤ start) :
    field (write block bytes offset) start size = field block start size := by
  apply List.ext_getElem?
  intro k
  simp only [getElem?_field,getElem?_write inside]
  by_cases within : k < size
  · have outside : ¬(offset ≤ start + k ∧ start + k < offset + bytes.length) := by omega
    simp only [if_pos within,if_neg outside]
  · simp only [if_neg within]

/-- The field that was written begins with what was written. -/
theorem field_write_self (inside : offset + bytes.length ≤ block.length) {size : Nat} (fits : bytes.length ≤ size) :
    field (write block bytes offset) offset size = bytes ++ (field block offset size).drop bytes.length := by
  apply List.ext_getElem?
  intro k
  simp only [List.getElem?_append,List.getElem?_drop,getElem?_field,getElem?_write inside]
  by_cases written : k < bytes.length
  · have within : k < size := by omega
    have here : offset ≤ offset + k ∧ offset + k < offset + bytes.length := by omega
    have place : offset + k - offset = k := by omega
    simp only [written,if_pos within,if_pos here,place,if_true]
  · have beyond : ¬(offset ≤ offset + k ∧ offset + k < offset + bytes.length) := by omega
    have place : bytes.length + (k - bytes.length) = k := by omega
    simp only [written,if_neg beyond,place,if_false]

/-- A field that the bytes fill holds them. -/
theorem field_write_filled (inside : offset + bytes.length ≤ block.length) :
    field (write block bytes offset) offset bytes.length = bytes := by
  have rest : (field block offset bytes.length).drop bytes.length = [] :=
    List.drop_eq_nil_of_le (by simp only [field,List.length_take]; omega)
  simpa only [rest,List.append_nil] using field_write_self inside (Nat.le_refl _)

/-- The later of two writes of one length counts. -/
theorem write_write {other : Bytes} (inside : offset + bytes.length ≤ block.length)
    (same : other.length = bytes.length) : write (write block bytes offset) other offset = write block other offset := by
  have inside' : offset + other.length ≤ block.length := by omega
  have inside'' : offset + other.length ≤ (write block bytes offset).length := by
    simp only [write_length inside]
    omega
  apply List.ext_getElem?
  intro i
  simp only [getElem?_write inside'',getElem?_write inside',getElem?_write inside,same]
  split <;> rfl

/-- What is written over itself is left. -/
theorem write_field (inside : offset + bytes.length ≤ block.length)
    (held : field block offset bytes.length = bytes) : write block bytes offset = block := by
  apply List.ext_getElem?
  intro i
  simp only [getElem?_write inside]
  by_cases here : offset ≤ i ∧ i < offset + bytes.length
  · have place : offset + (i - offset) = i := by omega
    have within : i - offset < bytes.length := by omega
    have same : (field block offset bytes.length)[i - offset]? = bytes[i - offset]? := congrArg (·[i - offset]?) held
    simp only [getElem?_field,if_pos within,place] at same
    simp only [if_pos here,same]
  · simp only [if_neg here]

end Fields

section Octal

/-- A byte that spells an octal digit. -/
def isOctal (b : UInt8) : Bool := 48 ≤ b && b ≤ 55

/-- The number that octal digits spell. -/
def octalValue (digits : Bytes) : Nat := digits.foldl (fun n b => 8 * n + (b.toNat - 48)) 0

/-- The number of a field: octal digits up to a zero byte or a space. -/
def readOctal (bytes : Bytes) : Option Nat :=
  match bytes.takeWhile isOctal,(bytes.dropWhile isOctal).head? with
  | d :: digits,some stop => if stop = 0 ∨ stop = 32 then some (octalValue (d :: digits)) else none
  | _,_ => none

/-- A number in octal, led by zeros to a length. -/
def octalDigits (value size : Nat) : List Char := (Nat.toDigits 8 value).leftpad size '0'

theorem octalDigits_length {value size : Nat} (fits : value < 8 ^ size) (positive : 0 < size) :
    (octalDigits value size).length = size := by
  have short := (Nat.length_toDigits_le_iff (by decide) positive).mpr fits
  simp only [octalDigits,List.length_leftpad]
  omega

theorem toDigits_octal {c : Char} (n : Nat) (member : c ∈ Nat.toDigits 8 n) : 48 ≤ c.toNat ∧ c.toNat ≤ 55 := by
  have digit : ∀ k < 8, 48 ≤ (Nat.digitChar k).toNat ∧ (Nat.digitChar k).toNat ≤ 55 := by decide
  induction n using Nat.strongRecOn with
  | ind n ih =>
    by_cases small : n < 8
    · simp only [Nat.toDigits_of_lt_base small,List.mem_singleton] at member
      exact member ▸ digit n small
    · simp only [Nat.toDigits_of_base_le (by decide) (Nat.le_of_not_lt small),List.mem_append,List.mem_singleton] at member
      rcases member with higher | rfl
      · exact ih (n / 8) (by omega) higher
      · exact digit (n % 8) (Nat.mod_lt n (by decide))

theorem octalDigits_octal {c : Char} (value size : Nat) (member : c ∈ octalDigits value size) :
    48 ≤ c.toNat ∧ c.toNat ≤ 55 := by
  simp only [octalDigits,List.leftpad,List.mem_append,List.mem_replicate] at member
  rcases member with ⟨-,rfl⟩ | digit
  · decide
  · exact toDigits_octal value digit

/-- The byte of an ASCII character. -/
def byte (c : Char) : UInt8 := UInt8.ofNat c.toNat

theorem byte_toNat {c : Char} (ascii : c.toNat < 128) : (byte c).toNat = c.toNat := by
  simp only [byte,UInt8.toNat_ofNat']
  omega

theorem octalValue_map {digits : List Char} (ascii : ∀ c ∈ digits, c.toNat < 128) :
    octalValue (digits.map byte) = Nat.ofDigitChars 8 digits 0 := by
  have from_any : ∀ (digits : List Char) (n : Nat), (∀ c ∈ digits, c.toNat < 128) →
      (digits.map byte).foldl (fun n b => 8 * n + (b.toNat - 48)) n = Nat.ofDigitChars 8 digits n := by
    intro digits
    induction digits with
    | nil => intro n _; rfl
    | cons c rest ih =>
      intro n ascii
      simp only [List.map_cons,List.foldl_cons,Nat.ofDigitChars_cons,byte_toNat (ascii c List.mem_cons_self)]
      exact ih _ fun d member => ascii d (List.mem_cons_of_mem c member)
  exact from_any digits 0 ascii

/-- A number in octal, and its end, are read back. -/
theorem readOctal_octalDigits {value size : Nat} (stop : UInt8) (ends : stop = 0 ∨ stop = 32) (rest : Bytes) :
    readOctal ((octalDigits value size).map byte ++ stop :: rest) = some value := by
  have ascii : ∀ c ∈ octalDigits value size, c.toNat < 128 := fun c member =>
    Nat.lt_of_le_of_lt (octalDigits_octal value size member).2 (by decide)
  have octal : ∀ b ∈ (octalDigits value size).map byte, isOctal b = true := by
    intro b member
    obtain ⟨c,inside,rfl⟩ := List.mem_map.mp member
    have range := octalDigits_octal value size inside
    have same := byte_toNat (ascii c inside)
    simp only [isOctal,Bool.and_eq_true,decide_eq_true_eq,UInt8.le_iff_toNat_le,same]
    exact range
  have other : isOctal stop = false := by rcases ends with rfl | rfl <;> rfl
  have spelled : octalValue ((octalDigits value size).map byte) = value := by
    refine (octalValue_map ascii).trans ?_
    simp only [octalDigits,List.leftpad,Nat.ofDigitChars_append,Nat.ofDigitChars_replicate_zero,Nat.mul_zero]
    exact Nat.ofDigitChars_toDigits (by decide) (by decide)
  have nonempty : (octalDigits value size).map byte ≠ [] := by
    simp [octalDigits,List.leftpad,Nat.toDigits_ne_nil]
  simp only [readOctal,List.takeWhile_append_of_pos octal,List.dropWhile_append_of_pos octal,List.takeWhile_cons,
    List.dropWhile_cons,other,Bool.false_eq_true,if_false,List.append_nil,List.head?_cons]
  cases digits : (octalDigits value size).map byte with
  | nil => exact absurd digits nonempty
  | cons d rest =>
    simp only [if_pos ends]
    exact congrArg some (digits ▸ spelled)

end Octal

end S2Script.ByteFields
