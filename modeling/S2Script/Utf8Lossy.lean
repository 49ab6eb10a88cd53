import Mathlib

/-! Lossy decoding of UTF-8: a character for each well formed sequence, one replacement character for
each longest beginning of one that breaks off. The text has at most three times the bytes. -/
namespace S2Script.Utf8

def continuation (byte : UInt8) : Bool := 0x80 ≤ byte && byte ≤ 0xBF

/-- The second bytes of a sequence of three: none that is overlong or a surrogate. -/
def secondOfThree (first second : UInt8) : Bool :=
  if first = 0xE0 then 0xA0 ≤ second && second ≤ 0xBF
  else if first = 0xED then 0x80 ≤ second && second ≤ 0x9F
  else continuation second

/-- The second bytes of a sequence of four: none that is overlong or above the last code point. -/
def secondOfFour (first second : UInt8) : Bool :=
  if first = 0xF0 then 0x90 ≤ second && second ≤ 0xBF
  else if first = 0xF4 then 0x80 ≤ second && second ≤ 0x8F
  else continuation second

/-- The bits of a sequence, six for each byte after the first. -/
def codePoint (bits : Nat) (tail : List UInt8) : Char :=
  Char.ofNat (tail.foldl (fun bits byte => bits * 64 + (byte.toNat - 0x80)) bits)

def replacement : Char := '\uFFFD'

/-- Two more bytes of a sequence of which the first ones are read. -/
def third (bits : Nat) (second : UInt8) : List UInt8 → Char × List UInt8
  | byte :: rest => if continuation byte then (codePoint bits [second,byte],rest) else (replacement,byte :: rest)
  | [] => (replacement,[])

def fourth (bits : Nat) (second : UInt8) : List UInt8 → Char × List UInt8
  | byte :: rest =>
    if continuation byte then
      match rest with
      | last :: after => if continuation last then (codePoint bits [second,byte,last],after) else (replacement,rest)
      | [] => (replacement,[])
    else (replacement,byte :: rest)
  | [] => (replacement,[])

/-- The first character of a text that starts with a byte, and what comes after it. -/
def decodeFirst (first : UInt8) (rest : List UInt8) : Char × List UInt8 :=
  if first < 0x80 then (Char.ofNat first.toNat,rest)
  else match rest with
    | [] => (replacement,[])
    | second :: after =>
      if 0xC2 ≤ first ∧ first ≤ 0xDF then
        if continuation second then (codePoint (first.toNat - 0xC0) [second],after) else (replacement,rest)
      else if 0xE0 ≤ first ∧ first ≤ 0xEF then
        if secondOfThree first second then third (first.toNat - 0xE0) second after else (replacement,rest)
      else if 0xF0 ≤ first ∧ first ≤ 0xF4 then
        if secondOfFour first second then fourth (first.toNat - 0xF0) second after else (replacement,rest)
      else (replacement,rest)

theorem utf8Size_le_four (c : Char) : c.utf8Size ≤ 4 := by
  simp only [Char.utf8Size]
  split
  · omega
  · split
    · omega
    · split <;> omega

theorem replacement_size : replacement.utf8Size = 3 := by decide

theorem ascii_size (byte : UInt8) (ascii : byte < 0x80) : (Char.ofNat byte.toNat).utf8Size = 1 := by
  have small : byte.toNat < 128 := UInt8.lt_iff_toNat_lt.mp ascii
  have sizes : ∀ n < 128, (Char.ofNat n).utf8Size = 1 := by decide
  exact sizes byte.toNat small

theorem third_spec (bits : Nat) (second : UInt8) (rest : List UInt8) : (third bits second rest).2.length ≤ rest.length := by
  fun_cases third <;> simp

theorem fourth_spec (bits : Nat) (second : UInt8) (rest : List UInt8) : (fourth bits second rest).2.length ≤ rest.length := by
  fun_cases fourth <;> simp <;> omega

/-- A step takes a byte for each three it writes. -/
theorem decodeFirst_spec (first : UInt8) (rest : List UInt8) :
    (decodeFirst first rest).2.length ≤ rest.length ∧
      (decodeFirst first rest).1.utf8Size + 3 * (decodeFirst first rest).2.length ≤ 3 * (rest.length + 1) := by
  have broken : replacement.utf8Size + 3 * rest.length ≤ 3 * (rest.length + 1) := by
    rw [replacement_size]
    omega
  rw [decodeFirst.eq_def]
  split
  · next ascii =>
    simp only [ascii_size first ascii]
    omega
  · split
    · exact ⟨Nat.le_refl _,broken⟩
    · next second after =>
      have longer : ∀ step : Char × List UInt8, step.2.length ≤ after.length →
          step.2.length ≤ (second :: after).length ∧ step.1.utf8Size + 3 * step.2.length ≤ 3 * ((second :: after).length + 1) := by
        intro step short
        have size := utf8Size_le_four step.1
        rw [List.length_cons]
        omega
      have stops : (second :: after).length ≤ (second :: after).length ∧ _ := ⟨Nat.le_refl _,broken⟩
      split
      · split
        · exact longer _ (Nat.le_refl _)
        · exact stops
      · split
        · split
          · exact longer _ (third_spec _ second after)
          · exact stops
        · split
          · split
            · exact longer _ (fourth_spec _ second after)
            · exact stops
          · exact stops

/-- The text of some bytes. -/
def lossy : List UInt8 → List Char
  | [] => []
  | first :: rest => (decodeFirst first rest).1 :: lossy (decodeFirst first rest).2
termination_by bytes => bytes.length
decreasing_by
  have shorter := (decodeFirst_spec first rest).1
  rw [List.length_cons]
  omega

theorem lossy_size (bytes : List UInt8) : ((lossy bytes).map Char.utf8Size).sum ≤ 3 * bytes.length := by
  fun_induction lossy bytes with
  | case1 => rfl
  | case2 first rest ih =>
    have step := (decodeFirst_spec first rest).2
    rw [List.map_cons,List.sum_cons,List.length_cons]
    omega

theorem ofList_size (chars : List Char) : (String.ofList chars).utf8ByteSize = (chars.map Char.utf8Size).sum := by
  induction chars with
  | nil => rfl
  | cons c rest ih =>
    have split : String.ofList (c :: rest) = String.singleton c ++ String.ofList rest := by simp
    rw [split,String.utf8ByteSize_append,String.utf8ByteSize_singleton,ih,List.map_cons,List.sum_cons]

/-- A text grows by decoding to at most three times its bytes. -/
theorem ofList_lossy_size (bytes : List UInt8) : (String.ofList (lossy bytes)).utf8ByteSize ≤ 3 * bytes.length := by
  rw [ofList_size]
  exact lossy_size bytes

example : lossy [0x61,0xC3,0xA9,0xFF,0xE2,0x82,0x61] = ['a','é','�','�','a'] := by
  simp [lossy,decodeFirst,third,continuation,secondOfThree,codePoint,replacement]

end S2Script.Utf8
