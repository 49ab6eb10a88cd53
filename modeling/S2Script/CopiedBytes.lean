import S2Script.EngineCopyCapture
import S2Script.EngineCopyText

/-! The host's check of copied bytes, and that the shim's hand-written one accepts the same bytes. -/
namespace S2Script.CopiedBytes

open EngineCopyArena (Value Kind littleEndian)

/-- `Valid` of the shim; `none` is a null pointer. -/
def Valid (kind : Kind) : Option (List UInt8) → Bool
  | none => false
  | some bytes => Value.Valid ⟨kind,bytes⟩

def maxString : Nat := 65535

/-- `f32::is_finite` of the bits of a number: its exponent is not all ones. -/
def isFinite (bits : Nat) : Bool := bits / 2 ^ 23 % 2 ^ 8 ≠ 255

/-- `chunks_exact(4)`. -/
def chunksExact : List UInt8 → List (List UInt8)
  | b0 :: b1 :: b2 :: b3 :: rest => [b0,b1,b2,b3] :: chunksExact rest
  | _ => []

def invalidValue : String := "FunctionCopyInvalidValue: string/vector bytes"

/-- `validate` of the host. -/
def validate (flag : Nat) (bytes : List UInt8) : Except String Unit :=
  let valid :=
    if flag = 4 then bytes.length ≤ maxString && !bytes.contains 0 && bytes.toByteArray.validateUTF8
    else if flag = 5 then bytes.length = 12 && (chunksExact bytes).all fun b => isFinite (littleEndian b)
    else false
  if valid then .ok () else .error invalidValue

/-- Well-formed UTF-8: the encoding of some scalar values. -/
def WellFormed (bytes : List UInt8) : Prop := ∃ text : List Char, bytes = text.flatMap String.utf8EncodeChar

theorem validateUTF8_iff (bytes : List UInt8) : bytes.toByteArray.validateUTF8 = true ↔ WellFormed bytes := by
  rw [ByteArray.validateUTF8_eq_true_iff]
  constructor
  · rintro ⟨text,same⟩
    refine ⟨text,?_⟩
    have lists := congrArg (fun b => b.data.toList) same
    simpa [List.utf8Encode] using lists
  · rintro ⟨text,rfl⟩
    exact ⟨text,rfl⟩

/-- Only NUL has a zero byte. -/
theorem zero_mem_encoded {c : Char} : 0 ∈ String.utf8EncodeChar c ↔ c = '\x00' := by
  have positive : ∀ k, 0 < k → k < 256 → (0 : UInt8) ≠ UInt8.ofNat k := by
    intro k some small same
    have number := congrArg UInt8.toNat same
    rw [UInt8.toNat_ofNat',Nat.mod_eq_of_lt small] at number
    exact absurd number (Nat.ne_of_lt some)
  constructor
  · intro member
    by_contra other
    have code : c.toNat ≠ 0 := fun none => other (Char.toNat_inj.mp none)
    have small := EngineCopyArena.scalar c
    by_cases one : c.toNat ≤ 0x7f
    · rw [EngineCopyArena.encoded_one one,List.mem_singleton] at member
      exact positive _ (by omega) (by omega) member
    by_cases two : c.toNat ≤ 0x7ff
    · rw [EngineCopyArena.encoded_two (by omega) two] at member
      simp only [List.mem_cons,List.not_mem_nil,or_false] at member
      rcases member with same | same <;> exact positive _ (by omega) (by omega) same
    by_cases three : c.toNat ≤ 0xffff
    · rw [EngineCopyArena.encoded_three (by omega) three] at member
      simp only [List.mem_cons,List.not_mem_nil,or_false] at member
      rcases member with same | same | same <;> exact positive _ (by omega) (by omega) same
    · rw [EngineCopyArena.encoded_four (by omega)] at member
      simp only [List.mem_cons,List.not_mem_nil,or_false] at member
      rcases member with same | same | same | same <;> exact positive _ (by omega) (by omega) same
  · rintro rfl
    decide

theorem zero_mem_text {text : List Char} : 0 ∈ text.flatMap String.utf8EncodeChar ↔ '\x00' ∈ text := by
  rw [List.mem_flatMap]
  constructor
  · rintro ⟨c,member,zero⟩
    rwa [← zero_mem_encoded.mp zero]
  · intro member
    exact ⟨_,member,zero_mem_encoded.mpr rfl⟩

theorem validate_string (bytes : List UInt8) :
    validate 4 bytes = .ok () ↔ bytes.length ≤ 65535 ∧ 0 ∉ bytes ∧ WellFormed bytes := by
  rw [← validateUTF8_iff]
  simp [validate,maxString,and_assoc]
  exact fun _ _ => decide_eq_true_iff

/-- The shim's decoder keeps to the same texts. -/
theorem Valid_string (bytes : List UInt8) :
    Valid .string (some bytes) = true ↔ bytes.length ≤ 65535 ∧ 0 ∉ bytes ∧ WellFormed bytes := by
  simp only [Valid,Value.Valid,Bool.and_eq_true,decide_eq_true_eq,EngineCopyArena.canonical_iff]
  apply and_congr_right
  intro _
  constructor
  · rintro ⟨text,rfl,noNul⟩
    exact ⟨fun zero => noNul (zero_mem_text.mp zero),text,rfl⟩
  · rintro ⟨noZero,text,rfl⟩
    exact ⟨text,rfl,fun nul => noZero (zero_mem_text.mpr nul)⟩

/-- The exponent of the little-endian word at `i`. -/
def exponent (bytes : List UInt8) (i : Nat) : Nat := littleEndian ((bytes.drop (4 * i)).take 4) / 2 ^ 23 % 2 ^ 8

/-- Twelve bytes, and none of the three numbers is infinite or not a number. -/
def FiniteVector (bytes : List UInt8) : Prop := bytes.length = 12 ∧ ∀ i < 3, exponent bytes i ≠ 255

theorem twelve_bytes {bytes : List UInt8} (length : bytes.length = 12) :
    ∃ a0 a1 a2 a3 b0 b1 b2 b3 c0 c1 c2 c3, bytes = [a0,a1,a2,a3,b0,b1,b2,b3,c0,c1,c2,c3] :=
  match bytes,length with
  | [a0,a1,a2,a3,b0,b1,b2,b3,c0,c1,c2,c3],_ => ⟨a0,a1,a2,a3,b0,b1,b2,b3,c0,c1,c2,c3,rfl⟩

theorem three_words (p : Nat → Prop) : (∀ i < 3, p i) ↔ p 0 ∧ p 1 ∧ p 2 := by
  constructor
  · intro all
    exact ⟨all 0 (by decide),all 1 (by decide),all 2 (by decide)⟩
  · rintro ⟨zero,one,two⟩ i bound
    match i,bound with
    | 0,_ => exact zero
    | 1,_ => exact one
    | 2,_ => exact two

theorem validate_vector (bytes : List UInt8) : validate 5 bytes = .ok () ↔ FiniteVector bytes := by
  by_cases length : bytes.length = 12
  · obtain ⟨a0,a1,a2,a3,b0,b1,b2,b3,c0,c1,c2,c3,rfl⟩ := twelve_bytes length
    simp [FiniteVector,three_words,validate,chunksExact,isFinite,exponent]
  · simp [FiniteVector,validate,length]

/-- The shim reads the exponent off the upper two bytes. -/
theorem finite_iff (b0 b1 b2 b3 : UInt8) :
    EngineCopyArena.finite b2 b3 = true ↔ littleEndian [b0,b1,b2,b3] / 2 ^ 23 % 2 ^ 8 ≠ 255 := by
  have s0 := b0.toNat_lt
  have s1 := b1.toNat_lt
  have s2 := b2.toNat_lt
  have s3 := b3.toNat_lt
  simp only [EngineCopyArena.finite,littleEndian,List.foldr_cons,List.foldr_nil,decide_eq_true_eq,ne_eq]
  omega

theorem Valid_vector (bytes : List UInt8) : Valid .vector (some bytes) = true ↔ FiniteVector bytes := by
  by_cases length : bytes.length = 12
  · obtain ⟨a0,a1,a2,a3,b0,b1,b2,b3,c0,c1,c2,c3,rfl⟩ := twelve_bytes length
    simp only [Valid,Value.Valid,Bool.and_eq_true,FiniteVector,three_words,finite_iff a0 a1 a2 a3,
      finite_iff b0 b1 b2 b3,finite_iff c0 c1 c2 c3]
    simp [exponent,and_assoc]
  · refine iff_of_false ?_ fun vector => length vector.1
    intro valid
    simp only [Valid,Value.Valid] at valid
    split at valid
    · exact length rfl
    · cases valid

/-- Both checks accept the same bytes: texts without a NUL in well-formed UTF-8, and finite vectors. -/
theorem checks_agree (bytes : List UInt8) :
    (Valid .string (some bytes) = true ↔ validate 4 bytes = .ok ()) ∧
    (validate 4 bytes = .ok () ↔ bytes.length ≤ 65535 ∧ 0 ∉ bytes ∧ WellFormed bytes) ∧
    (Valid .vector (some bytes) = true ↔ validate 5 bytes = .ok ()) ∧
    (validate 5 bytes = .ok () ↔ FiniteVector bytes) :=
  ⟨(Valid_string bytes).trans (validate_string bytes).symm,validate_string bytes,
    (Valid_vector bytes).trans (validate_vector bytes).symm,validate_vector bytes⟩

end S2Script.CopiedBytes
