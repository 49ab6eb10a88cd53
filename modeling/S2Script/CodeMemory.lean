import Mathlib

/-! Bytes of a 64-bit address space: reading and writing little-endian words, and what a
write leaves alone. -/
namespace S2Script.CodeMemory

abbrev Address := BitVec 64

abbrev Memory := Address → UInt8

/-- Code as an instruction decoder is handed it: the bytes from a pointer on. -/
abbrev Code := Nat → UInt8

def advance (code : Code) (n : Nat) : Code := fun i => code (n + i)

def view (memory : Memory) (start : Address) : Code := fun i => memory (start + BitVec.ofNat 64 i)

def ofList (bytes : List UInt8) : Code := fun i => bytes.getD i 0

def slice (code : Code) (n : Nat) : List UInt8 := (List.range n).map code

def bytes32 (v : BitVec 32) : List UInt8 :=
  [UInt8.ofNat v.toNat,UInt8.ofNat (v.toNat / 256),UInt8.ofNat (v.toNat / 65536),
    UInt8.ofNat (v.toNat / 16777216)]

def word32 (code : Code) : BitVec 32 :=
  BitVec.ofNat 32 ((code 0).toNat + 256 * (code 1).toNat + 65536 * (code 2).toNat
    + 16777216 * (code 3).toNat)

def bytes64 (v : BitVec 64) : List UInt8 :=
  bytes32 (v.setWidth 32) ++ bytes32 ((v >>> 32).setWidth 32)

def word64 (code : Code) : BitVec 64 :=
  BitVec.ofNat 64 ((word32 code).toNat + 4294967296 * (word32 (advance code 4)).toNat)

/-- Whether `start + i` for some `i` below `size` is the address, counted around 2^64. -/
def Within (start : Address) (size : Nat) (a : Address) : Prop := (a - start).toNat < size

instance (start : Address) (size : Nat) (a : Address) : Decidable (Within start size a) :=
  inferInstanceAs (Decidable (_ < _))

def write (memory : Memory) (start : Address) (bytes : List UInt8) : Memory :=
  fun a => (bytes[(a - start).toNat]?).getD (memory a)

/-- The list with the bytes from an offset on replaced. -/
def splice (bytes : List UInt8) (off : Nat) (field : List UInt8) : List UInt8 :=
  bytes.take off ++ field ++ bytes.drop (off + field.length)

def fits32 (v : Address) : Bool := -2147483648 ≤ v.toInt ∧ v.toInt ≤ 2147483647

section Words

@[simp] theorem bytes32_length (v : BitVec 32) : (bytes32 v).length = 4 := rfl

@[simp] theorem bytes64_length (v : BitVec 64) : (bytes64 v).length = 8 := rfl

theorem word32_congr {code code' : Code} (same : ∀ i < 4, code i = code' i) : word32 code = word32 code' := by
  simp only [word32,same 0 (by omega),same 1 (by omega),same 2 (by omega),same 3 (by omega)]

theorem word32_of_bytes {code : Code} {v : BitVec 32} (same : ∀ i (h : i < (bytes32 v).length), code i = (bytes32 v)[i]) :
    word32 code = v := by
  have h0 := same 0 (by simp)
  have h1 := same 1 (by simp)
  have h2 := same 2 (by simp)
  have h3 := same 3 (by simp)
  simp only [bytes32,List.getElem_cons_zero,List.getElem_cons_succ] at h0 h1 h2 h3
  apply BitVec.eq_of_toNat_eq
  have bound := v.isLt
  simp only [word32,h0,h1,h2,h3,UInt8.toNat_ofNat',BitVec.toNat_ofNat]
  omega

theorem word64_of_bytes {code : Code} {v : BitVec 64} (same : ∀ i (h : i < (bytes64 v).length), code i = (bytes64 v)[i]) :
    word64 code = v := by
  have low : word32 code = v.setWidth 32 := by
    apply word32_of_bytes
    intro i h
    have room : i < (bytes64 v).length := Nat.lt_of_lt_of_le h (by simp)
    simpa only [bytes64,List.getElem_append_left h] using same i room
  have high : word32 (advance code 4) = (v >>> 32).setWidth 32 := by
    apply word32_of_bytes
    intro i h
    have bound : i < 4 := by simpa using h
    have found := same (4 + i) (by rw [bytes64_length]; omega)
    simp only [bytes64] at found
    rw [List.getElem_append_right (by simp)] at found
    simpa [advance] using found
  apply BitVec.eq_of_toNat_eq
  have bound := v.isLt
  simp only [word64,low,high,BitVec.toNat_ofNat,BitVec.toNat_setWidth,BitVec.toNat_ushiftRight,
    Nat.shiftRight_eq_div_pow]
  omega

/-- A value that fits comes back from its low half. -/
theorem signExtend_setWidth {v : Address} (fits : fits32 v = true) : (v.setWidth 32).signExtend 64 = v := by
  simp only [fits32,Bool.decide_and,Bool.and_eq_true,decide_eq_true_eq] at fits
  apply BitVec.eq_of_toInt_eq
  rw [BitVec.toInt_signExtend_of_le (by omega)]
  have range := v.isLt
  simp only [BitVec.toInt_eq_toNat_cond,BitVec.toNat_setWidth] at *
  split at * <;> split at * <;> omega

end Words

section Writes

theorem add_ofNat_sub (start : Address) {i : Nat} (small : i < 2 ^ 64) :
    (start + BitVec.ofNat 64 i - start).toNat = i := by
  have same : start + BitVec.ofNat 64 i - start = BitVec.ofNat 64 i := by
    rw [BitVec.add_comm,BitVec.add_sub_cancel]
  rw [same,BitVec.toNat_ofNat,Nat.mod_eq_of_lt small]

/-- An address within a range is an offset from its start. -/
theorem Within.offset {start a : Address} {size : Nat} (inside : Within start size a) :
    ∃ i < size, a = start + BitVec.ofNat 64 i :=
  ⟨(a - start).toNat,inside,by rw [BitVec.ofNat_toNat,BitVec.setWidth_eq,BitVec.add_comm,BitVec.sub_add_cancel]⟩

theorem within_offset {start : Address} {i size : Nat} (small : i < 2 ^ 64) :
    Within start size (start + BitVec.ofNat 64 i) ↔ i < size := by
  rw [Within,add_ofNat_sub start small]

theorem write_within {memory : Memory} {start a : Address} {bytes : List UInt8}
    (inside : Within start bytes.length a) : write memory start bytes a = bytes.get ⟨(a - start).toNat,inside⟩ := by
  simp only [write]
  rw [List.getElem?_eq_getElem (show (a - start).toNat < bytes.length from inside)]
  rfl

theorem write_outside {memory : Memory} {start a : Address} {bytes : List UInt8}
    (outside : ¬ Within start bytes.length a) : write memory start bytes a = memory a := by
  simp only [write]
  rw [List.getElem?_eq_none (by simpa [Within] using outside)]
  rfl

theorem view_write {memory : Memory} {start : Address} {bytes : List UInt8} {i : Nat}
    (inside : i < bytes.length) (small : i < 2 ^ 64) :
    view (write memory start bytes) start i = bytes[i] := by
  have within : Within start bytes.length (start + BitVec.ofNat 64 i) := (within_offset small).mpr inside
  simp only [view,write_within within,add_ofNat_sub start small,List.get_eq_getElem]

theorem view_advance (memory : Memory) (start : Address) (n : Nat) :
    advance (view memory start) n = view memory (start + BitVec.ofNat 64 n) := by
  funext i
  simp only [advance,view,BitVec.ofNat_add,BitVec.add_assoc]

/-- Offsets from one address against a range at another offset. -/
theorem within_shift {start : Address} {off i size : Nat} (room : off + size ≤ 2 ^ 64) (small : i < 2 ^ 64)
    (some : 0 < size) :
    Within (start + BitVec.ofNat 64 off) size (start + BitVec.ofNat 64 i) ↔ off ≤ i ∧ i < off + size := by
  have shifted : start + BitVec.ofNat 64 i - (start + BitVec.ofNat 64 off)
      = BitVec.ofNat 64 i - BitVec.ofNat 64 off := by
    apply BitVec.eq_of_toNat_eq
    simp only [BitVec.toNat_sub,BitVec.toNat_add,BitVec.toNat_ofNat]
    omega
  simp only [Within,shifted,BitVec.toNat_sub,BitVec.toNat_ofNat]
  omega

/-- Two writes in a row are one. -/
theorem write_append {memory : Memory} {start : Address} {first second : List UInt8}
    (room : first.length + second.length ≤ 2 ^ 64) :
    write (write memory start first) (start + BitVec.ofNat 64 first.length) second =
      write memory start (first ++ second) := by
  rcases second.eq_nil_or_concat with rfl | ⟨init,last,made⟩
  · funext a
    simp [write]
  · have positive : 0 < second.length := by simp [made]
    funext a
    obtain ⟨i,small,rfl⟩ : ∃ i < 2 ^ 64, a = start + BitVec.ofNat 64 i :=
      ⟨(a - start).toNat,(a - start).isLt,by rw [BitVec.ofNat_toNat,BitVec.setWidth_eq,BitVec.add_comm,BitVec.sub_add_cancel]⟩
    have shift := @within_shift start _ _ _ room small positive
    simp only [write,add_ofNat_sub start small]
    by_cases before : i < first.length
    · have outside : ¬ Within (start + BitVec.ofNat 64 first.length) second.length (start + BitVec.ofNat 64 i) := by
        rw [shift]
        omega
      rw [List.getElem?_eq_none (by simpa [Within] using outside),List.getElem?_append_left before]
      rfl
    · rw [List.getElem?_append_right (by omega),List.getElem?_eq_none (l := first) (by omega)]
      have moved : (start + BitVec.ofNat 64 i - (start + BitVec.ofNat 64 first.length)).toNat = i - first.length := by
        simp only [BitVec.toNat_sub,BitVec.toNat_add,BitVec.toNat_ofNat]
        omega
      rw [moved]
      rfl

end Writes

section Splice

theorem splice_length {bytes field : List UInt8} {off : Nat} (room : off + field.length ≤ bytes.length) :
    (splice bytes off field).length = bytes.length := by
  simp only [splice,List.length_append,List.length_take,List.length_drop]
  omega

theorem splice_inside {bytes field : List UInt8} {off i : Nat} (room : off + field.length ≤ bytes.length)
    (h : i < field.length) : (splice bytes off field)[off + i]? = some field[i] := by
  simp only [splice,List.append_assoc]
  rw [List.getElem?_append_right (by simp only [List.length_take]; omega)]
  have start : off + i - (bytes.take off).length = i := by simp only [List.length_take]; omega
  rw [start,List.getElem?_append_left h,List.getElem?_eq_getElem h]

theorem splice_outside {bytes field : List UInt8} {off i : Nat} (room : off + field.length ≤ bytes.length)
    (outside : i < off ∨ off + field.length ≤ i) : (splice bytes off field)[i]? = bytes[i]? := by
  simp only [splice,List.append_assoc]
  rcases outside with before | after
  · rw [List.getElem?_append_left (by simp only [List.length_take]; omega),List.getElem?_take_of_lt before]
  · rw [List.getElem?_append_right (by simp only [List.length_take]; omega),
      List.getElem?_append_right (by simp only [List.length_take]; omega),List.getElem?_drop]
    congr 1
    simp only [List.length_take]
    omega

end Splice

end S2Script.CodeMemory
