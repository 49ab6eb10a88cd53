import S2Script.OriginalModule

/-! Parsing never reads outside the file, and what it accepts is checked. -/
namespace S2Script.OriginalModule

variable {file : File}

/-- The read did not leave the file. -/
def Inside {α : Type} (r : Read α) : Prop := r ≠ .error .outside

section Steps

theorem inside_ok {α : Type} (a : α) : Inside (.ok a : Read α) := nofun

theorem inside_refuse {α : Type} (reason : String) : Inside (refuse reason : Read α) := nofun

theorem Inside.bind {α β : Type} {x : Read α} {f : α → Read β} (first : Inside x)
    (rest : ∀ a, x = .ok a → Inside (f a)) : Inside (x >>= f) := by
  cases x with
  | error fault => exact fun outside => first (by cases outside; rfl)
  | ok a => exact rest a rfl

theorem byteAt_inside {pos : UInt64} (room : pos.toNat < file.bytes.length) :
    byteAt file pos = .ok file.bytes[pos.toNat] := by
  simp only [byteAt,List.getElem?_eq_getElem room]

/-- A number within the file is read, and is as long as its bytes. -/
theorem le_inside {pos : UInt64} : ∀ {n : Nat}, pos.toNat + n ≤ file.bytes.length → n ≤ 8 →
    ∃ v, le file pos n = .ok v ∧ v.toNat < 2 ^ (8 * n)
  | 0, _, _ => ⟨0,rfl,by decide⟩
  | n + 1, room, short => by
    obtain ⟨value,read,bound⟩ := @le_inside pos n (by omega) (by omega)
    have small := file.small
    have index : (pos + UInt64.ofNat n).toNat = pos.toNat + n := by
      have n_eq : (UInt64.ofNat n).toNat = n := by
        rw [UInt64.toNat_ofNat']
        omega
      rw [toNat_add_of_lt (by omega),n_eq]
    have byte := @byteAt_inside file (pos + UInt64.ofNat n) (by omega)
    refine ⟨_,by simp only [le,read,byte]; rfl,?_⟩
    generalize file.bytes[(pos + UInt64.ofNat n).toNat] = b
    rw [UInt64.toNat_or,UInt64.toNat_shiftLeft]
    apply Nat.or_lt_two_pow
    · exact Nat.lt_of_lt_of_le bound (Nat.pow_le_pow_right (by omega) (by omega))
    · have shift : (UInt64.ofNat (8 * n)).toNat % 64 = 8 * n := by
        rw [UInt64.toNat_ofNat']
        omega
      have top := b.toNat_lt
      rw [shift,UInt8.toNat_toUInt64,Nat.shiftLeft_eq]
      refine Nat.lt_of_le_of_lt (Nat.mod_le _ _) ?_
      have split : 2 ^ (8 * (n + 1)) = 2 ^ 8 * 2 ^ (8 * n) := by rw [← Nat.pow_add]; congr 1; omega
      rw [split]
      exact Nat.mul_lt_mul_of_pos_right top (Nat.pow_pos (by omega))

/-- A number at a distance from a position. -/
theorem le_at {p d : UInt64} {n : Nat} (room : p.toNat + d.toNat + n ≤ file.bytes.length) (short : n ≤ 8) :
    ∃ v, le file (p + d) n = .ok v ∧ v.toNat < 2 ^ (8 * n) := by
  have small := file.small
  have sum : (p + d).toNat = p.toNat + d.toNat ∨ n = 0 ∧ p.toNat + d.toNat ≥ 2 ^ 64 := by
    by_cases wraps : p.toNat + d.toNat < 2 ^ 64
    · exact .inl (toNat_add_of_lt wraps)
    · exact .inr ⟨by omega,by omega⟩
  rcases sum with sum | ⟨_,far⟩
  · exact le_inside (by omega) short
  · omega

theorem le_inside_at {p d : UInt64} {n : Nat} (room : p.toNat + d.toNat + n ≤ file.bytes.length) (short : n ≤ 8) :
    Inside (le file (p + d) n) := by
  obtain ⟨v,read,_⟩ := le_at room short
  rw [read]
  exact inside_ok v

theorem span_inside {pos length : UInt64} (room : pos.toNat + length.toNat ≤ file.bytes.length) :
    span file pos length = .ok ((file.bytes.drop pos.toNat).take length.toNat) := if_pos room

end Steps

section Notes

/-- Padding reaches the next multiple of four. -/
theorem pad4_toNat {n : UInt64} (small : n.toNat < 2 ^ 32) : n.toNat ≤ (pad4 n).toNat := by
  have sum : (n + 3).toNat = n.toNat + 3 := toNat_add_of_lt (by have three : (3 : UInt64).toNat = 3 := rfl; omega)
  have mask : (~~~3 : UInt64).toNat = (2 ^ 62 - 1) <<< 2 := rfl
  have cleared : ∀ m < 2 ^ 64, m &&& (2 ^ 62 - 1) <<< 2 = m / 4 * 4 := by
    intro m bound
    have shifted : m / 4 * 4 = m >>> 2 <<< 2 := by rw [Nat.shiftRight_eq_div_pow,Nat.shiftLeft_eq]
    rw [shifted]
    apply Nat.eq_of_testBit_eq
    intro i
    rw [Nat.testBit_and,Nat.testBit_shiftLeft,Nat.testBit_shiftLeft,Nat.testBit_two_pow_sub_one,
      Nat.testBit_shiftRight]
    by_cases low : 2 ≤ i
    · have back : 2 + (i - 2) = i := by omega
      simp only [low,decide_true,Bool.true_and,back]
      by_cases high : i - 2 < 62
      · simp only [high,decide_true,Bool.and_true]
      · have zero : m.testBit i = false := Nat.testBit_lt_two_pow (Nat.lt_of_lt_of_le bound
          (Nat.pow_le_pow_right (by omega) (by omega)))
        simp only [zero,Bool.false_and]
    · simp only [low,decide_false,Bool.false_and,Bool.and_false]
  rw [pad4,UInt64.toNat_and,mask,sum,cleared _ (by omega)]
  omega

theorem buildIdNote_inside {pnote type namesz namepad descsz limit : UInt64} {buildId : String}
    (within : limit.toNat ≤ file.bytes.length) (name : pnote.toNat + namepad.toNat ≤ limit.toNat)
    (padded : namesz.toNat ≤ namepad.toNat) (sum : (pnote + namepad).toNat = pnote.toNat + namepad.toNat)
    (desc : (pnote + namepad).toNat + descsz.toNat ≤ limit.toNat) :
    Inside (buildIdNote file pnote type namesz namepad descsz buildId) := by
  simp only [buildIdNote]
  split
  · rename_i gnu
    have four : namesz.toNat = 4 := by rw [gnu.2]; rfl
    have length : (4 : UInt64).toNat = 4 := rfl
    rw [span_inside (by omega)]
    apply Inside.bind (inside_ok _)
    intro bytes _
    split
    · split
      · exact inside_refuse _
      · rw [span_inside (by omega)]
        apply Inside.bind (inside_ok _)
        intro desc _
        split
        · exact inside_refuse _
        · exact inside_ok _
    · exact inside_ok _
  · exact inside_ok _

theorem noteStep_inside {limit pnote : UInt64} {buildId : String} (within : limit.toNat ≤ file.bytes.length) :
    Inside (noteStep file limit pnote buildId) := by
  simp only [noteStep]
  split
  · exact inside_refuse _
  · rename_i header
    have room : fits pnote 12 limit = true := by simpa using header
    have bound := fits_iff.mp room
    have after := toNat_add_of_fits room
    have four : (4 : UInt64).toNat = 4 := rfl
    have eight : (8 : UInt64).toNat = 8 := rfl
    have twelve : (12 : UInt64).toNat = 12 := rfl
    obtain ⟨namesz,readName,smallName⟩ := @le_inside file pnote 4 (by omega) (by omega)
    obtain ⟨descsz,readDesc,smallDesc⟩ := @le_at file pnote 4 4 (by omega) (by omega)
    obtain ⟨type,readType,_⟩ := @le_at file pnote 8 4 (by omega) (by omega)
    rw [readName]
    apply Inside.bind (inside_ok _)
    rintro _ ⟨⟩
    rw [readDesc]
    apply Inside.bind (inside_ok _)
    rintro _ ⟨⟩
    rw [readType]
    apply Inside.bind (inside_ok _)
    rintro _ ⟨⟩
    split
    · exact inside_refuse _
    · rename_i payload
      simp only [Bool.or_eq_true,Bool.not_eq_true',not_or,Bool.not_eq_false] at payload
      have name := fits_iff.mp payload.1
      have desc := fits_iff.mp payload.2
      have sum := toNat_add_of_fits payload.1
      have padDesc := pad4_toNat (n := descsz) (by simpa using smallDesc)
      have padName := pad4_toNat (n := namesz) (by simpa using smallName)
      apply Inside.bind (buildIdNote_inside within name padName sum (by omega))
      intro _ _
      exact inside_ok _

theorem noteLoop_inside {limit : UInt64} (within : limit.toNat ≤ file.bytes.length) :
    ∀ (left : Nat) (pnote : UInt64) (buildId : String), limit.toNat - pnote.toNat ≤ left →
      Inside (noteLoop file limit pnote buildId) := by
  intro left
  induction left with
  | zero =>
    intro pnote buildId few
    rw [noteLoop,if_neg (by rw [UInt64.lt_iff_toNat_lt]; omega)]
    exact inside_ok _
  | succ left ih =>
    intro pnote buildId few
    rw [noteLoop]
    split
    · have step := @noteStep_inside _ _ pnote buildId within
      split
      · rename_i fault made
        rw [made] at step
        exact fun outside => step (by cases outside; rfl)
      · rename_i made
        have advanced := noteStep_advances made
        exact ih _ _ (by omega)
    · exact inside_ok _

end Notes

section Headers

/-- What `parse` requires of a header. -/
structure Checked (file : File) (h : ProgramHeader) : Prop where
  backed : h.offset.toNat + h.filesz.toNat ≤ file.bytes.length
  load : h.type = 1 → h.filesz.toNat ≤ h.memsz.toNat

theorem checkHeader_inside (h : ProgramHeader) : Inside (checkHeader file h) := by
  simp only [checkHeader]
  split
  · exact inside_refuse _
  · split
    · exact inside_refuse _
    · exact inside_ok _

theorem checkHeader_checked {h : ProgramHeader} (made : checkHeader file h = .ok ()) : Checked file h := by
  simp only [checkHeader] at made
  split at made
  · cases made
  · rename_i room
    split at made
    · cases made
    · rename_i load
      refine ⟨?_,fun type => ?_⟩
      · have bound := fits_iff.mp (show fits h.offset h.filesz file.size = true by simpa using room)
        rwa [File.size_toNat] at bound
      · simp only [type,true_and,not_or] at load
        have le := UInt64.not_lt.mp load.1
        exact UInt64.le_iff_toNat_le.mp le

theorem dynamicLoop_inside : ∀ (left : Nat) (pos : UInt64), pos.toNat + left * 16 ≤ file.bytes.length →
    Inside (dynamicLoop file pos left)
  | 0, _, _ => inside_refuse _
  | left + 1, pos, room => by
    have small := file.small
    have eight : (8 : UInt64).toNat = 8 := rfl
    have sixteen : (16 : UInt64).toNat = 16 := rfl
    obtain ⟨tag,readTag,_⟩ := @le_inside file pos 8 (by omega) (by omega)
    simp only [dynamicLoop,readTag]
    apply Inside.bind (inside_ok _)
    intro _ _
    apply Inside.bind (le_inside_at (by omega) (by omega))
    intro _ _
    split
    · exact inside_ok _
    · split
      · exact inside_refuse _
      · by_cases last : left = 0
        · subst last
          exact inside_refuse _
        · refine dynamicLoop_inside left (pos + 16) ?_
          rw [toNat_add_of_lt (by omega)]
          omega

theorem readHeader_inside {p : UInt64} (room : p.toNat + 56 ≤ file.bytes.length) : Inside (readHeader file p) := by
  have four : (4 : UInt64).toNat = 4 := rfl
  have eight : (8 : UInt64).toNat = 8 := rfl
  have sixteen : (16 : UInt64).toNat = 16 := rfl
  have thirtyTwo : (32 : UInt64).toNat = 32 := rfl
  have forty : (40 : UInt64).toNat = 40 := rfl
  have fortyEight : (48 : UInt64).toNat = 48 := rfl
  obtain ⟨type,readType,_⟩ := @le_inside file p 4 (by omega) (by omega)
  simp only [readHeader,readType]
  apply Inside.bind (inside_ok _)
  intro _ _
  apply Inside.bind (le_inside_at (by omega) (by omega))
  intro _ _
  apply Inside.bind (le_inside_at (by omega) (by omega))
  intro _ _
  apply Inside.bind (le_inside_at (by omega) (by omega))
  intro _ _
  apply Inside.bind (le_inside_at (by omega) (by omega))
  intro _ _
  apply Inside.bind (le_inside_at (by omega) (by omega))
  intro _ _
  apply Inside.bind (le_inside_at (by omega) (by omega))
  intro _ _
  exact inside_ok _

theorem headerStep_inside {p : UInt64} {parsed : Parsed} (room : p.toNat + 56 ≤ file.bytes.length) :
    Inside (headerStep file p parsed) := by
  have small := file.small
  simp only [headerStep]
  apply Inside.bind (readHeader_inside room)
  intro h _
  apply Inside.bind (checkHeader_inside h)
  intro _ checked
  have backed := (checkHeader_checked checked).backed
  have limit : (h.offset + h.filesz).toNat = h.offset.toNat + h.filesz.toNat := toNat_add_of_lt (by omega)
  have notes : Inside (noteSegment file h parsed.2) := by
    simp only [noteSegment]
    split
    · exact noteLoop_inside (by omega) _ _ _ (Nat.le_refl _)
    · exact inside_ok _
  have entries : Inside (dynamicSegment file h) := by
    simp only [dynamicSegment]
    split
    · split
      · exact inside_refuse _
      · exact dynamicLoop_inside _ _ (by omega)
    · exact inside_ok _
  apply Inside.bind notes
  intro _ _
  apply Inside.bind entries
  intro _ _
  exact inside_ok _

theorem headerStep_checked {p : UInt64} {parsed parsed' : Parsed} (made : headerStep file p parsed = .ok parsed') :
    ∃ h, Checked file h ∧ parsed'.1 = parsed.1 ++ [h] := by
  obtain ⟨h,_,made⟩ := bind_ok made
  obtain ⟨_,checked,made⟩ := bind_ok made
  obtain ⟨_,_,made⟩ := bind_ok made
  obtain ⟨_,_,made⟩ := bind_ok made
  cases made
  exact ⟨h,checkHeader_checked checked,rfl⟩

theorem headersLoop_inside {table : UInt64} : ∀ (left : Nat) (i : UInt64) (parsed : Parsed),
    i.toNat + left < 2 ^ 16 → table.toNat + (i.toNat + left) * 56 ≤ file.bytes.length →
      Inside (headersLoop file table i parsed left)
  | 0, _, _, _, _ => inside_ok _
  | left + 1, i, parsed, few, room => by
    have small := file.small
    have one : (1 : UInt64).toNat = 1 := rfl
    have entry : (56 : UInt64).toNat = 56 := rfl
    have product : (i * 56).toNat = i.toNat * 56 := by
      rw [UInt64.toNat_mul,entry]
      omega
    have start : (table + i * 56).toNat = table.toNat + i.toNat * 56 := by
      rw [toNat_add_of_lt (by omega),product]
    have next : (i + 1).toNat = i.toNat + 1 := toNat_add_of_lt (by omega)
    simp only [headersLoop]
    apply Inside.bind (headerStep_inside (by omega))
    intro parsed' _
    exact headersLoop_inside left (i + 1) parsed' (by omega) (by rw [next]; omega)

theorem headersLoop_checked {table : UInt64} : ∀ (left : Nat) {i : UInt64} {parsed parsed' : Parsed},
    (∀ h ∈ parsed.1, Checked file h) → headersLoop file table i parsed left = .ok parsed' →
      ∀ h ∈ parsed'.1, Checked file h
  | 0, _, _, _, checked, made => by
    cases made
    exact checked
  | left + 1, _, parsed, _, checked, made => by
    obtain ⟨between,step,made⟩ := bind_ok made
    obtain ⟨h,ok,headers⟩ := headerStep_checked step
    refine headersLoop_checked left (fun h' member => ?_) made
    rw [headers] at member
    rcases List.mem_append.mp member with before | here
    · exact checked h' before
    · rw [List.mem_singleton.mp here]
      exact ok

end Headers

/-- Parsing stays inside the file, whatever it holds. -/
theorem parse_inside (file : File) : Inside (parse file) := by
  simp only [parse]
  split
  · exact inside_refuse _
  · rename_i long
    have size : 64 ≤ file.bytes.length := by
      have le := UInt64.le_iff_toNat_le.mp (UInt64.not_lt.mp long)
      rwa [File.size_toNat] at le
    have read : ∀ (pos : UInt64) (n : Nat), pos.toNat + n ≤ 64 → n ≤ 8 →
        ∃ v, le file pos n = .ok v ∧ v.toNat < 2 ^ (8 * n) := fun pos n room short => le_inside (by omega) short
    have inside : ∀ (pos : UInt64) (n : Nat), pos.toNat + n ≤ 64 → n ≤ 8 → Inside (le file pos n) := by
      intro pos n room short
      obtain ⟨v,made,_⟩ := read pos n room short
      rw [made]
      exact inside_ok v
    rw [span_inside (by have zero : (0 : UInt64).toNat + (7 : UInt64).toNat = 7 := rfl; omega)]
    apply Inside.bind (inside_ok _)
    intro _ _
    apply Inside.bind (inside 16 2 (by decide) (by decide))
    intro _ _
    apply Inside.bind (inside 18 2 (by decide) (by decide))
    intro _ _
    apply Inside.bind (inside 20 4 (by decide) (by decide))
    intro _ _
    apply Inside.bind (inside 52 2 (by decide) (by decide))
    intro _ _
    split
    · exact inside_refuse _
    · apply Inside.bind (inside 32 8 (by decide) (by decide))
      intro table _
      obtain ⟨count,readCount,few⟩ := read 56 2 (by decide) (by decide)
      rw [readCount]
      apply Inside.bind (inside_ok _)
      rintro _ ⟨⟩
      apply Inside.bind (inside 54 2 (by decide) (by decide))
      intro _ _
      split
      · exact inside_refuse _
      · rename_i valid
        simp only [not_or,Bool.not_eq_true',Bool.not_eq_false] at valid
        have room := fits_iff.mp valid.2.2.2
        have entry : (56 : UInt64).toNat = 56 := rfl
        have product : (count * 56).toNat = count.toNat * 56 := by
          rw [UInt64.toNat_mul,entry]
          omega
        rw [product,File.size_toNat] at room
        apply Inside.bind
        · refine headersLoop_inside count.toNat 0 _ ?_ ?_
          · have zero : (0 : UInt64).toNat = 0 := rfl
            omega
          · have zero : (0 : UInt64).toNat = 0 := rfl
            omega
        · intro _ _
          split
          · exact inside_refuse _
          · exact inside_ok _

theorem parse_checked {parsed : Parsed} (made : parse file = .ok parsed) : ∀ h ∈ parsed.1, Checked file h := by
  simp only [parse] at made
  split at made
  · cases made
  · obtain ⟨_,_,made⟩ := bind_ok made
    obtain ⟨_,_,made⟩ := bind_ok made
    obtain ⟨_,_,made⟩ := bind_ok made
    obtain ⟨_,_,made⟩ := bind_ok made
    obtain ⟨_,_,made⟩ := bind_ok made
    split at made
    · cases made
    · obtain ⟨_,_,made⟩ := bind_ok made
      obtain ⟨_,_,made⟩ := bind_ok made
      obtain ⟨_,_,made⟩ := bind_ok made
      split at made
      · cases made
      · obtain ⟨found,loop,made⟩ := bind_ok made
        split at made
        · cases made
        · cases made
          exact headersLoop_checked _ (fun _ member => by cases member) loop

end S2Script.OriginalModule
