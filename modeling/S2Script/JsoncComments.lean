import S2Script.CommentScanner

/-! The two comment strippers: the host's over the bytes of an override file, the SDK's over the code
units of a gamedata file. -/
namespace S2Script.Comments

/-- The bytes of a string. -/
def utf8 : Encoding UInt8 where
  code := UInt8.toNat
  units := String.utf8EncodeChar
  blank := 0x20
  ascii c small := by
    refine ⟨UInt8.ofNat c.toNat,?_,?_⟩
    · exact String.utf8EncodeChar_eq_singleton (Char.utf8Size_eq_one_iff.mpr (UInt32.le_iff_toNat_le.mpr (Nat.lt_succ_iff.mp small)))
    · rw [UInt8.toNat_ofNat']
      omega
  high c large := by
    have long : ¬c.val.toNat ≤ 0x7F := Nat.not_le.mpr large
    have length := Char.utf8Size_pos c
    rw [← String.length_utf8EncodeChar] at length
    refine ⟨List.length_pos_iff.mp length,fun byte member => ?_⟩
    simp only [String.utf8EncodeChar,if_neg long] at member
    split_ifs at member <;> simp only [List.mem_cons,List.not_mem_nil,or_false] at member <;>
      rcases member with rfl | rfl | rfl | rfl <;> rw [UInt8.toNat_ofNat'] <;> omega
  space := by decide

/-- The code units of a JavaScript string. -/
def utf16 : Encoding UInt16 where
  code := UInt16.toNat
  units c :=
    if c.toNat < 0x10000 then [UInt16.ofNat c.toNat]
    else [UInt16.ofNat (0xD800 + (c.toNat - 0x10000) / 1024),UInt16.ofNat (0xDC00 + (c.toNat - 0x10000) % 1024)]
  blank := 0x20
  ascii c small := by
    refine ⟨UInt16.ofNat c.toNat,if_pos (by omega),?_⟩
    rw [UInt16.toNat_ofNat']
    omega
  high c large := by
    split
    · refine ⟨List.cons_ne_nil _ _,fun u member => ?_⟩
      rw [List.mem_singleton] at member
      rw [member,UInt16.toNat_ofNat']
      omega
    · have bound : c.toNat < 0x110000 := by
        rcases c.valid with low | high
        · exact Nat.lt_trans low (by decide)
        · exact high.2
      refine ⟨List.cons_ne_nil _ _,fun u member => ?_⟩
      rcases List.mem_cons.mp member with rfl | member
      · rw [UInt16.toNat_ofNat']
        omega
      · rw [List.mem_singleton] at member
        rw [member,UInt16.toNat_ofNat']
        omega
  space := by decide

section Strippers

/-- `String::from_utf8`. -/
def fromUtf8 (bytes : List UInt8) : Except String (List Char) :=
  match String.fromUTF8? bytes.toByteArray with
  | some text => .ok text.toList
  | none => .error "invalid utf-8 sequence"

/-- In a block comment the host keeps both characters of a line break. -/
def keptByHost (code : Nat) : Bool := code = 0x0A || code = 0x0D

def keptBySdk (code : Nat) : Bool := code = 0x0A

/-- The host's stripper: an unterminated block comment is an error. -/
def jsonc (text : List Char) : Except String (List Char) :=
  let (out,unclosed) := scan utf8 keptByHost .code (text.flatMap utf8.units)
  if unclosed then .error "unterminated JSONC comment" else fromUtf8 out

/-- The SDK's stripper: an unterminated block comment is blanked to the end. -/
def stripJsonComments (src : List UInt16) : List UInt16 := (scan utf16 keptBySdk .code src).1

end Strippers

section Agreement

theorem fromUtf8_utf8 (text : List Char) : fromUtf8 (text.flatMap utf8.units) = .ok text := by
  have valid : (text.flatMap utf8.units).toByteArray.IsValidUTF8 := .intro text rfl
  have same : String.fromUTF8 (text.flatMap utf8.units).toByteArray valid = String.ofList text := rfl
  rw [fromUtf8,String.fromUTF8?,dif_pos valid,same]
  simp

theorem keptByHost_ascii (n : Nat) (large : 128 ≤ n) : keptByHost n = false := by
  simp [keptByHost]
  omega

theorem keptBySdk_ascii (n : Nat) (large : 128 ≤ n) : keptBySdk n = false := by
  simp [keptBySdk]
  omega

theorem keptByHost_space (c : Char) (kept : keptByHost c.toNat = true) : Json.isSpace c = true := by
  simp only [keptByHost,Bool.or_eq_true,decide_eq_true_eq] at kept
  rcases kept with newline | carriage
  · obtain rfl : c = '\n' := Char.toNat_inj.mp newline
    rfl
  · obtain rfl : c = '\r' := Char.toNat_inj.mp carriage
    rfl

theorem keptBySdk_space (c : Char) (kept : keptBySdk c.toNat = true) : Json.isSpace c = true := by
  obtain rfl : c = '\n' := Char.toNat_inj.mp (of_decide_eq_true kept)
  rfl

theorem jsonc_pieces {pieces : List Piece} (cuts : Cuts pieces) :
    jsonc (textOf pieces) = if pieces.any Piece.isOpenBlock then .error "unterminated JSONC comment" else .ok (blankedOf utf8 keptByHost pieces) := by
  rw [jsonc,scan_pieces keptByHost_ascii cuts]
  simp only [fromUtf8_utf8]

theorem length_scan {U : Type} {e : Encoding U} (keeps : Nat → Bool) (kept : keeps 0x0A = true) (blank : e.code e.blank ≠ 0x0A)
    (mode : Mode) (units : List U) : (scan e keeps mode units).1.length = units.length :=
  (scan_breaks keeps kept blank mode units).length_eq.symm

/-- A text is cut into literals, comments and other characters. The host refuses it exactly when a block
comment never ends, and else blanks the comments byte for byte; the SDK blanks them unit for unit; without
the white space outside literals both leave the same text. -/
theorem strippers_erase_comments (text : List Char) :
    (∃ pieces, Cuts pieces ∧ textOf pieces = text) ∧
      ∀ pieces, Cuts pieces → textOf pieces = text →
        ((∃ message, jsonc text = .error message) ↔ ∃ piece ∈ pieces, piece.isOpenBlock = true) ∧
        stripJsonComments (text.flatMap utf16.units) = (blankedOf utf16 keptBySdk pieces).flatMap utf16.units ∧
        (∀ out, jsonc text = .ok out →
          out = blankedOf utf8 keptByHost pieces ∧ (out.flatMap utf8.units).length = (text.flatMap utf8.units).length ∧
            dropSpaces false out = dropSpaces false (blankedOf utf16 keptBySdk pieces)) ∧
        ∀ units : List UInt16, (stripJsonComments units).length = units.length ∧
          ∀ i : Nat, (stripJsonComments units)[i]? = some 0x0A ↔ units[i]? = some 0x0A := by
  refine ⟨exists_cuts text,?_⟩
  rintro pieces cuts rfl
  refine ⟨?_,?_,?_,?_⟩
  · rw [jsonc_pieces cuts,← List.any_eq_true]
    split
    · next unclosed => exact iff_of_true ⟨_,rfl⟩ unclosed
    · next closed => exact iff_of_false (fun ⟨_,same⟩ => nomatch same) closed
  · rw [stripJsonComments,scan_pieces keptBySdk_ascii cuts]
  · intro out stripped
    have scanned := scan_pieces (e := utf8) keptByHost_ascii cuts
    rw [jsonc_pieces cuts] at stripped
    split at stripped
    · cases stripped
    · cases stripped
      refine ⟨rfl,?_,?_⟩
      · have length := length_scan (e := utf8) keptByHost rfl (by decide) .code ((textOf pieces).flatMap utf8.units)
        rw [scanned] at length
        exact length
      · rw [dropSpaces_blanked keptByHost_space cuts,dropSpaces_blanked keptBySdk_space cuts]
  · intro units
    refine ⟨length_scan keptBySdk rfl (by decide) _ units,fun i => ?_⟩
    have breaks := scan_breaks (e := utf16) keptBySdk rfl (by decide) .code units
    have isBreak : ∀ u : UInt16, u = 0x0A ↔ utf16.code u = 0x0A := fun u => UInt16.toNat_inj.symm
    have lengths := breaks.length_eq
    rw [stripJsonComments]
    rcases Nat.lt_or_ge i units.length with inside | outside
    · have here := List.Forall₂.get breaks inside (lengths ▸ inside)
      rw [List.getElem?_eq_getElem inside,List.getElem?_eq_getElem (lengths ▸ inside),Option.some.injEq,Option.some.injEq,isBreak,isBreak]
      exact here.symm
    · rw [List.getElem?_eq_none outside,List.getElem?_eq_none (lengths ▸ outside)]

end Agreement

end S2Script.Comments
