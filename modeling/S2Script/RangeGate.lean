import S2Script.Interfaces
import S2Script.VersionRanges

/-! The SDK's range gate beside the rule the engine decides by: they differ in what they take for
blank around a star, and in nothing else. -/
namespace S2Script.RangeGate

open VersionRanges (satisfiesRange isBlank)
open Interfaces (versionSatisfies isWhitespace)

section Trimmed

/-- Trimming from both ends, for one notion of space. -/
def trimBy (space : Char → Bool) (t : Text) : Text := ((t.dropWhile space).reverse.dropWhile space).reverse

theorem dropWhile_spaces (space : Char → Bool) (t : Text) :
    ∃ lead, t = lead ++ t.dropWhile space ∧ ∀ c ∈ lead, space c = true :=
  ⟨t.takeWhile space,(List.takeWhile_append_dropWhile).symm,fun _ member => List.mem_takeWhile_imp member⟩

/-- A text is trimmed to one character if spaces alone surround it. -/
theorem trimBy_eq_iff (space : Char → Bool) (t : Text) (solid : space c = false) :
    trimBy space t = [c] ↔ ∃ lead tail, t = lead ++ c :: tail ∧ ∀ d ∈ lead ++ tail, space d = true := by
  constructor
  · intro trimmed
    obtain ⟨lead,split,leading⟩ := dropWhile_spaces space t
    obtain ⟨tail,split',trailing⟩ := dropWhile_spaces space (t.dropWhile space).reverse
    have back : t.dropWhile space = trimBy space t ++ tail.reverse := by
      have reversed := congrArg List.reverse split'
      simpa only [List.reverse_reverse,List.reverse_append,trimBy] using reversed
    refine ⟨lead,tail.reverse,?_,?_⟩
    · simpa only [back,trimmed,List.cons_append,List.nil_append] using split
    · intro d member
      rcases List.mem_append.mp member with before | after
      · exact leading d before
      · exact trailing d (List.mem_reverse.mp after)
  · rintro ⟨lead,tail,rfl,spaces⟩
    have before : ∀ d ∈ lead, space d = true := fun d member => spaces d (List.mem_append_left tail member)
    have after : ∀ d ∈ tail.reverse, space d = true := fun d member =>
      spaces d (List.mem_append_right lead (List.mem_reverse.mp member))
    simp only [trimBy,List.dropWhile_append_of_pos before,List.dropWhile_cons,solid,Bool.false_eq_true,if_false,
      List.reverse_cons,List.dropWhile_append_of_pos after,List.dropWhile_nil,List.reverse_nil,List.nil_append]

end Trimmed

section Stars

/-- The marks that one of the languages alone takes for a space. -/
def byteOrderMark : Char := '\uFEFF'
def nextLine : Char := '\u0085'

/-- The two notions of space have the same table but for the marks. -/
theorem isBlank_iff (c : Char) : isBlank c = true ↔ (isBlank c || isWhitespace c) = true ∧ c ≠ nextLine := by
  have marked : c ≠ nextLine ↔ c.toNat ≠ 0x85 := not_congr (Char.toNat_inj (c := c) (d := nextLine)).symm
  simp only [marked,isBlank,isWhitespace,Bool.or_eq_true,Bool.and_eq_true,decide_eq_true_eq,List.mem_cons,
    List.not_mem_nil,or_false]
  omega

theorem isWhitespace_iff (c : Char) :
    isWhitespace c = true ↔ (isBlank c || isWhitespace c) = true ∧ c ≠ byteOrderMark := by
  have marked : c ≠ byteOrderMark ↔ c.toNat ≠ 0xfeff := not_congr (Char.toNat_inj (c := c) (d := byteOrderMark)).symm
  simp only [marked,isBlank,isWhitespace,Bool.or_eq_true,Bool.and_eq_true,decide_eq_true_eq,List.mem_cons,
    List.not_mem_nil,or_false]
  omega

/-- A star between spaces of either language. -/
def Starred (range : Text) : Prop :=
  ∃ lead tail, range = lead ++ '*' :: tail ∧ ∀ c ∈ lead ++ tail, (isBlank c || isWhitespace c) = true

/-- A notion of space that is the common one less a mark finds the stars that the mark does not hide. -/
theorem trimBy_star (space : Char → Bool) (mark : Char) (solid : mark ≠ '*') (star : space '*' = false)
    (less : ∀ c, space c = true ↔ (isBlank c || isWhitespace c) = true ∧ c ≠ mark) (range : Text) :
    trimBy space range = ['*'] ↔ Starred range ∧ mark ∉ range := by
  refine (trimBy_eq_iff space range star).trans ⟨?_,?_⟩
  · rintro ⟨lead,tail,rfl,spaces⟩
    refine ⟨⟨lead,tail,rfl,fun c member => ((less c).mp (spaces c member)).1⟩,fun inside => ?_⟩
    rcases List.mem_append.mp inside with before | after
    · exact ((less mark).mp (spaces mark (List.mem_append_left tail before))).2 rfl
    · rcases List.mem_cons.mp after with same | after
      · exact solid same
      · exact ((less mark).mp (spaces mark (List.mem_append_right lead after))).2 rfl
  · rintro ⟨⟨lead,tail,rfl,spaces⟩,absent⟩
    refine ⟨lead,tail,rfl,fun c member => (less c).mpr ⟨spaces c member,?_⟩⟩
    rintro rfl
    apply absent
    rcases List.mem_append.mp member with before | after
    · exact List.mem_append_left _ before
    · exact List.mem_append_right _ (List.mem_cons_of_mem _ after)

theorem sdk_star (range : Text) : VersionRanges.trim range = ['*'] ↔ Starred range ∧ nextLine ∉ range :=
  trimBy_star isBlank nextLine (by decide) rfl isBlank_iff range

theorem host_star (range : String) :
    Interfaces.trim range = ['*'] ↔ Starred range.toList ∧ byteOrderMark ∉ range.toList :=
  trimBy_star isWhitespace byteOrderMark (by decide) rfl isWhitespace_iff range.toList

theorem space_not_digit {c : Char} (space : (isBlank c || isWhitespace c) = true) : c.isDigit = false := by
  by_contra digit
  simp only [Bool.not_eq_false,Char.isDigit,Bool.and_eq_true,decide_eq_true_eq] at digit
  have low : 48 ≤ c.toNat := UInt32.le_iff_toNat_le.mp digit.1
  have high : c.toNat ≤ 57 := UInt32.le_iff_toNat_le.mp digit.2
  simp only [isBlank,isWhitespace,Bool.or_eq_true,Bool.and_eq_true,decide_eq_true_eq,List.mem_cons,List.not_mem_nil,
    or_false] at space
  omega

/-- Nothing but a star and spaces has no digit. -/
theorem starred_digitless {range : Text} (starred : Starred range) : VersionRanges.leadingMajor range = none := by
  obtain ⟨lead,tail,rfl,spaces⟩ := starred
  have none : (lead ++ '*' :: tail).dropWhile (fun c => !c.isDigit) = [] := by
    apply List.dropWhile_eq_nil_iff.mpr
    intro c member
    have other : c.isDigit = false := by
      rcases List.mem_append.mp member with before | after
      · exact space_not_digit (spaces c (List.mem_append_left tail before))
      · rcases List.mem_cons.mp after with rfl | after
        · rfl
        · exact space_not_digit (spaces c (List.mem_append_right lead after))
    simp only [other,Bool.not_false]
  simp only [VersionRanges.leadingMajor,none,List.takeWhile_nil,if_true]

end Stars

section Majors

/-- Both read the same major, of any number of digits. -/
theorem leadingMajor_eq (t : String) : Interfaces.leadingMajor t = VersionRanges.leadingMajor t.toList := by
  have value : ∀ digits : Text, digits.foldl (fun value c => 10 * value + (c.toNat - 48)) 0 = Json.valueOf digits :=
    fun _ => rfl
  simp only [Interfaces.leadingMajor,Interfaces.parseU32,VersionRanges.leadingMajor,List.isEmpty_iff,value]
  split
  · rfl
  · next digits =>
    generalize Json.valueOf ((t.toList.dropWhile fun c => !c.isDigit).takeWhile Char.isDigit) = major
    by_cases small : major < 2 ^ 32
    · have within : ¬0xffffffff < major := by omega
      simp only [if_pos small,if_neg within]
    · have beyond : 0xffffffff < major := by omega
      simp only [if_neg small,if_pos beyond]

end Majors

section Gate

/-- The rule behind the star is one rule. -/
theorem majors_agree (version range : String) :
    (match VersionRanges.leadingMajor range.toList,VersionRanges.leadingMajor version.toList with
      | some ra,some va => decide (ra = va)
      | _,_ => false) =
    (match Interfaces.leadingMajor range,Interfaces.leadingMajor version with
      | some wanted,some offered => decide (wanted = offered)
      | _,_ => false) := by
  simp only [leadingMajor_eq]

/-- The gate agrees with the engine unless a star has a byte order mark or a next-line sign beside it, and
not both. -/
theorem gate_agrees_iff (version range : String) :
    satisfiesRange version.toList range.toList = versionSatisfies range version ↔
      (Starred range.toList → (byteOrderMark ∈ range.toList ↔ nextLine ∈ range.toList)) := by
  by_cases starred : Starred range.toList
  · have digitless := starred_digitless starred
    have digitless' := (leadingMajor_eq range).trans digitless
    have sdk : satisfiesRange version.toList range.toList = true ↔ nextLine ∉ range.toList := by
      have found := sdk_star range.toList
      simp only [starred,true_and] at found
      simp [satisfiesRange,digitless,found]
    have host : versionSatisfies range version = true ↔ byteOrderMark ∉ range.toList := by
      have found := host_star range
      simp only [starred,true_and] at found
      simp [versionSatisfies,digitless',found]
    simp only [Bool.eq_iff_iff,sdk,host,starred,true_implies]
    exact ⟨fun same => not_iff_not.mp same.symm,fun same => not_congr same.symm⟩
  · have sdk : VersionRanges.trim range.toList ≠ ['*'] := fun star => starred ((sdk_star _).mp star).1
    have host : Interfaces.trim range ≠ ['*'] := fun star => starred ((host_star _).mp star).1
    simp only [starred,false_implies,iff_true,satisfiesRange,versionSatisfies,if_neg sdk,if_neg host]
    exact majors_agree version range

/-- The gate passes a range that the engine refuses on every call. -/
theorem gate_disagrees :
    satisfiesRange "1.0.0".toList "\uFEFF*".toList = true ∧ versionSatisfies "\uFEFF*" "1.0.0" = false := by
  decide

end Gate

end S2Script.RangeGate
