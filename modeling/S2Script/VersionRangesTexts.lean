import S2Script.VersionRanges
import S2Script.JsonRoundTrip

/-! Version texts: what the engine's rule reads of a version, of a range that names it, and of the
version that a bump leads to. -/
namespace S2Script.VersionRanges

open Json (quoted valueOf digitsOf)

/-- A semantic version with its prerelease and build tags. -/
structure Version where
  major : Nat
  minor : Nat
  patch : Nat
  tags : Text
  tagged : dropTags '+' (dropTags '-' tags) = []

def Version.text (v : Version) : Text :=
  digitsOf v.major ++ '.' :: (digitsOf v.minor ++ '.' :: (digitsOf v.patch ++ v.tags))

/-- A text that reads as a version: blanks around it and a `v` in front do no harm. -/
def Reads (t : Text) (v : Version) : Prop := trim t = v.text ∨ trim t = 'v' :: v.text

/-- What a bump may raise. -/
def Bumped : BumpType → Version → Version → Prop
  | .none, old, new => new = old
  | .patch, old, new => new.major = old.major ∧ new.minor = old.minor ∧ old.patch ≤ new.patch
  | .minor, old, new => new.major = old.major ∧ old.minor ≤ new.minor
  | .major, old, new => old.major ≤ new.major

/-- A release moves from its old version to a higher one by its bump type. -/
def ComprehensiveRelease.Moves (r : ComprehensiveRelease) : Prop :=
  r.newVersion = r.oldVersion ∨
    r.type ≠ .none ∧ ∃ old new, Reads r.oldVersion old ∧ r.newVersion = new.text ∧ Bumped r.type old new

/-- The major that the rule can read. -/
def readMajor (major : Nat) : Option Nat := if 0xffffffff < major then none else some major

theorem trim_split (t : Text) : ∃ lead tail, t = lead ++ trim t ++ tail ∧ (∀ c ∈ lead, isBlank c = true) ∧
    ∀ c ∈ tail, isBlank c = true := by
  have back := List.takeWhile_append_dropWhile (p := isBlank) (l := (t.dropWhile isBlank).reverse)
  have split : t.dropWhile isBlank = trim t ++ ((t.dropWhile isBlank).reverse.takeWhile isBlank).reverse := by
    rw [trim,← List.reverse_append,back,List.reverse_reverse]
  refine ⟨t.takeWhile isBlank,((t.dropWhile isBlank).reverse.takeWhile isBlank).reverse,?_,?_,?_⟩
  · rw [List.append_assoc,← split,List.takeWhile_append_dropWhile]
  · exact fun c member => List.mem_takeWhile_imp member
  · exact fun c member => List.mem_takeWhile_imp (List.mem_reverse.mp member)

theorem blank_not_digit {c : Char} (blank : isBlank c = true) : c.isDigit = false := by
  by_contra digit
  simp only [Bool.not_eq_false,Char.isDigit,Bool.and_eq_true,decide_eq_true_eq] at digit
  have low : 48 ≤ c.toNat := UInt32.le_iff_toNat_le.mp digit.1
  have high : c.toNat ≤ 57 := UInt32.le_iff_toNat_le.mp digit.2
  simp only [isBlank,Bool.or_eq_true,Bool.and_eq_true,decide_eq_true_eq,List.mem_cons,List.not_mem_nil,or_false] at blank
  omega

/-- The rule reads the first number of a text. -/
theorem leadingMajor_of_digits {lead : Text} (major : Nat) (rest : Text) (others : ∀ c ∈ lead, c.isDigit = false)
    (ends : ∀ c ∈ rest.head?, c.isDigit = false) : leadingMajor (lead ++ (digitsOf major ++ rest)) = readMajor major := by
  have skipped : (lead ++ (digitsOf major ++ rest)).dropWhile (fun c => !c.isDigit) = digitsOf major ++ rest := by
    rw [List.dropWhile_append_of_pos (by simpa using others)]
    cases digits : digitsOf major with
    | nil => exact absurd digits (Json.digitsOf_ne_nil major)
    | cons c more =>
      have digit := Json.digitsOf_isDigit c (by rw [digits]; exact List.mem_cons_self)
      simp [digit]
  rw [leadingMajor,skipped,(Json.takeWhile_digits Json.digitsOf_isDigit ends).1]
  simp only [Json.digitsOf_ne_nil,if_false,Json.valueOf_digitsOf]
  rfl

theorem leadingMajor_version (lead : Text) (v : Version) (tail : Text) (others : ∀ c ∈ lead, c.isDigit = false) :
    leadingMajor (lead ++ v.text ++ tail) = readMajor v.major := by
  rw [← leadingMajor_of_digits v.major ('.' :: (digitsOf v.minor ++ '.' :: (digitsOf v.patch ++ v.tags)) ++ tail) others
    (by simp)]
  simp [Version.text]

theorem leadingMajor_text (v : Version) : leadingMajor v.text = readMajor v.major := by
  have found := leadingMajor_version [] v [] (by simp)
  simpa using found

theorem Reads.leadingMajor {t : Text} {v : Version} (reads : Reads t v) : leadingMajor t = readMajor v.major := by
  obtain ⟨lead,tail,split,before,_⟩ := trim_split t
  have blanks : ∀ c ∈ lead, c.isDigit = false := fun c member => blank_not_digit (before c member)
  rcases reads with plain | marked
  · rw [split,plain]
    exact leadingMajor_version lead v tail blanks
  · rw [split,marked]
    have found := leadingMajor_version (lead ++ ['v']) v tail
      (by simpa [or_imp,forall_and] using blanks)
    simpa using found

theorem rangePrefix_no_digit (range : Text) : ∀ c ∈ rangePrefix range, c.isDigit = false := by
  rw [rangePrefix.eq_def]
  split <;> simp

/-- A range made of an operator and a version has the major of the version. -/
theorem leadingMajor_rebuilt (range : Text) (v : Version) :
    leadingMajor (rangePrefix range ++ v.text) = readMajor v.major := by
  have found := leadingMajor_version _ v [] (rangePrefix_no_digit range)
  simpa using found

/-- Only a star is a star behind blanks. -/
theorem trim_rebuilt (range : Text) (v : Version) : trim (rangePrefix range ++ v.text) ≠ ['*'] := by
  intro star
  obtain ⟨lead,tail,split,before,after⟩ := trim_split (rangePrefix range ++ v.text)
  cases digits : digitsOf v.major with
  | nil => exact Json.digitsOf_ne_nil _ digits
  | cons c more =>
    have digit := Json.digitsOf_isDigit c (by rw [digits]; exact List.mem_cons_self)
    have member : c ∈ rangePrefix range ++ v.text := by simp [Version.text,digits]
    rw [split,star] at member
    simp only [List.mem_append,List.mem_singleton] at member
    rcases member with (inside | rfl) | inside
    · rw [blank_not_digit (before c inside)] at digit
      cases digit
    · exact absurd digit (by decide)
    · rw [blank_not_digit (after c inside)] at digit
      cases digit

/-- A bump that is not major leaves the major that the rule reads. -/
theorem ComprehensiveRelease.Moves.major {r : ComprehensiveRelease} (moves : r.Moves) (below : r.type ≠ .major) :
    leadingMajor r.newVersion = leadingMajor r.oldVersion := by
  rcases moves with same | ⟨some,old,new,reads,text,bumped⟩
  · rw [same]
  · rw [text,leadingMajor_text,reads.leadingMajor]
    cases type : r.type <;> simp only [type,Bumped] at bumped below
    · exact absurd type some
    · rw [bumped.1]
    · rw [bumped.1]
    · exact absurd rfl below

theorem satisfiesRange_iff (version range : Text) : satisfiesRange version range = true ↔
    trim range = ['*'] ∨ ∃ major, leadingMajor range = some major ∧ leadingMajor version = some major := by
  rw [satisfiesRange]
  split
  next star => simp [star]
  next other =>
    simp only [other,false_or]
    cases leadingMajor range <;> cases leadingMajor version <;> simp [eq_comm]

end S2Script.VersionRanges
