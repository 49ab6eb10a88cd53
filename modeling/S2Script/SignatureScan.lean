import S2Script.OriginalModule

/-! Byte signatures: parsing a pattern, finding every place that matches it, and the checked
arithmetic of relative targets. -/
namespace S2Script.SignatureScan

open OriginalModule (maximum)

abbrev Text := List UInt8

/-- A byte of a pattern, `none` for the wildcard. -/
abbrev Token := Option UInt8

def isSpace (c : UInt8) : Bool := c = 32 || (9 ≤ c && c ≤ 13)

def hexNibble (c : UInt8) : Option Nat :=
  if 48 ≤ c ∧ c ≤ 57 then some (c.toNat - 48)
  else if 97 ≤ c ∧ c ≤ 102 then some (c.toNat - 97 + 10)
  else if 65 ≤ c ∧ c ≤ 70 then some (c.toNat - 65 + 10)
  else none

/-- One token of a pattern and the text after it. -/
def token (c : UInt8) (rest : Text) : Option (Token × Text) :=
  if c = 63 then
    match rest with
    | 63 :: more => some (none,more)
    | _ => some (none,rest)
  else
    match hexNibble c,rest with
    | some hi,d :: more =>
      match hexNibble d with
      | some lo => some (some (UInt8.ofNat (hi * 16 + lo)),more)
      | none => none
    | _,_ => none

/-- What spells one token. -/
inductive TokenText : Text → Token → Prop where
  | any : TokenText [63] none
  | anyTwice : TokenText [63,63] none
  | byte {a b : UInt8} {hi lo : Nat} : hexNibble a = some hi → hexNibble b = some lo →
      TokenText [a,b] (some (UInt8.ofNat (hi * 16 + lo)))

theorem token_text {c : UInt8} {rest more : Text} {k : Token} (made : token c rest = some (k,more)) :
    ∃ t, TokenText t k ∧ c :: rest = t ++ more := by
  simp only [token] at made
  split at made
  · rename_i mark
    subst mark
    split at made
    · cases made
      exact ⟨_,.anyTwice,rfl⟩
    · cases made
      exact ⟨_,.any,rfl⟩
  · split at made
    · rename_i hi d tail first
      split at made
      · rename_i lo second
        cases made
        exact ⟨_,.byte first second,rfl⟩
      · cases made
    · cases made

theorem token_shorter {c : UInt8} {rest more : Text} {k : Token} (made : token c rest = some (k,more)) :
    more.length ≤ rest.length := by
  obtain ⟨t,text,split⟩ := token_text made
  have lengths := congrArg List.length split
  simp only [List.length_cons,List.length_append] at lengths
  cases text <;> simp only [List.length_cons,List.length_nil] at lengths <;> omega

theorem dropWhile_shorter (p : UInt8 → Bool) (text : Text) : (text.dropWhile p).length ≤ text.length :=
  (List.dropWhile_sublist p).length_le

/-- The loop of `ParsePattern`; `none` where it returns an empty pattern at once. -/
def parseLoop (out : List Token) (text : Text) : Option (List Token) :=
  match _rest : text.dropWhile isSpace with
  | [] => some out
  | c :: rest =>
    match _made : token c rest with
    | none => none
    | some (k,more) => if more.head?.all isSpace then parseLoop (out ++ [k]) more else none
termination_by text.length
decreasing_by
  have first := dropWhile_shorter isSpace text
  have second := token_shorter _made
  rw [_rest,List.length_cons] at first
  omega

/-- `ParsePattern`. -/
def parsePattern (text : Text) : List Token := (parseLoop [] text).getD []

/-- Whether the bytes begin with the pattern. -/
def matchesHere : List Token → Text → Bool
  | [],_ => true
  | _ :: _,[] => false
  | k :: pat,b :: text => (k = none || k = some b) && matchesHere pat text

/-- `FindPattern`. -/
def findPattern (text : Text) (pat : List Token) : Option Nat :=
  if pat = [] ∨ text.length < pat.length then none
  else (List.range (text.length - pat.length + 1)).find? fun off => matchesHere pat (text.drop off)

/-- The loop of `FindPatterns`. -/
def patternsFrom (text : Text) (pat : List Token) (cursor : Nat) : List Nat :=
  if cursor < text.length then
    match findPattern (text.drop cursor) pat with
    | none => []
    | some off => (cursor + off) :: patternsFrom text pat (cursor + off + 1)
  else []
termination_by text.length - cursor

/-- `FindPatterns`. -/
def findPatterns (text : Text) (pat : List Token) : List Nat :=
  if pat = [] then [] else patternsFrom text pat 0

/-- `AddRelative`, with `uintptr_t` addresses and an `int32_t` displacement. -/
def addRelative (instruction length : UInt64) (displacement : BitVec 32) : Option UInt64 :=
  if length > maximum - instruction then none
  else
    let limit := instruction + length
    if displacement.toInt < 0 then
      let magnitude := UInt64.ofNat (-displacement.toInt).toNat
      if magnitude > limit then none else some (limit - magnitude)
    else if UInt64.ofNat displacement.toNat > maximum - limit then none
    else some (limit + UInt64.ofNat displacement.toNat)

section Parsing

def Blank (text : Text) : Prop := ∀ c ∈ text, isSpace c = true

/-- Tokens with whitespace between them, and perhaps behind them. -/
inductive Tokens : Text → List Token → Prop where
  | one {t trail : Text} {k : Token} : TokenText t k → Blank trail → Tokens (t ++ trail) [k]
  | more {t gap rest : Text} {k : Token} {ks : List Token} : TokenText t k → Blank gap → gap ≠ [] →
      Tokens rest ks → Tokens (t ++ (gap ++ rest)) (k :: ks)

/-- A text of one or more tokens separated by whitespace. -/
def Spelled (text : Text) (ks : List Token) : Prop :=
  ∃ lead rest, Blank lead ∧ Tokens rest ks ∧ text = lead ++ rest

theorem hexNibble_not_space {c : UInt8} {n : Nat} (hex : hexNibble c = some n) : isSpace c = false := by
  have bound : 48 ≤ c.toNat := by
    simp only [hexNibble,UInt8.le_iff_toNat_le] at hex
    have digits : (48 : UInt8).toNat = 48 ∧ (97 : UInt8).toNat = 97 ∧ (65 : UInt8).toNat = 65 := ⟨rfl,rfl,rfl⟩
    split at hex
    · omega
    · split at hex
      · omega
      · split at hex
        · omega
        · cases hex
  have thirteen : (13 : UInt8).toNat = 13 := rfl
  have below : ¬ c ≤ 13 := by
    rw [UInt8.le_iff_toNat_le]
    omega
  have blank : c ≠ 32 := by
    rintro rfl
    have thirtyTwo : (32 : UInt8).toNat = 32 := rfl
    omega
  simp [isSpace,below,blank]

/-- A token that is followed by whitespace or the end is read as such. -/
theorem TokenText.token {t more : Text} {k : Token} (text : TokenText t k) (stops : more.head?.all isSpace = true) :
    ∃ c rest, t ++ more = c :: rest ∧ token c rest = some (k,more) ∧ isSpace c = false := by
  cases text with
  | any =>
    refine ⟨63,more,rfl,?_,by decide⟩
    simp only [SignatureScan.token,if_true]
    have solid : isSpace 63 = false := rfl
    split
    · simp [solid] at stops
    · rfl
  | anyTwice => exact ⟨63,63 :: more,rfl,rfl,by decide⟩
  | byte first second =>
    rename_i a b hi lo
    have space := hexNibble_not_space first
    have mark : a ≠ 63 := by
      rintro rfl
      have none : hexNibble 63 = none := rfl
      rw [none] at first
      cases first
    exact ⟨a,b :: more,rfl,by simp only [SignatureScan.token,if_neg mark,first,second],space⟩

theorem Tokens.head {rest : Text} {ks : List Token} (tokens : Tokens rest ks) :
    ∃ c tail, rest = c :: tail ∧ isSpace c = false := by
  cases tokens with
  | one text _ =>
    obtain ⟨c,tail,same,_,solid⟩ := @TokenText.token _ [] _ text rfl
    rw [List.append_nil] at same
    exact ⟨c,_,by rw [same]; rfl,solid⟩
  | more text _ _ _ =>
    obtain ⟨c,tail,same,_,solid⟩ := @TokenText.token _ [] _ text rfl
    rw [List.append_nil] at same
    exact ⟨c,_,by rw [same]; rfl,solid⟩

theorem dropWhile_blank {lead rest : Text} (blank : Blank lead) (solid : ∀ c ∈ rest.head?, isSpace c = false) :
    (lead ++ rest).dropWhile isSpace = rest := by
  induction lead with
  | nil =>
    cases rest with
    | nil => rfl
    | cons c tail => rw [List.nil_append,List.dropWhile_cons_of_neg (by simp [solid c rfl])]
  | cons c lead ih =>
    rw [List.cons_append,List.dropWhile_cons_of_pos (blank c List.mem_cons_self)]
    exact ih fun c member => blank c (List.mem_cons_of_mem _ member)

theorem blank_stops {gap rest : Text} (blank : Blank gap) (some : gap ≠ []) : (gap ++ rest).head?.all isSpace = true := by
  cases gap with
  | nil => exact absurd rfl some
  | cons c gap => exact blank c List.mem_cons_self

theorem Spelled.not_blank {text : Text} {ks : List Token} (spelled : Spelled text ks) : ¬ Blank text := by
  obtain ⟨lead,rest,_,tokens,same⟩ := spelled
  obtain ⟨c,tail,first,solid⟩ := tokens.head
  intro blank
  have member : c ∈ text := by simp [same,first]
  have space := blank c member
  rw [solid] at space
  cases space

theorem blank_iff (text : Text) : Blank text ↔ text.dropWhile isSpace = [] := by
  rw [List.dropWhile_eq_nil_iff]
  exact Iff.rfl

/-- Whitespace, and then the text that the loop looks at. -/
theorem lead_split {text rest : Text} {c : UInt8} (seen : text.dropWhile isSpace = c :: rest) :
    ∃ lead, Blank lead ∧ text = lead ++ c :: rest := by
  refine ⟨text.takeWhile isSpace,fun d member => List.mem_takeWhile_imp member,?_⟩
  rw [← seen,List.takeWhile_append_dropWhile]

/-- What the loop accepts: blank text, or tokens between whitespace. -/
def Read (text : Text) (ks : List Token) : Prop := (Blank text ∧ ks = []) ∨ Spelled text ks

theorem Read.cons {text rest more : Text} {c : UInt8} {k : Token} {ks : List Token}
    (seen : text.dropWhile isSpace = c :: rest) (made : token c rest = some (k,more))
    (stops : more.head?.all isSpace = true) (read : Read more ks) : Read text (k :: ks) := by
  obtain ⟨lead,blank,whole⟩ := lead_split seen
  obtain ⟨t,spells,split⟩ := token_text made
  rw [split] at whole
  obtain ⟨trail,rfl⟩ | ⟨gap,later,space,tokens,same⟩ := read
  · exact .inr ⟨lead,_,blank,.one spells trail,whole⟩
  · refine .inr ⟨lead,_,blank,.more spells space ?_ tokens,by rw [whole,same]⟩
    rintro rfl
    obtain ⟨d,tail,first,solid⟩ := tokens.head
    simp [same,first,solid] at stops

theorem parseLoop_nil {out : List Token} {text : Text} (seen : text.dropWhile isSpace = []) :
    parseLoop out text = some out := by
  rw [parseLoop]
  split
  · rfl
  · rename_i other
    rw [seen] at other
    cases other

theorem parseLoop_cons {out : List Token} {text rest : Text} {c : UInt8} (seen : text.dropWhile isSpace = c :: rest) :
    parseLoop out text = match token c rest with
      | none => none
      | some (k,more) => if more.head?.all isSpace then parseLoop (out ++ [k]) more else none := by
  rw [parseLoop]
  split
  · rename_i other
    rw [seen] at other
    cases other
  · rename_i d tail other
    rw [seen] at other
    cases other
    split <;> rename_i made <;> rw [made]

/-- What is spelled is a first token, and what follows it. -/
theorem Spelled.uncons {text : Text} {ks : List Token} (spelled : Spelled text ks) :
    ∃ c rest k more later, text.dropWhile isSpace = c :: rest ∧ token c rest = some (k,more) ∧
      more.head?.all isSpace = true ∧ ks = k :: later ∧ Read more later := by
  obtain ⟨lead,body,blank,tokens,whole⟩ := spelled
  have seen : text.dropWhile isSpace = body := by
    obtain ⟨c,tail,first,solid⟩ := tokens.head
    rw [whole]
    apply dropWhile_blank blank
    rw [first]
    rintro d ⟨⟩
    exact solid
  cases tokens with
  | @one t trail k spells space =>
    have stops : trail.head?.all isSpace = true := by
      cases trail with
      | nil => rfl
      | cons d trail => exact space d List.mem_cons_self
    obtain ⟨c,rest,same,made,_⟩ := spells.token stops
    exact ⟨c,rest,k,trail,[],by rw [seen,same],made,stops,rfl,.inl ⟨space,rfl⟩⟩
  | @more t gap later k ks spells space some tokens =>
    have stops := @blank_stops _ later space some
    obtain ⟨c,rest,same,made,_⟩ := spells.token stops
    exact ⟨c,rest,k,_,ks,by rw [seen,same],made,stops,rfl,.inr ⟨gap,later,space,tokens,rfl⟩⟩

theorem Read.uncons {text rest : Text} {c : UInt8} {ks : List Token} (read : Read text ks)
    (seen : text.dropWhile isSpace = c :: rest) :
    ∃ k more later, token c rest = some (k,more) ∧ more.head?.all isSpace = true ∧
      ks = k :: later ∧ Read more later := by
  obtain ⟨blank,_⟩ | spelled := read
  · rw [(blank_iff text).mp blank] at seen
    cases seen
  · obtain ⟨d,tail,k,more,later,first,made,stops,parts,after⟩ := spelled.uncons
    rw [seen] at first
    cases first
    exact ⟨k,more,later,made,stops,parts,after⟩

/-- The loop keeps what it has and adds the tokens that the text spells. -/
theorem parseLoop_iff (out : List Token) (text : Text) (r : List Token) :
    parseLoop out text = some r ↔ ∃ ks, r = out ++ ks ∧ Read text ks := by
  induction out,text using parseLoop.induct with
  | case1 out text seen =>
    have blank := (blank_iff text).mpr seen
    rw [parseLoop_nil seen]
    constructor
    · rintro ⟨⟩
      exact ⟨[],by simp,.inl ⟨blank,rfl⟩⟩
    · rintro ⟨ks,rfl,⟨_,rfl⟩ | spelled⟩
      · simp
      · exact absurd blank spelled.not_blank
  | case2 out text c rest seen refused =>
    rw [parseLoop_cons seen,refused]
    constructor
    · rintro ⟨⟩
    · rintro ⟨ks,_,read⟩
      obtain ⟨k,more,later,made,_⟩ := read.uncons seen
      rw [refused] at made
      cases made
  | case3 out text c rest seen k more made stops ih =>
    rw [parseLoop_cons seen,made]
    simp only [stops,if_true]
    rw [ih]
    constructor
    · rintro ⟨ks,rfl,read⟩
      exact ⟨k :: ks,by simp,read.cons seen made stops⟩
    · rintro ⟨ks,rfl,read⟩
      obtain ⟨k',more',later,made',_,rfl,after⟩ := read.uncons seen
      rw [made] at made'
      cases made'
      exact ⟨later,by simp,after⟩
  | case4 out text c rest seen k more made runs =>
    rw [parseLoop_cons seen,made]
    simp only [runs]
    constructor
    · rintro ⟨⟩
    · rintro ⟨ks,_,read⟩
      obtain ⟨k',more',later,made',stops,_⟩ := read.uncons seen
      rw [made] at made'
      cases made'
      exact absurd stops runs

theorem Spelled.some {text : Text} {ks : List Token} (spelled : Spelled text ks) : ks ≠ [] := by
  obtain ⟨_,_,_,_,_,_,_,_,parts,_⟩ := spelled.uncons
  simp [parts]

/-- The loop starts with nothing, so that an empty pattern means blank or malformed text. -/
theorem parsePattern_iff {text : Text} {r : List Token} (some : r ≠ []) :
    parsePattern text = r ↔ Spelled text r := by
  have loop := parseLoop_iff [] text r
  simp only [List.nil_append,exists_eq_left'] at loop
  constructor
  · intro parsed
    cases made : parseLoop [] text with
    | none => exact absurd parsed.symm (by simpa [parsePattern,made] using some)
    | some out =>
      have same : out = r := by simpa [parsePattern,made] using parsed
      rw [same] at made
      obtain ⟨_,rfl⟩ | spelled := loop.mp made
      · exact absurd rfl some
      · exact spelled
  · intro spelled
    rw [parsePattern,loop.mpr (.inr spelled),Option.getD_some]

theorem parsePattern_some (text : Text) : parsePattern text ≠ [] ↔ ∃ ks, Spelled text ks := by
  constructor
  · intro some
    exact ⟨_,(parsePattern_iff some).mp rfl⟩
  · rintro ⟨ks,spelled⟩
    rw [(parsePattern_iff spelled.some).mpr spelled]
    exact spelled.some

end Parsing

section Matching

/-- The whole pattern lies inside the bytes at `off`, and every byte it names is there. -/
structure Matches (text : Text) (pat : List Token) (off : Nat) : Prop where
  fits : off + pat.length ≤ text.length
  bytes : ∀ j b, pat[j]? = some (some b) → text[off + j]? = some b

theorem matchesHere_iff (pat : List Token) (text : Text) : matchesHere pat text = true ↔ Matches text pat 0 := by
  induction pat generalizing text with
  | nil => exact iff_of_true rfl ⟨by simp,by simp⟩
  | cons k pat ih =>
    cases text with
    | nil => exact iff_of_false (by simp [matchesHere]) fun whole => by simpa using whole.fits
    | cons b text =>
      simp only [matchesHere,Bool.and_eq_true,ih]
      constructor
      · rintro ⟨first,rest⟩
        refine ⟨by simpa using rest.fits,?_⟩
        intro j c named
        cases j with
        | zero =>
          simp only [List.getElem?_cons_zero,Option.some.injEq] at named
          subst named
          simp only [reduceCtorEq,decide_false,Bool.false_or,decide_eq_true_eq,Option.some.injEq] at first
          simp [first]
        | succ j => simpa using rest.bytes j c (by simpa using named)
      · intro whole
        refine ⟨?_,by simpa using whole.fits,?_⟩
        · cases k with
          | none => simp
          | some c =>
            have first := whole.bytes 0 c rfl
            simp only [Nat.zero_add,List.getElem?_cons_zero,Option.some.injEq] at first
            simp [first]
        · intro j c named
          simpa using whole.bytes (j + 1) c (by simpa using named)

theorem matchesHere_drop (pat : List Token) (text : Text) (off : Nat) (bound : off ≤ text.length) :
    matchesHere pat (text.drop off) = true ↔ Matches text pat off := by
  rw [matchesHere_iff]
  constructor
  · intro here
    have fits := here.fits
    rw [List.length_drop] at fits
    exact ⟨by omega,fun j b named => by simpa [List.getElem?_drop] using here.bytes j b named⟩
  · intro here
    have fits := here.fits
    refine ⟨by rw [List.length_drop]; omega,?_⟩
    intro j b named
    simpa [List.getElem?_drop] using here.bytes j b named

/-- `FindPattern` gives the first offset that matches. -/
theorem findPattern_some {text : Text} {pat : List Token} {off : Nat} (found : findPattern text pat = some off) :
    Matches text pat off ∧ ∀ o < off, ¬ Matches text pat o := by
  unfold findPattern at found
  split at found
  · cases found
  · rename_i big
    simp only [not_or,Nat.not_lt] at big
    obtain ⟨holds,inside,before⟩ := List.find?_range_eq_some.mp found
    rw [List.mem_range] at inside
    have bound : off ≤ text.length := by omega
    refine ⟨(matchesHere_drop pat text off bound).mp holds,?_⟩
    intro o below here
    have miss := before o below
    rw [(matchesHere_drop pat text o (by omega)).mpr here] at miss
    cases miss

theorem findPattern_none {text : Text} {pat : List Token} (some : pat ≠ []) (found : findPattern text pat = none)
    (off : Nat) : ¬ Matches text pat off := by
  intro here
  have fits := here.fits
  unfold findPattern at found
  split at found
  · rename_i none
    obtain rfl | short := none
    · exact some rfl
    · omega
  · have miss := List.find?_eq_none.mp found off (List.mem_range.mpr (by omega))
    exact miss ((matchesHere_drop pat text off (by omega)).mpr here)

theorem Matches.drop {text : Text} {pat : List Token} (cursor off : Nat) (bound : cursor ≤ text.length) :
    Matches (text.drop cursor) pat off ↔ Matches text pat (cursor + off) := by
  constructor
  · intro here
    have fits := here.fits
    rw [List.length_drop] at fits
    refine ⟨by omega,?_⟩
    intro j b named
    simpa [List.getElem?_drop,Nat.add_assoc] using here.bytes j b named
  · intro here
    have fits := here.fits
    refine ⟨by rw [List.length_drop]; omega,?_⟩
    intro j b named
    simpa [List.getElem?_drop,Nat.add_assoc] using here.bytes j b named

theorem patternsFrom_none {text : Text} {pat : List Token} {cursor : Nat}
    (found : findPattern (text.drop cursor) pat = none) : patternsFrom text pat cursor = [] := by
  rw [patternsFrom]
  split
  · simp only [found]
  · rfl

theorem patternsFrom_some {text : Text} {pat : List Token} {cursor off : Nat} (inside : cursor < text.length)
    (found : findPattern (text.drop cursor) pat = some off) :
    patternsFrom text pat cursor = (cursor + off) :: patternsFrom text pat (cursor + off + 1) := by
  rw [patternsFrom]
  simp only [inside,if_true,found]

/-- The loop continues one byte behind each match, so that overlapping ones are found too. -/
theorem mem_patternsFrom {text : Text} {pat : List Token} (some : pat ≠ []) (cursor off : Nat) :
    off ∈ patternsFrom text pat cursor ↔ cursor ≤ off ∧ Matches text pat off := by
  induction cursor using patternsFrom.induct text pat with
  | case1 cursor inside found =>
    rw [patternsFrom_none found]
    refine iff_of_false (List.not_mem_nil) ?_
    rintro ⟨later,here⟩
    apply findPattern_none some found (off - cursor)
    rw [Matches.drop cursor _ (by omega),Nat.add_sub_cancel' later]
    exact here
  | case2 cursor inside first found ih =>
    rw [patternsFrom_some inside found,List.mem_cons,ih]
    obtain ⟨here,before⟩ := findPattern_some found
    rw [Matches.drop cursor first (by omega)] at here
    constructor
    · rintro (rfl | ⟨later,match_⟩)
      · exact ⟨by omega,here⟩
      · exact ⟨by omega,match_⟩
    · rintro ⟨later,match_⟩
      by_cases same : off = cursor + first
      · exact .inl same
      · refine .inr ⟨?_,match_⟩
        by_contra early
        apply before (off - cursor) (by omega)
        rw [Matches.drop cursor _ (by omega),Nat.add_sub_cancel' later]
        exact match_
  | case3 cursor outside =>
    rw [patternsFrom,if_neg outside]
    refine iff_of_false (List.not_mem_nil) ?_
    rintro ⟨later,here⟩
    have fits := here.fits
    have length := List.length_pos_of_ne_nil some
    omega

theorem patternsFrom_from {text : Text} {pat : List Token} (some : pat ≠ []) (cursor : Nat) :
    ∀ off ∈ patternsFrom text pat cursor, cursor ≤ off :=
  fun off member => ((mem_patternsFrom some cursor off).mp member).1

theorem patternsFrom_increasing {text : Text} {pat : List Token} (some : pat ≠ []) (cursor : Nat) :
    (patternsFrom text pat cursor).Pairwise (· < ·) := by
  induction cursor using patternsFrom.induct text pat with
  | case1 cursor inside found =>
    rw [patternsFrom_none found]
    exact List.Pairwise.nil
  | case2 cursor inside first found ih =>
    rw [patternsFrom_some inside found]
    apply List.Pairwise.cons _ ih
    intro off member
    have later := patternsFrom_from some _ off member
    omega
  | case3 cursor outside =>
    rw [patternsFrom,if_neg outside]
    exact List.Pairwise.nil

theorem mem_findPatterns {text : Text} {pat : List Token} (some : pat ≠ []) (off : Nat) :
    off ∈ findPatterns text pat ↔ Matches text pat off := by
  rw [findPatterns,if_neg some,mem_patternsFrom some]
  simp

theorem findPatterns_increasing (text : Text) (pat : List Token) : (findPatterns text pat).Pairwise (· < ·) := by
  unfold findPatterns
  split
  · exact List.Pairwise.nil
  · rename_i some
    exact patternsFrom_increasing some 0

end Matching

section Relative

theorem toNat_maximum_sub (i : UInt64) : (maximum - i).toNat = 2 ^ 64 - 1 - i.toNat := by
  have bound := i.toNat_lt
  rw [UInt64.toNat_sub_of_le]
  · rfl
  · rw [UInt64.le_iff_toNat_le]
    show i.toNat ≤ 2 ^ 64 - 1
    omega

/-- The end of the instruction, to which the displacement is added. -/
theorem limit_toNat {instruction length : UInt64} (fits : ¬ length > maximum - instruction) :
    (instruction + length).toNat = instruction.toNat + length.toNat ∧ instruction.toNat + length.toNat < 2 ^ 64 := by
  have bound := instruction.toNat_lt
  rw [gt_iff_lt,UInt64.lt_iff_toNat_lt,toNat_maximum_sub] at fits
  have sum : instruction.toNat + length.toNat < 2 ^ 64 := by omega
  exact ⟨by rw [UInt64.toNat_add,Nat.mod_eq_of_lt sum],sum⟩

theorem magnitude_toNat (displacement : BitVec 32) :
    (UInt64.ofNat (-displacement.toInt).toNat).toNat = (-displacement.toInt).toNat ∧
      (UInt64.ofNat displacement.toNat).toNat = displacement.toNat := by
  have low := BitVec.le_toInt displacement
  have high := displacement.isLt
  rw [UInt64.toNat_ofNat',UInt64.toNat_ofNat']
  constructor <;> apply Nat.mod_eq_of_lt <;> omega

/-- A relative target is the integer sum, and the addition is refused where that leaves the address space. -/
theorem addRelative_iff (instruction length : UInt64) (displacement : BitVec 32) (target : UInt64) :
    addRelative instruction length displacement = some target ↔
      instruction.toNat + length.toNat < 2 ^ 64 ∧
        (target.toNat : Int) = instruction.toNat + length.toNat + displacement.toInt := by
  obtain ⟨negative,positive⟩ := magnitude_toNat displacement
  have size := target.toNat_lt
  unfold addRelative
  split
  · rename_i past
    rw [gt_iff_lt,UInt64.lt_iff_toNat_lt,toNat_maximum_sub] at past
    refine iff_of_false nofun ?_
    rintro ⟨sum,_⟩
    omega
  · rename_i fits
    obtain ⟨limit,sum⟩ := limit_toNat fits
    dsimp only
    split
    · rename_i below
      split
      · rename_i past
        rw [gt_iff_lt,UInt64.lt_iff_toNat_lt,negative,limit] at past
        refine iff_of_false nofun ?_
        rintro ⟨_,same⟩
        omega
      · rename_i room
        rw [gt_iff_lt,UInt64.not_lt] at room
        rw [Option.some.injEq,← UInt64.toNat_inj,UInt64.toNat_sub_of_le _ _ room,negative,limit]
        rw [UInt64.le_iff_toNat_le,negative,limit] at room
        omega
    · rename_i above
      have whole : displacement.toInt = displacement.toNat := by
        rw [BitVec.toInt_eq_toNat_cond] at above ⊢
        split at above <;> rename_i half
        · rw [if_pos half]
        · have high := displacement.isLt
          omega
      have top := UInt64.toNat_lt (instruction + length)
      split
      · rename_i past
        rw [gt_iff_lt,UInt64.lt_iff_toNat_lt,positive,toNat_maximum_sub,limit] at past
        refine iff_of_false nofun ?_
        rintro ⟨_,same⟩
        omega
      · rename_i room
        rw [gt_iff_lt,UInt64.lt_iff_toNat_lt,positive,toNat_maximum_sub,limit] at room
        rw [Option.some.injEq,← UInt64.toNat_inj,UInt64.toNat_add,limit,positive,Nat.mod_eq_of_lt (by omega)]
        omega

end Relative

end S2Script.SignatureScan
