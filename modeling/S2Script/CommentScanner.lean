import S2Script.Json

/-! Blanking the comments of a text, one code unit at a time: a text is cut into string literals, line
comments, block comments and other characters, and a scanner over any encoding of it blanks the comments
and nothing else. -/
namespace S2Script.Comments

/-- An encoding of characters that keeps ASCII apart from everything else. -/
structure Encoding (U : Type) where
  code : U → Nat
  units : Char → List U
  blank : U
  ascii : ∀ c, c.toNat < 128 → ∃ u, units c = [u] ∧ code u = c.toNat
  high : ∀ c, 128 ≤ c.toNat → units c ≠ [] ∧ ∀ u ∈ units c, 128 ≤ code u
  space : units ' ' = [blank]

inductive Mode where
  | code | string | line | block
  deriving DecidableEq

section Scanner

variable {U : Type} (e : Encoding U) (keeps : Nat → Bool)

/-- Units before what is scanned. -/
def put (units : List U) (scanned : List U × Bool) : List U × Bool := (units ++ scanned.1,scanned.2)

/-- The units with the comments blanked, and whether a block comment is open at the end. Of a block
comment the units stay that `keeps` keeps. -/
def scan : Mode → List U → List U × Bool
  | mode,[] => ([],mode = .block)
  | .string,u :: rest =>
    if e.code u = 0x5C then match rest with
      | [] => ([u],false)
      | v :: after => put [u,v] (scan .string after)
    else put [u] (scan (if e.code u = 0x22 then .code else .string) rest)
  | .code,u :: rest =>
    if e.code u = 0x22 then put [u] (scan .string rest)
    else match rest with
      | [] => ([u],false)
      | v :: after =>
        if e.code u = 0x2F ∧ e.code v = 0x2F then put [e.blank,e.blank] (scan .line after)
        else if e.code u = 0x2F ∧ e.code v = 0x2A then put [e.blank,e.blank] (scan .block after)
        else put [u] (scan .code (v :: after))
  | .line,u :: rest => if e.code u = 0x0A then put [u] (scan .code rest) else put [e.blank] (scan .line rest)
  | .block,u :: rest => match rest with
    | [] => ([if keeps (e.code u) then u else e.blank],true)
    | v :: after =>
      if e.code u = 0x2A ∧ e.code v = 0x2F then put [e.blank,e.blank] (scan .code after)
      else put [if keeps (e.code u) then u else e.blank] (scan .block (v :: after))

end Scanner

section Equations

-- derives the equations once, before the proofs that use them
attribute [local simp] scan

end Equations

section Pieces

inductive Piece where
  | code (c : Char)
  | literal (body : List Char) (closed : Bool)
  | line (body : List Char)
  | block (body : List Char) (closed : Bool)

namespace Piece

def text : Piece → List Char
  | .code c => [c]
  | .literal body closed => '\x22' :: body ++ if closed then ['\x22'] else []
  | .line body => '/' :: '/' :: body
  | .block body closed => '/' :: '*' :: body ++ if closed then ['*','/'] else []

/-- The inside of a string literal: escapes, and no quote but theirs. -/
def Inside (closed : Bool) : List Char → Prop
  | [] => True
  | [c] => c ≠ '\x22' ∧ (c = '\x5c' → closed = false)
  | c :: d :: rest => if c = '\x5c' then Inside closed rest else c ≠ '\x22' ∧ Inside closed (d :: rest)

/-- A comment starts here. -/
def Opens (c : Char) (rest : List Char) : Prop := c = '/' ∧ (rest.head? = some '/' ∨ rest.head? = some '*')

/-- The piece is as long as it has to be before what follows it. -/
def Fits (rest : List Char) : Piece → Prop
  | .code c => c ≠ '\x22' ∧ ¬Opens c rest
  | .literal body closed => Inside closed body ∧ (closed = false → rest = [])
  | .line body => '\n' ∉ body ∧ (rest = [] ∨ rest.head? = some '\n')
  | .block body closed => ¬['*','/'] <:+: body ∧ (closed = false → rest = [])

/-- A block comment that never ends. -/
def isOpenBlock : Piece → Bool
  | .block _ closed => !closed
  | _ => false

/-- Blanks as long as the character. -/
def blanks {U : Type} (e : Encoding U) (c : Char) : List Char := List.replicate (e.units c).length ' '

/-- The piece with its comment blanked, as far as the line breaks that `keeps` keeps. -/
def blanked {U : Type} (e : Encoding U) (keeps : Nat → Bool) : Piece → List Char
  | .code c => [c]
  | .literal body closed => text (.literal body closed)
  | .line body => ' ' :: ' ' :: body.flatMap (blanks e)
  | .block body closed =>
    ' ' :: ' ' :: (body.flatMap fun c => if keeps c.toNat then [c] else blanks e c) ++ if closed then [' ',' '] else []

end Piece

def textOf (pieces : List Piece) : List Char := pieces.flatMap Piece.text

/-- Each piece fits what follows it. -/
def Cuts : List Piece → Prop
  | [] => True
  | piece :: pieces => piece.Fits (textOf pieces) ∧ Cuts pieces

def blankedOf {U : Type} (e : Encoding U) (keeps : Nat → Bool) (pieces : List Piece) : List Char :=
  pieces.flatMap (Piece.blanked e keeps)

end Pieces

section Units

variable {U : Type} {e : Encoding U} {keeps : Nat → Bool}

@[simp] theorem put_put (first second : List U) (scanned : List U × Bool) :
    put first (put second scanned) = put (first ++ second) scanned := by
  simp [put]

/-- A character's own code is the code of its first unit, where one of the two is ASCII. -/
theorem head_code {c : Char} {more : List U} {v : U} (head : (e.units c ++ more).head? = some v) (low : e.code v < 128) :
    e.code v = c.toNat := by
  rcases Nat.lt_or_ge c.toNat 128 with small | large
  · obtain ⟨u,units,code⟩ := e.ascii c small
    rw [units] at head
    cases head
    exact code
  · obtain ⟨inhabited,high⟩ := e.high c large
    obtain ⟨u,us,units⟩ := List.exists_cons_of_ne_nil inhabited
    rw [units] at head
    cases head
    have above := high v (units ▸ List.mem_cons_self)
    omega

theorem head_text {text : List Char} {v : U} (head : (text.flatMap e.units).head? = some v) (d : Char) (low : d.toNat < 128)
    (code : e.code v = d.toNat) : text.head? = some d := by
  cases text with
  | nil => cases head
  | cons c text =>
    rw [List.flatMap_cons] at head
    have same := head_code head (by omega)
    rw [code] at same
    rw [List.head?_cons,Char.toNat_inj.mp same]

theorem scan_string_other {u : U} (noQuote : e.code u ≠ 0x22) (noEscape : e.code u ≠ 0x5C) (rest : List U) :
    scan e keeps .string (u :: rest) = put [u] (scan e keeps .string rest) := by
  cases rest <;> simp [scan,noEscape,noQuote]

theorem scan_code_other {u : U} (noQuote : e.code u ≠ 0x22) (rest : List U)
    (noComment : e.code u = 0x2F → ∀ v, rest.head? = some v → e.code v ≠ 0x2F ∧ e.code v ≠ 0x2A) :
    scan e keeps .code (u :: rest) = put [u] (scan e keeps .code rest) := by
  cases rest with
  | nil => simp [scan,noQuote,put]
  | cons v after =>
    have noLine : ¬(e.code u = 0x2F ∧ e.code v = 0x2F) := fun both => (noComment both.1 v rfl).1 both.2
    have noBlock : ¬(e.code u = 0x2F ∧ e.code v = 0x2A) := fun both => (noComment both.1 v rfl).2 both.2
    rw [scan,if_neg noQuote,if_neg noLine,if_neg noBlock]

theorem scan_block_other {u : U} (rest : List U) (noEnd : e.code u = 0x2A → ∀ v, rest.head? = some v → e.code v ≠ 0x2F) :
    scan e keeps .block (u :: rest) = put [if keeps (e.code u) then u else e.blank] (scan e keeps .block rest) := by
  cases rest with
  | nil => simp [scan,put]
  | cons v after =>
    rw [scan,if_neg fun both => noEnd both.1 v rfl both.2]

/-- What one mode does to each unit of a character outside ASCII. -/
theorem scan_high {mode : Mode} {change : U → U} {us : List U}
    (step : ∀ u ∈ us, ∀ rest, scan e keeps mode (u :: rest) = put [change u] (scan e keeps mode rest)) (rest : List U) :
    scan e keeps mode (us ++ rest) = put (us.map change) (scan e keeps mode rest) := by
  induction us with
  | nil => rfl
  | cons u us ih =>
    rw [List.cons_append,step u List.mem_cons_self,ih fun v member => step v (List.mem_cons_of_mem u member)]
    rfl

theorem units_blanks (c : Char) : (Piece.blanks e c).flatMap e.units = List.replicate (e.units c).length e.blank := by
  rw [Piece.blanks]
  induction (e.units c).length with
  | zero => rfl
  | succ n ih => rw [List.replicate_succ,List.flatMap_cons,ih,e.space,List.replicate_succ,List.singleton_append]

/-- The two kinds of characters, as their units show them. -/
theorem units_cases (e : Encoding U) (c : Char) :
    (∃ u, e.units c = [u] ∧ e.code u = c.toNat) ∨ (128 ≤ c.toNat ∧ ∀ u ∈ e.units c, 128 ≤ e.code u) := by
  rcases Nat.lt_or_ge c.toNat 128 with small | large
  · exact .inl (e.ascii c small)
  · exact .inr ⟨large,(e.high c large).2⟩

theorem toNat_ne {c d : Char} (other : c ≠ d) : c.toNat ≠ d.toNat := fun same => other (Char.toNat_inj.mp same)

end Units

section Characters

variable {U : Type} {e : Encoding U} {keeps : Nat → Bool}

theorem scan_string_char {c : Char} (noQuote : c ≠ '\x22') (noEscape : c ≠ '\x5c') (rest : List U) :
    scan e keeps .string (e.units c ++ rest) = put (e.units c) (scan e keeps .string rest) := by
  have step : ∀ u ∈ e.units c, ∀ rest, scan e keeps .string (u :: rest) = put [id u] (scan e keeps .string rest) := by
    intro u member rest
    rcases units_cases e c with ⟨v,units,code⟩ | ⟨_,high⟩
    · rw [units,List.mem_singleton] at member
      subst member
      exact scan_string_other (code ▸ toNat_ne noQuote) (code ▸ toNat_ne noEscape) rest
    · have above := high u member
      exact scan_string_other (by omega) (by omega) rest
  rw [scan_high step,List.map_id]

theorem scan_string_escape (d : Char) (rest : List U) :
    scan e keeps .string (e.units '\x5c' ++ (e.units d ++ rest)) = put (e.units '\x5c' ++ e.units d) (scan e keeps .string rest) := by
  obtain ⟨u,escape,code⟩ := e.ascii '\x5c' (by decide)
  have isEscape : e.code u = 0x5C := code
  rw [escape]
  rcases units_cases e d with ⟨v,units,_⟩ | ⟨large,high⟩
  · rw [units]
    simp [scan,isEscape]
  · obtain ⟨inhabited,_⟩ := e.high d large
    obtain ⟨v,vs,units⟩ := List.exists_cons_of_ne_nil inhabited
    rw [units] at high ⊢
    have step : ∀ u ∈ vs, ∀ rest, scan e keeps .string (u :: rest) = put [id u] (scan e keeps .string rest) := by
      intro u member rest
      have above := high u (List.mem_cons_of_mem v member)
      exact scan_string_other (by omega) (by omega) rest
    have others := scan_high step rest
    rw [List.map_id] at others
    simp [scan,isEscape,others]

theorem scan_string_dangling : scan e keeps .string (e.units '\x5c') = (e.units '\x5c',false) := by
  obtain ⟨u,escape,code⟩ := e.ascii '\x5c' (by decide)
  have isEscape : e.code u = 0x5C := code
  rw [escape]
  simp [scan,isEscape]

theorem scan_string_quote (rest : List U) :
    scan e keeps .string (e.units '\x22' ++ rest) = put (e.units '\x22') (scan e keeps .code rest) := by
  obtain ⟨u,quote,code⟩ := e.ascii '\x22' (by decide)
  have isQuote : e.code u = 0x22 := code
  rw [quote]
  cases rest <;> simp [scan,isQuote]

theorem scan_code_quote (rest : List U) :
    scan e keeps .code (e.units '\x22' ++ rest) = put (e.units '\x22') (scan e keeps .string rest) := by
  obtain ⟨u,quote,code⟩ := e.ascii '\x22' (by decide)
  have isQuote : e.code u = 0x22 := code
  rw [quote]
  cases rest <;> simp [scan,isQuote]

theorem scan_code_char {c : Char} {text : List Char} (noQuote : c ≠ '\x22') (noComment : ¬Piece.Opens c text) :
    scan e keeps .code (e.units c ++ text.flatMap e.units) = put (e.units c) (scan e keeps .code (text.flatMap e.units)) := by
  rcases units_cases e c with ⟨u,units,code⟩ | ⟨_,high⟩
  · rw [units]
    refine scan_code_other (code ▸ toNat_ne noQuote) _ fun slash v head => ?_
    have isSlash : c = '/' := Char.toNat_inj.mp (code.symm.trans slash)
    constructor
    · exact fun again => noComment ⟨isSlash,.inl (head_text head '/' (by decide) again)⟩
    · exact fun star => noComment ⟨isSlash,.inr (head_text head '*' (by decide) star)⟩
  · have step : ∀ u ∈ e.units c, ∀ rest, scan e keeps .code (u :: rest) = put [id u] (scan e keeps .code rest) := by
      intro u member rest
      have above := high u member
      exact scan_code_other (by omega) rest fun slash => absurd slash (by omega)
    rw [scan_high step,List.map_id]

theorem scan_code_line (rest : List U) :
    scan e keeps .code (e.units '/' ++ (e.units '/' ++ rest)) = put [e.blank,e.blank] (scan e keeps .line rest) := by
  obtain ⟨u,slash,code⟩ := e.ascii '/' (by decide)
  have isSlash : e.code u = 0x2F := code
  rw [slash]
  simp [scan,isSlash]

theorem scan_code_block (rest : List U) :
    scan e keeps .code (e.units '/' ++ (e.units '*' ++ rest)) = put [e.blank,e.blank] (scan e keeps .block rest) := by
  obtain ⟨u,slash,code⟩ := e.ascii '/' (by decide)
  obtain ⟨v,star,starCode⟩ := e.ascii '*' (by decide)
  have isSlash : e.code u = 0x2F := code
  have isStar : e.code v = 0x2A := starCode
  rw [slash,star]
  simp [scan,isSlash,isStar]

theorem scan_line_char {c : Char} (noBreak : c ≠ '\n') (rest : List U) :
    scan e keeps .line (e.units c ++ rest) = put ((Piece.blanks e c).flatMap e.units) (scan e keeps .line rest) := by
  have step : ∀ u ∈ e.units c, ∀ rest, scan e keeps .line (u :: rest) = put [(fun _ => e.blank) u] (scan e keeps .line rest) := by
    intro u member rest
    rw [scan]
    refine if_neg ?_
    rcases units_cases e c with ⟨v,units,code⟩ | ⟨_,high⟩
    · rw [units,List.mem_singleton] at member
      subst member
      exact code ▸ toNat_ne noBreak
    · have above := high u member
      omega
  rw [scan_high step,units_blanks,List.map_const']

theorem scan_line_break (rest : List U) :
    scan e keeps .line (e.units '\n' ++ rest) = put (e.units '\n') (scan e keeps .code rest) := by
  obtain ⟨u,newline,code⟩ := e.ascii '\n' (by decide)
  have isBreak : e.code u = 0x0A := code
  rw [newline]
  simp [scan,isBreak]

theorem scan_block_char (ascii : ∀ n, 128 ≤ n → keeps n = false) {c : Char} {text : List Char}
    (noEnd : ¬(c = '*' ∧ text.head? = some '/')) :
    scan e keeps .block (e.units c ++ text.flatMap e.units) =
      put ((if keeps c.toNat then [c] else Piece.blanks e c).flatMap e.units) (scan e keeps .block (text.flatMap e.units)) := by
  rcases units_cases e c with ⟨u,units,code⟩ | ⟨large,high⟩
  · have here : (if keeps c.toNat then [c] else Piece.blanks e c).flatMap e.units = [if keeps (e.code u) then u else e.blank] := by
      rw [code]
      split
      · rw [List.flatMap_singleton,units]
      · rw [units_blanks,units]
        rfl
    rw [here,units]
    refine scan_block_other _ fun star v head slash => noEnd ⟨?_,head_text head '/' (by decide) slash⟩
    exact Char.toNat_inj.mp (code.symm.trans star)
  · have step : ∀ u ∈ e.units c, ∀ rest, scan e keeps .block (u :: rest) = put [(fun _ => e.blank) u] (scan e keeps .block rest) := by
      intro u member rest
      have above := high u member
      rw [scan_block_other rest fun star => absurd star (by omega),ascii _ above]
      rfl
    rw [scan_high step,ascii _ large]
    simp only [Bool.false_eq_true,if_false]
    rw [units_blanks,List.map_const']

theorem scan_block_end (rest : List U) :
    scan e keeps .block (e.units '*' ++ (e.units '/' ++ rest)) = put [e.blank,e.blank] (scan e keeps .code rest) := by
  obtain ⟨u,star,code⟩ := e.ascii '*' (by decide)
  obtain ⟨v,slash,slashCode⟩ := e.ascii '/' (by decide)
  have isStar : e.code u = 0x2A := code
  have isSlash : e.code v = 0x2F := slashCode
  rw [star,slash]
  simp [scan,isStar,isSlash]

end Characters

section Cutting

variable {U : Type} {e : Encoding U} {keeps : Nat → Bool}

variable (keeps) in
theorem scan_inside {closed : Bool} {body : List Char} (inside : Piece.Inside closed body) (tail : List Char)
    (last : closed = false → tail = []) :
    scan e keeps .string (body.flatMap e.units ++ tail.flatMap e.units) =
      put (body.flatMap e.units) (scan e keeps .string (tail.flatMap e.units)) := by
  fun_induction Piece.Inside closed body with
  | case1 => rfl
  | case2 c =>
    rw [List.flatMap_singleton]
    by_cases escape : c = '\x5c'
    · subst escape
      rw [last (inside.2 rfl),List.flatMap_nil,List.append_nil,scan_string_dangling]
      simp [put,scan]
    · exact scan_string_char inside.1 escape _
  | case3 d rest ih =>
    simp only [List.flatMap_cons,List.append_assoc]
    rw [scan_string_escape,ih inside,put_put,List.append_assoc]
  | case4 c d rest other ih =>
    rw [List.flatMap_cons,List.append_assoc,scan_string_char inside.1 other,ih inside.2,put_put]

theorem scan_line {body : List Char} (noBreak : '\n' ∉ body) (rest : List U) :
    scan e keeps .line (body.flatMap e.units ++ rest) =
      put ((body.flatMap (Piece.blanks e)).flatMap e.units) (scan e keeps .line rest) := by
  induction body with
  | nil => rfl
  | cons c body ih =>
    rw [List.mem_cons,not_or] at noBreak
    rw [List.flatMap_cons,List.append_assoc,scan_line_char (Ne.symm noBreak.1),ih noBreak.2,put_put,List.flatMap_cons,List.flatMap_append]

/-- A line comment ends before its line break, which is scanned like any other character. -/
theorem scan_line_end {tail : List Char} (ends : tail = [] ∨ tail.head? = some '\n') :
    scan e keeps .line (tail.flatMap e.units) = scan e keeps .code (tail.flatMap e.units) := by
  rcases ends with rfl | head
  · simp [scan]
  · obtain ⟨rest,rfl⟩ := List.head?_eq_some_iff.mp head
    rw [List.flatMap_cons,scan_line_break]
    exact (scan_code_char (by decide) fun opens => absurd opens.1 (by decide)).symm

theorem scan_block (ascii : ∀ n, 128 ≤ n → keeps n = false) {body : List Char} (noEnd : ¬['*','/'] <:+: body) (tail : List Char)
    (after : tail.head? ≠ some '/') :
    scan e keeps .block (body.flatMap e.units ++ tail.flatMap e.units) =
      put ((body.flatMap fun c => if keeps c.toNat then [c] else Piece.blanks e c).flatMap e.units)
        (scan e keeps .block (tail.flatMap e.units)) := by
  induction body with
  | nil => rfl
  | cons c body ih =>
    have here : ¬(c = '*' ∧ (body ++ tail).head? = some '/') := by
      rintro ⟨rfl,head⟩
      cases body with
      | nil => exact after head
      | cons d body =>
        cases head
        exact noEnd (List.prefix_append ['*','/'] body).isInfix
    have later : ¬['*','/'] <:+: body := fun inside => noEnd (inside.trans (List.suffix_cons c body).isInfix)
    rw [List.flatMap_cons,List.append_assoc,← List.flatMap_append,scan_block_char ascii here,List.flatMap_append,ih later,put_put,
      List.flatMap_cons,List.flatMap_append]

theorem text_ne_nil (piece : Piece) : piece.text ≠ [] := by
  cases piece <;> exact List.cons_ne_nil _ _

theorem pieces_eq_nil {pieces : List Piece} (none : textOf pieces = []) : pieces = [] := by
  cases pieces with
  | nil => rfl
  | cons piece pieces => exact absurd (List.append_eq_nil_iff.mp none).1 (text_ne_nil piece)

/-- The scanner blanks the comments and leaves everything else, whatever the encoding. -/
theorem scan_pieces (ascii : ∀ n, 128 ≤ n → keeps n = false) {pieces : List Piece} (cuts : Cuts pieces) :
    scan e keeps .code ((textOf pieces).flatMap e.units) =
      ((blankedOf e keeps pieces).flatMap e.units,pieces.any Piece.isOpenBlock) := by
  induction pieces with
  | nil => simp [textOf,blankedOf,scan]
  | cons piece pieces ih =>
    obtain ⟨fits,later⟩ := cuts
    have rest := ih later
    have whole : textOf (piece :: pieces) = piece.text ++ textOf pieces := rfl
    have result : blankedOf e keeps (piece :: pieces) = piece.blanked e keeps ++ blankedOf e keeps pieces := rfl
    have blank : [' ',' '].flatMap e.units = [e.blank,e.blank] := by simp [e.space]
    rw [whole,result,List.flatMap_append,List.flatMap_append,List.any_cons]
    cases piece with
    | code c =>
      simp only [Piece.text,Piece.blanked,List.flatMap_singleton,Piece.isOpenBlock,Bool.false_or]
      rw [scan_code_char fits.1 fits.2,rest]
      rfl
    | literal body closed =>
      obtain ⟨inside,last⟩ := fits
      simp only [Piece.blanked,Piece.isOpenBlock,Bool.false_or]
      cases closed with
      | true =>
        have quoted := scan_inside (e := e) keeps inside ('\x22' :: textOf pieces) fun no => nomatch no
        simp only [Piece.text,List.flatMap_cons,List.flatMap_append,List.append_assoc,List.flatMap_nil,List.nil_append,if_true] at quoted ⊢
        rw [scan_code_quote,quoted,scan_string_quote,rest]
        simp [put]
      | false =>
        have none := pieces_eq_nil (last rfl)
        subst none
        have quoted := scan_inside (e := e) keeps inside [] fun _ => rfl
        simp only [textOf,blankedOf,Piece.text,List.flatMap_cons,List.append_nil,List.flatMap_nil,Bool.false_eq_true,if_false] at quoted ⊢
        rw [scan_code_quote,quoted]
        simp [put,scan]
    | line body =>
      simp only [Piece.text,Piece.blanked,Piece.isOpenBlock,Bool.false_or,List.flatMap_cons,List.append_assoc]
      rw [scan_code_line,scan_line fits.1,scan_line_end fits.2,rest]
      simp [put,e.space]
    | block body closed =>
      obtain ⟨noEnd,last⟩ := fits
      cases closed with
      | true =>
        have inner := scan_block (e := e) ascii noEnd ('*' :: '/' :: textOf pieces) (by simp)
        simp only [Piece.text,Piece.blanked,Piece.isOpenBlock,List.flatMap_cons,List.flatMap_append,List.append_assoc,List.flatMap_nil,
          List.nil_append,if_true,Bool.not_true,Bool.false_or] at inner ⊢
        rw [scan_code_block,inner,scan_block_end,rest]
        simp [put,e.space]
      | false =>
        have none := pieces_eq_nil (last rfl)
        subst none
        have inner := scan_block (e := e) ascii noEnd [] (by simp)
        simp only [textOf,blankedOf,Piece.text,Piece.blanked,Piece.isOpenBlock,List.flatMap_cons,List.append_nil,List.flatMap_nil,
          Bool.false_eq_true,if_false] at inner ⊢
        rw [scan_code_block,inner]
        simp [put,scan,e.space]

variable (keeps) in
/-- Line breaks that are kept stay where they are, and nothing else becomes one. -/
theorem scan_breaks (kept : keeps 0x0A = true) (blank : e.code e.blank ≠ 0x0A) (mode : Mode) (units : List U) :
    List.Forall₂ (fun u v => e.code u = 0x0A ↔ e.code v = 0x0A) units (scan e keeps mode units).1 := by
  have same : ∀ u, e.code u = 0x0A ↔ e.code u = 0x0A := fun _ => .rfl
  have hidden : ∀ {u n}, e.code u = n → n ≠ 0x0A → (e.code u = 0x0A ↔ e.code e.blank = 0x0A) := by
    rintro u n rfl other
    exact iff_of_false other blank
  have inBlock : ∀ u, e.code u = 0x0A ↔ e.code (if keeps (e.code u) then u else e.blank) = 0x0A := by
    intro u
    split
    · exact .rfl
    · next gone => exact iff_of_false (fun here => gone (here ▸ kept)) blank
  fun_induction scan e keeps mode units with
  | case1 => exact .nil
  | case2 => exact .cons (same _) .nil
  | case3 _ _ _ _ ih => exact .cons (same _) (.cons (same _) ih)
  | case4 _ _ _ ih => exact .cons (same _) ih
  | case5 _ _ _ ih => exact .cons (same _) ih
  | case6 => exact .cons (same _) .nil
  | case7 _ _ _ _ both ih => exact .cons (hidden both.1 (by decide)) (.cons (hidden both.2 (by decide)) ih)
  | case8 _ _ _ _ _ both ih => exact .cons (hidden both.1 (by decide)) (.cons (hidden both.2 (by decide)) ih)
  | case9 _ _ _ _ _ _ ih => exact .cons (same _) ih
  | case10 _ _ _ ih => exact .cons (same _) ih
  | case11 _ _ other ih => exact .cons (hidden rfl other) ih
  | case12 => exact .cons (inBlock _) .nil
  | case13 _ _ _ both ih => exact .cons (hidden both.1 (by decide)) (.cons (hidden both.2 (by decide)) ih)
  | case14 _ _ _ _ ih => exact .cons (inBlock _) ih

end Cutting

section Existence

theorem inside_cons {closed : Bool} {c : Char} {body : List Char} (noQuote : c ≠ '\x22') (noEscape : c ≠ '\x5c')
    (inside : Piece.Inside closed body) : Piece.Inside closed (c :: body) := by
  cases body with
  | nil => exact ⟨noQuote,fun escape => absurd escape noEscape⟩
  | cons d body =>
    rw [Piece.Inside,if_neg noEscape]
    exact ⟨noQuote,inside⟩

/-- What follows an opening quote, up to the closing one or to the end. -/
theorem exists_literal (text : List Char) : ∃ body closed after,
    text = body ++ (if closed then '\x22' :: after else []) ∧ (closed = false → after = []) ∧ Piece.Inside closed body := by
  induction size : text.length using Nat.strongRecOn generalizing text with
  | ind n ih =>
    cases text with
    | nil => exact ⟨[],false,[],rfl,fun _ => rfl,trivial⟩
    | cons c rest =>
      by_cases quote : c = '\x22'
      · exact ⟨[],true,rest,by simp [quote],fun no => (nomatch no),trivial⟩
      by_cases escape : c = '\x5c'
      · cases rest with
        | nil => exact ⟨[c],false,[],rfl,fun _ => rfl,quote,fun _ => rfl⟩
        | cons d rest =>
          obtain ⟨body,closed,after,same,last,inside⟩ := ih rest.length (by simp at size; omega) rest rfl
          refine ⟨c :: d :: body,closed,after,by rw [same]; rfl,last,?_⟩
          rw [Piece.Inside,if_pos escape]
          exact inside
      · obtain ⟨body,closed,after,same,last,inside⟩ := ih rest.length (by simp at size; omega) rest rfl
        exact ⟨c :: body,closed,after,by rw [same]; rfl,last,inside_cons quote escape inside⟩

/-- What follows the opening of a block comment, up to its first end or to the end of the text. -/
theorem exists_block (text : List Char) : ∃ body closed after,
    text = body ++ (if closed then '*' :: '/' :: after else []) ∧ (closed = false → after = []) ∧ ¬['*','/'] <:+: body := by
  induction text with
  | nil => exact ⟨[],false,[],rfl,fun _ => rfl,by simp⟩
  | cons c rest ih =>
    by_cases ends : c = '*' ∧ rest.head? = some '/'
    · obtain ⟨star,head⟩ := ends
      obtain ⟨after,rfl⟩ := List.head?_eq_some_iff.mp head
      exact ⟨[],true,after,by simp [star],fun no => (nomatch no),by simp⟩
    · obtain ⟨body,closed,after,same,last,noEnd⟩ := ih
      refine ⟨c :: body,closed,after,by rw [same]; rfl,last,fun inside => ?_⟩
      rcases List.infix_cons_iff.mp inside with start | later
      · obtain ⟨tail,whole⟩ := start
        cases whole
        exact ends ⟨rfl,by rw [same]; rfl⟩
      · exact noEnd later

/-- Every text can be cut. -/
theorem exists_cuts (text : List Char) : ∃ pieces, Cuts pieces ∧ textOf pieces = text := by
  induction size : text.length using Nat.strongRecOn generalizing text with
  | ind n ih =>
    -- the rest of the text is cut first, the piece before it put in front
    have extend : ∀ (piece : Piece) (rest : List Char), piece.Fits rest → text = piece.text ++ rest →
        ∃ pieces, Cuts pieces ∧ textOf pieces = text := by
      intro piece rest fits same
      have shorter : rest.length < n := by
        have positive := List.length_pos_iff.mpr (text_ne_nil piece)
        rw [same,List.length_append] at size
        omega
      obtain ⟨pieces,cuts,whole⟩ := ih rest.length shorter rest rfl
      exact ⟨piece :: pieces,⟨whole ▸ fits,cuts⟩,by rw [same,← whole]; rfl⟩
    cases text with
    | nil => exact ⟨[],trivial,rfl⟩
    | cons c rest =>
      by_cases quote : c = '\x22'
      · obtain ⟨body,closed,after,same,last,inside⟩ := exists_literal rest
        refine extend (.literal body closed) after ⟨inside,last⟩ ?_
        cases closed with
        | true => simp [Piece.text,quote,same]
        | false => simp [Piece.text,quote,same,last rfl]
      by_cases opens : Piece.Opens c rest
      · obtain ⟨slash,line | block⟩ := opens
        · obtain ⟨tail,rfl⟩ := List.head?_eq_some_iff.mp line
          refine extend (.line (tail.takeWhile (· ≠ '\n'))) (tail.dropWhile (· ≠ '\n')) ⟨?_,?_⟩ ?_
          · intro member
            exact absurd (List.mem_takeWhile_imp member) (by simp)
          · cases left : tail.dropWhile (· ≠ '\n') with
            | nil => exact .inl rfl
            | cons d others =>
              have stop := List.head?_dropWhile_not (· ≠ '\n') tail
              rw [left] at stop
              exact .inr (by simpa using stop)
          · simp [Piece.text,slash]
        · obtain ⟨tail,rfl⟩ := List.head?_eq_some_iff.mp block
          obtain ⟨body,closed,after,same,last,noEnd⟩ := exists_block tail
          refine extend (.block body closed) after ⟨noEnd,last⟩ ?_
          cases closed with
          | true => simp [Piece.text,slash,same]
          | false => simp [Piece.text,slash,same,last rfl]
      · exact extend (.code c) rest ⟨quote,opens⟩ rfl

end Existence

section Spaces

/-- The text without the white space outside its string literals. -/
def dropSpaces (quoted : Bool) : List Char → List Char
  | [] => []
  | c :: rest =>
    if quoted then
      if c = '\x5c' then match rest with
        | [] => [c]
        | d :: after => c :: d :: dropSpaces true after
      else c :: dropSpaces (c ≠ '\x22') rest
    else if Json.isSpace c then dropSpaces false rest
    else c :: dropSpaces (c = '\x22') rest

theorem dropSpaces_cons (c : Char) (rest : List Char) :
    dropSpaces false (c :: rest) = if Json.isSpace c then dropSpaces false rest else c :: dropSpaces (c = '\x22') rest := by
  rw [dropSpaces.eq_def]
  simp

theorem dropSpaces_quoted {c : Char} (noEscape : c ≠ '\x5c') (rest : List Char) :
    dropSpaces true (c :: rest) = c :: dropSpaces (c ≠ '\x22') rest := by
  rw [dropSpaces.eq_def]
  simp [noEscape]

theorem dropSpaces_inside {closed : Bool} {body : List Char} (inside : Piece.Inside closed body) (tail : List Char)
    (last : closed = false → tail = []) : dropSpaces true (body ++ tail) = body ++ dropSpaces true tail := by
  fun_induction Piece.Inside closed body with
  | case1 => rfl
  | case2 c =>
    by_cases escape : c = '\x5c'
    · rw [last (inside.2 escape)]
      simp [dropSpaces,escape]
    · rw [List.singleton_append,dropSpaces_quoted escape]
      simp [inside.1]
  | case3 d rest ih =>
    rw [List.cons_append,List.cons_append,dropSpaces]
    simp [ih inside]
  | case4 c d rest other ih =>
    rw [List.cons_append,dropSpaces_quoted other,decide_eq_true inside.1,ih inside.2]
    rfl

theorem dropSpaces_blank {blank tail : List Char} (spaces : ∀ c ∈ blank, Json.isSpace c = true) :
    dropSpaces false (blank ++ tail) = dropSpaces false tail := by
  induction blank with
  | nil => rfl
  | cons c blank ih =>
    rw [List.cons_append,dropSpaces_cons,if_pos (spaces c List.mem_cons_self)]
    exact ih fun d member => spaces d (List.mem_cons_of_mem c member)

/-- What is left of a piece. -/
def Piece.squeezed : Piece → List Char
  | .code c => if Json.isSpace c then [] else [c]
  | .literal body closed => Piece.text (.literal body closed)
  | _ => []

theorem blanks_space {U : Type} (e : Encoding U) (c : Char) : ∀ d ∈ Piece.blanks e c, Json.isSpace d = true := by
  intro d member
  rw [List.eq_of_mem_replicate member]
  rfl

/-- The comments are gone whatever was kept of them. -/
theorem dropSpaces_blanked {U : Type} {e : Encoding U} {keeps : Nat → Bool} (breaks : ∀ c : Char, keeps c.toNat = true → Json.isSpace c = true)
    {pieces : List Piece} (cuts : Cuts pieces) : dropSpaces false (blankedOf e keeps pieces) = pieces.flatMap Piece.squeezed := by
  induction pieces with
  | nil => rfl
  | cons piece pieces ih =>
    obtain ⟨fits,later⟩ := cuts
    have rest := ih later
    have result : blankedOf e keeps (piece :: pieces) = piece.blanked e keeps ++ blankedOf e keeps pieces := rfl
    rw [result,List.flatMap_cons,← rest]
    cases piece with
    | code c =>
      simp only [Piece.blanked,Piece.squeezed,List.singleton_append]
      rw [dropSpaces_cons,decide_eq_false fits.1]
      split <;> rfl
    | literal body closed =>
      obtain ⟨inside,last⟩ := fits
      have opens : ∀ tail, dropSpaces false ('\x22' :: tail) = '\x22' :: dropSpaces true tail := by
        intro tail
        rw [dropSpaces_cons]
        rfl
      cases closed with
      | true =>
        have quoted := dropSpaces_inside inside ('\x22' :: blankedOf e keeps pieces) fun no => nomatch no
        simp only [Piece.blanked,Piece.squeezed,Piece.text,List.cons_append,List.append_assoc,if_true,List.nil_append]
        rw [opens,quoted,dropSpaces_quoted (by decide)]
        rfl
      | false =>
        have none := pieces_eq_nil (last rfl)
        subst none
        have quoted := dropSpaces_inside inside [] fun _ => rfl
        simp only [Piece.blanked,Piece.squeezed,Piece.text,blankedOf,List.flatMap_nil,List.append_nil,Bool.false_eq_true,if_false] at quoted ⊢
        rw [opens,quoted]
        simp [dropSpaces]
    | line body =>
      refine dropSpaces_blank fun c member => ?_
      rcases List.mem_cons.mp member with rfl | member
      · rfl
      rcases List.mem_cons.mp member with rfl | member
      · rfl
      obtain ⟨d,_,blank⟩ := List.mem_flatMap.mp member
      exact blanks_space e d c blank
    | block body closed =>
      refine dropSpaces_blank fun c member => ?_
      simp only [Piece.blanked,List.cons_append,List.mem_cons,List.mem_append,List.mem_flatMap] at member
      rcases member with rfl | rfl | ⟨d,_,blank⟩ | last
      · rfl
      · rfl
      · split at blank
        · next kept =>
          rw [List.mem_singleton] at blank
          exact blank ▸ breaks d kept
        · exact blanks_space e d c blank
      · cases closed with
        | true =>
          simp at last
          rw [last]
          rfl
        | false => simp at last

end Spaces

end S2Script.Comments
