import S2Script.CommentScanner
import S2Script.ConfigEntries

/-! The generated default file without its comments: a JSON object with blanks between its tokens,
read back as the declared defaults. -/
namespace S2Script.Config

open Interop Comments

section Tokens

/-- JSON tokens on one line: closed string literals, and outside them no quote and no slash. -/
inductive Tokens : Text → Prop
  | nil : Tokens []
  | solid {c : Char} {rest : Text} (noQuote : c ≠ '\x22') (noSlash : c ≠ '/') (noFeed : c ≠ '\n') (noReturn : c ≠ '\r')
      (later : Tokens rest) : Tokens (c :: rest)
  | literal {body rest : Text} (inside : Piece.Inside true body) (unbroken : ∀ c ∈ body, c ≠ '\n' ∧ c ≠ '\r')
      (later : Tokens rest) : Tokens ('\x22' :: (body ++ '\x22' :: rest))

theorem Tokens.append {first second : Text} (one : Tokens first) (two : Tokens second) : Tokens (first ++ second) := by
  induction one with
  | nil => exact two
  | solid noQuote noSlash noFeed noReturn _ ih => exact .solid noQuote noSlash noFeed noReturn ih
  | literal inside unbroken _ ih =>
    rw [List.cons_append,List.append_assoc]
    exact .literal inside unbroken ih

theorem Tokens.unbroken {text : Text} (tokens : Tokens text) : ∀ c ∈ text, c ≠ '\n' ∧ c ≠ '\r' := by
  induction tokens with
  | nil => simp
  | solid _ _ noFeed noReturn _ ih =>
    intro c member
    rcases List.mem_cons.mp member with rfl | member
    · exact ⟨noFeed,noReturn⟩
    · exact ih c member
  | literal _ unbroken _ ih =>
    intro c member
    simp only [List.mem_cons,List.mem_append] at member
    rcases member with rfl | member | rfl | member
    · decide
    · exact unbroken c member
    · decide
    · exact ih c member

theorem tokens_pad (indent : Nat) : Tokens (pad indent) := by
  have blanks : ∀ n, Tokens (List.replicate n ' ') := by
    intro n
    induction n with
    | zero => exact .nil
    | succ n ih => exact .solid (by decide) (by decide) (by decide) (by decide) ih
  exact blanks (2 * indent)

theorem stripLine_inside {body : Text} (inside : Piece.Inside true body) (rest : Text) :
    stripLine true false (body ++ '\x22' :: rest) = body ++ '\x22' :: stripLine false false rest := by
  fun_induction Piece.Inside true body with
  | case1 => simp [stripLine]
  | case2 c =>
    have escape : c ≠ '\x5c' := fun same => by cases inside.2 same
    simp [stripLine,inside.1,escape]
  | case3 d tail ih => simp [stripLine,ih inside]
  | case4 c d tail other ih =>
    rw [List.cons_append,stripLine]
    simp only [if_true,Bool.false_eq_true,if_false,if_neg other,if_neg inside.1]
    rw [ih inside.2]
    rfl

/-- The stripper leaves tokens alone. -/
theorem stripLine_tokens {text : Text} (tokens : Tokens text) (rest : Text) :
    stripLine false false (text ++ rest) = text ++ stripLine false false rest := by
  induction tokens with
  | nil => rfl
  | solid noQuote noSlash _ _ _ ih =>
    rw [List.cons_append,stripLine]
    simp only [Bool.false_eq_true,if_false,if_neg noQuote,noSlash,false_and]
    rw [ih,List.cons_append]
  | literal inside _ _ ih =>
    rw [List.cons_append,List.append_assoc,List.cons_append,stripLine]
    simp only [Bool.false_eq_true,if_false,if_true]
    rw [stripLine_inside inside,ih,List.cons_append,List.append_assoc,List.cons_append]

end Tokens

section Lines

/-- Without a line feed or a carriage return. -/
def Unbroken (text : Text) : Prop := ∀ c ∈ text, c ≠ '\n' ∧ c ≠ '\r'

theorem lines_cons {c : Char} {rest line : Text} {others : List Text} (noFeed : c ≠ '\n')
    (noReturn : c = '\r' → rest.head? ≠ some '\n') (read : lines rest = line :: others) :
    lines (c :: rest) = (c :: line) :: others := by
  rw [lines.eq_def]
  split
  · next same => cases same
  · next same => exact absurd (List.cons.inj same).1 noFeed
  · next same =>
    obtain ⟨rfl,rfl⟩ := List.cons.inj same
    exact absurd rfl (noReturn rfl)
  · next same =>
    obtain ⟨rfl,rfl⟩ := List.cons.inj same
    rw [read]

/-- A line feed ends the lines before it. -/
def Ends (text line : Text) (others : List Text) : Prop :=
  ∀ rest, lines (text ++ '\n' :: rest) = line :: (others ++ lines rest)

theorem Ends.cons {c : Char} {text line : Text} {others : List Text} (ends : Ends text line others) (noFeed : c ≠ '\n')
    (noReturn : ∀ rest, c = '\r' → text = '\n' :: rest → False) : ∃ line others, Ends (c :: text) line others := by
  cases text with
  | nil =>
    by_cases carriage : c = '\r'
    · subst carriage
      exact ⟨[],[],fun rest => by rw [List.singleton_append,lines,List.nil_append]⟩
    · exact ⟨_,_,fun rest => lines_cons noFeed (fun same => absurd same carriage) (ends rest)⟩
  | cons d text =>
    refine ⟨_,_,fun rest => lines_cons noFeed (fun same head => ?_) (ends rest)⟩
    obtain rfl : d = '\n' := Option.some.inj head
    exact noReturn text same rfl

theorem ends_exists (text : Text) : ∃ line others, Ends text line others := by
  induction text using lines.induct with
  | case1 => exact ⟨[],[],fun rest => by rw [List.nil_append,lines,List.nil_append]⟩
  | case2 rest ih =>
    obtain ⟨line,others,ends⟩ := ih
    exact ⟨[],line :: others,fun next => by rw [List.cons_append,lines,ends,List.cons_append]⟩
  | case3 rest ih =>
    obtain ⟨line,others,ends⟩ := ih
    exact ⟨[],line :: others,fun next => by rw [List.cons_append,List.cons_append,lines,ends,List.cons_append]⟩
  | case4 c rest noFeed noReturn _ ih | case5 c rest noFeed noReturn _ _ _ ih =>
    obtain ⟨line,others,ends⟩ := ih
    exact ends.cons noFeed noReturn

/-- A prefix without line breaks belongs to the first line. -/
theorem Ends.append {start text line : Text} {others : List Text} (unbroken : Unbroken start) (ends : Ends text line others) :
    Ends (start ++ text) (start ++ line) others := by
  induction start with
  | nil => exact ends
  | cons c start ih =>
    obtain ⟨noFeed,noReturn⟩ := unbroken c List.mem_cons_self
    have later := ih fun d member => unbroken d (List.mem_cons_of_mem c member)
    exact fun rest => lines_cons noFeed (fun same => absurd same noReturn) (later rest)

theorem ends_nil : Ends [] [] [] := fun rest => by rw [List.nil_append,lines,List.nil_append]

/-- The stripped lines of a text, each with its line feed. -/
def stripped (text : Text) : Text := ((lines text).map (stripLine false false)).flatMap (· ++ ['\n'])

/-- Whole lines. -/
inductive Whole : Text → Prop
  | nil : Whole []
  | feed (text : Text) {rest : Text} (later : Whole rest) : Whole (text ++ '\n' :: rest)

theorem Whole.append {first second : Text} (one : Whole first) (two : Whole second) : Whole (first ++ second) := by
  induction one with
  | nil => exact two
  | feed text _ ih =>
    rw [List.append_assoc,List.cons_append]
    exact .feed text ih

theorem whole_line (text : Text) : Whole (text ++ ['\n']) := .feed text .nil

theorem lines_append {first : Text} (whole : Whole first) (second : Text) : lines (first ++ second) = lines first ++ lines second := by
  induction whole with
  | nil => rfl
  | feed text _ ih =>
    obtain ⟨line,others,ends⟩ := ends_exists text
    rw [List.append_assoc,List.cons_append,ends,ends,ih,List.cons_append,List.append_assoc]

theorem stripped_append {first : Text} (whole : Whole first) (second : Text) : stripped (first ++ second) = stripped first ++ stripped second := by
  rw [stripped,lines_append whole,List.map_append,List.flatMap_append]
  rfl

theorem stripped_line {text line : Text} {others : List Text} (ends : Ends text line others) :
    stripped (text ++ ['\n']) = stripLine false false line ++ '\n' :: (others.map (stripLine false false)).flatMap (· ++ ['\n']) := by
  rw [stripped,ends []]
  simp [lines]

/-- A line of tokens is kept. -/
theorem stripped_tokens {text : Text} (tokens : Tokens text) : stripped (text ++ ['\n']) = text ++ ['\n'] := by
  have ends : Ends text text [] := by
    have alone := ends_nil.append tokens.unbroken
    rwa [List.append_nil] at alone
  have kept := stripLine_tokens tokens []
  rw [stripped_line ends]
  rw [List.append_nil] at kept
  rw [kept]
  simp [stripLine]

theorem join_map (others : List Text) (last : Text) : join (others ++ [last]) = others.flatMap (· ++ ['\n']) ++ last := by
  induction others with
  | nil => rfl
  | cons line others ih =>
    rw [List.cons_append,List.flatMap_cons,List.append_assoc,List.append_assoc,← ih]
    cases others <;> rfl

/-- Stripping a text of whole lines and a last one. -/
theorem stripLineComments_whole {text : Text} (whole : Whole text) {last : Text} (tokens : Tokens last) :
    stripLineComments (text ++ (last ++ ['\n'])) = stripped text ++ last := by
  have alone : lines (last ++ ['\n']) = [last] := by
    have ends := ends_nil.append tokens.unbroken []
    simpa [lines] using ends
  have kept : stripLine false false last = last := by
    have same := stripLine_tokens tokens []
    simpa [stripLine] using same
  rw [stripLineComments,lines_append whole,alone,List.map_append,List.map_singleton,kept,join_map]
  rfl

end Lines

section Remarks

/-- Only blanks are left of the lines of the comment behind its first. -/
def NeutralComment (text : Text) : Prop :=
  ∀ line ∈ (lines (text ++ ['\n'])).tail, ∀ c ∈ stripLine false false line, Json.isSpace c = true

def Neutral {F : Type} (decl : ConfigDecl F) : Prop := NeutralComment (comment decl)

def Blank (text : Text) : Prop := ∀ c ∈ text, Json.isSpace c = true

theorem blank_pad (indent : Nat) : Blank (pad indent) := by
  intro c member
  rw [List.eq_of_mem_replicate member]
  rfl

theorem Blank.append {first second : Text} (one : Blank first) (two : Blank second) : Blank (first ++ second) := by
  intro c member
  rcases List.mem_append.mp member with member | member
  · exact one c member
  · exact two c member

theorem blank_feed : Blank ['\n'] := by
  intro c member
  rw [List.mem_singleton.mp member]
  rfl

theorem blank_lines {texts : List Text} (blank : ∀ text ∈ texts, Blank text) : Blank (texts.flatMap (· ++ ['\n'])) := by
  intro c member
  obtain ⟨text,inside,here⟩ := List.mem_flatMap.mp member
  exact (blank text inside).append blank_feed c here

/-- Blanks are left of a comment whose further lines are neutral. -/
theorem blank_comment {F : Type} {decl : ConfigDecl F} (neutral : Neutral decl) (indent : Nat) :
    Blank (stripped (pad indent ++ comment decl ++ ['\n'])) := by
  obtain ⟨line,others,ends⟩ := ends_exists (comment decl)
  obtain ⟨text,starts⟩ : ∃ text, comment decl = ['/','/'] ++ text := ⟨_,rfl⟩
  obtain ⟨short,more,after⟩ := ends_exists text
  have opens : Unbroken ['/','/'] := by
    intro c member
    simp only [List.mem_cons,List.not_mem_nil,or_false,or_self] at member
    rw [member]
    decide
  have first := after.append opens
  rw [← starts] at first
  have whole := first.append (tokens_pad indent).unbroken
  have cut := stripLine_tokens (tokens_pad indent) (['/','/'] ++ short)
  rw [stripped_line whole,cut]
  have rest : ∀ line ∈ more.map (stripLine false false), Blank line := by
    intro line member
    obtain ⟨raw,inside,rfl⟩ := List.mem_map.mp member
    apply neutral
    rw [first [],List.tail_cons]
    exact List.mem_append_left _ inside
  have gone : stripLine false false (['/','/'] ++ short) = [] := by
    simp [stripLine]
  rw [gone,List.append_nil]
  exact (blank_pad indent).append (blank_feed.append (blank_lines rest))

end Remarks

section Spacing

variable {F : Type} (json : SerdeJson F)

mutual

/-- A text of the value with blanks between the tokens of its objects. -/
inductive Spaced : Value F → Text → Prop
  | compact (value : Value F) : Spaced value (json.toText value)
  | object {members : List (String × Value F)} {text : Text} (inside : SpacedMembers members text) :
      Spaced (.object members) ('\x7b' :: (text ++ ['\x7d']))

inductive SpacedMembers : List (String × Value F) → Text → Prop
  | none {blank : Text} (blanks : Blank blank) : SpacedMembers [] blank
  | last {key : String} {value : Value F} {before between text after : Text} (first : Blank before) (second : Blank between)
      (here : Spaced value text) (third : Blank after) :
      SpacedMembers [(key,value)] (before ++ (json.toText (.string key) ++ ':' :: (between ++ (text ++ after))))
  | more {key : String} {value : Value F} {before between text rest : Text} {member : String × Value F}
      {members : List (String × Value F)} (first : Blank before) (second : Blank between) (here : Spaced value text)
      (later : SpacedMembers (member :: members) rest) :
      SpacedMembers ((key,value) :: member :: members)
        (before ++ (json.toText (.string key) ++ ':' :: (between ++ (text ++ ',' :: rest))))

end

/-- What is relied on of the JSON library: its texts are tokens on one line, and blanks between tokens mean nothing. -/
structure SerdeJson.Laws : Prop where
  tokens : ∀ value, Tokens (json.toText value)
  spaces : ∀ value text, Spaced json value text → json.fromText text = json.fromText (json.toText value)

mutual

/-- The value of an entry with every declaration at its default. -/
def defaultOf : ConfigEntry F → Value F
  | .decl decl => decl.default
  | .sect children => .object (defaultsOf children)

def defaultsOf : List (String × ConfigEntry F) → List (String × Value F)
  | [] => []
  | (key,entry) :: rest => (key,defaultOf entry) :: defaultsOf rest

end

mutual

/-- Every declaration has the property. -/
def KeptDecls (p : ConfigDecl F → Prop) : ConfigEntry F → Prop
  | .decl decl => p decl
  | .sect children => KeptEntries p children

def KeptEntries (p : ConfigDecl F → Prop) : List (String × ConfigEntry F) → Prop
  | [] => True
  | (_,entry) :: rest => KeptDecls p entry ∧ KeptEntries p rest

end

variable {json}

theorem whole_entry (indent : Nat) (key : String) (comma : Text) (entry : ConfigEntry F)
    (inside : ∀ children, entry = .sect children → Whole (genEntries json (indent + 1) children)) :
    Whole (genEntry json indent key comma entry) := by
  cases entry with
  | decl decl =>
    rw [genEntry]
    exact (whole_line _).append (whole_line _)
  | sect children =>
    have opened := whole_line (pad indent ++ json.toText (.string key) ++ [':',' ','\x7b'])
    have closed := whole_line (pad indent ++ ['\x7d'] ++ comma)
    have whole := opened.append ((inside children rfl).append closed)
    rw [genEntry]
    simpa using whole

mutual

theorem whole_genEntry (indent : Nat) (key : String) (comma : Text) : (entry : ConfigEntry F) → Whole (genEntry json indent key comma entry)
  | .decl decl => whole_entry indent key comma (.decl decl) fun _ other => nomatch other
  | .sect children => whole_entry indent key comma (.sect children) fun _ same => by
    cases same
    exact whole_genEntries (indent + 1) children

theorem whole_genEntries (indent : Nat) : (entries : List (String × ConfigEntry F)) → Whole (genEntries json indent entries)
  | [] => by
    rw [genEntries]
    exact .nil
  | (key,entry) :: rest => by
    rw [genEntries]
    exact (whole_genEntry indent key _ entry).append (whole_genEntries indent rest)

end

/-- A stripped entry: blanks, its key, and a text of its default. -/
def EntryText (json : SerdeJson F) (key : String) (comma : Text) (entry : ConfigEntry F) (written : Text) : Prop :=
  ∃ before text, Blank before ∧ Spaced json (defaultOf entry) text ∧
    written = before ++ (json.toText (.string key) ++ ':' :: ([' '] ++ (text ++ (comma ++ ['\n']))))

theorem blank_space : Blank [' '] := by
  intro c member
  rw [List.mem_singleton.mp member]
  rfl

theorem tokens_comma {comma : Text} (isComma : comma = [] ∨ comma = [',']) : Tokens comma := by
  rcases isComma with rfl | rfl
  · exact .nil
  · exact .solid (by decide) (by decide) (by decide) (by decide) .nil

theorem tokens_brace : Tokens ['\x7d'] := .solid (by decide) (by decide) (by decide) (by decide) .nil

theorem tokens_colon {text : Text} (tokens : Tokens text) : Tokens ([':',' '] ++ text) :=
  .solid (by decide) (by decide) (by decide) (by decide) (.solid (by decide) (by decide) (by decide) (by decide) tokens)

theorem decl_text (laws : json.Laws) {decl : ConfigDecl F} (neutral : Neutral decl) (indent : Nat) (key : String) {comma : Text}
    (isComma : comma = [] ∨ comma = [',']) : EntryText json key comma (.decl decl) (stripped (genEntry json indent key comma (.decl decl))) := by
  have line : Tokens (pad indent ++ (json.toText (.string key) ++ ([':',' '] ++ (json.toText decl.default ++ comma)))) :=
    (tokens_pad indent).append ((laws.tokens _).append (tokens_colon ((laws.tokens _).append (tokens_comma isComma))))
  have kept := stripped_tokens line
  refine ⟨stripped (pad indent ++ comment decl ++ ['\n']) ++ pad indent,json.toText decl.default,?_,.compact decl.default,?_⟩
  · exact (blank_comment neutral indent).append (blank_pad indent)
  · simp only [List.append_assoc] at kept
    rw [genEntry,stripped_append (whole_line _)]
    simp only [List.append_assoc,kept]
    rfl

theorem sect_text (laws : json.Laws) {children : List (String × ConfigEntry F)} (indent : Nat) (key : String) {comma : Text}
    (isComma : comma = [] ∨ comma = [','])
    (inside : SpacedMembers json (defaultsOf children) (['\n'] ++ (stripped (genEntries json (indent + 1) children) ++ pad indent))) :
    EntryText json key comma (.sect children) (stripped (genEntry json indent key comma (.sect children))) := by
  have opens : Tokens (pad indent ++ (json.toText (.string key) ++ ([':',' '] ++ ['\x7b']))) :=
    (tokens_pad indent).append ((laws.tokens _).append
      (tokens_colon (.solid (by decide) (by decide) (by decide) (by decide) .nil)))
  have closes : Tokens (pad indent ++ (['\x7d'] ++ comma)) := (tokens_pad indent).append (tokens_brace.append (tokens_comma isComma))
  have first := stripped_tokens opens
  have last := stripped_tokens closes
  have cut : genEntry json indent key comma (.sect children) =
      (pad indent ++ (json.toText (.string key) ++ ([':',' '] ++ ['\x7b'])) ++ ['\n']) ++
        (genEntries json (indent + 1) children ++ (pad indent ++ (['\x7d'] ++ comma) ++ ['\n'])) := by
    rw [genEntry]
    simp
  refine ⟨pad indent,_,blank_pad indent,.object inside,?_⟩
  rw [cut,stripped_append (whole_line _),stripped_append (whole_genEntries _ _),first,last]
  simp

theorem entries_last {key : String} {entry : ConfigEntry F} {indent : Nat}
    (here : EntryText json key [] entry (stripped (genEntry json indent key [] entry))) {before after : Text} (first : Blank before)
    (last : Blank after) : SpacedMembers json [(key,defaultOf entry)] (before ++ (stripped (genEntry json indent key [] entry) ++ after)) := by
  obtain ⟨lead,text,blank,spaced,written⟩ := here
  have made := @SpacedMembers.last _ _ key _ _ _ _ _ (first.append blank) blank_space spaced (blank_feed.append last)
  rw [written]
  simpa using made

theorem entries_more {key : String} {entry : ConfigEntry F} {member : String × Value F} {members : List (String × Value F)} {indent : Nat}
    (here : EntryText json key [','] entry (stripped (genEntry json indent key [','] entry))) {before rest : Text} (first : Blank before)
    (later : SpacedMembers json (member :: members) (['\n'] ++ rest)) :
    SpacedMembers json ((key,defaultOf entry) :: member :: members) (before ++ (stripped (genEntry json indent key [','] entry) ++ rest)) := by
  obtain ⟨lead,text,blank,spaced,written⟩ := here
  have made := @SpacedMembers.more _ _ key _ _ _ _ _ _ _ (first.append blank) blank_space spaced later
  rw [written]
  simpa using made

mutual

theorem entry_text (laws : json.Laws) (indent : Nat) (key : String) {comma : Text} (isComma : comma = [] ∨ comma = [',']) :
    (entry : ConfigEntry F) → KeptDecls Neutral entry → EntryText json key comma entry (stripped (genEntry json indent key comma entry))
  | .decl _,neutral => decl_text laws neutral indent key isComma
  | .sect children,neutral => sect_text laws indent key isComma (entries_text laws (indent + 1) blank_feed (blank_pad indent) children neutral)

theorem entries_text (laws : json.Laws) (indent : Nat) {before after : Text} (first : Blank before) (last : Blank after) :
    (entries : List (String × ConfigEntry F)) → KeptEntries Neutral entries →
      SpacedMembers json (defaultsOf entries) (before ++ (stripped (genEntries json indent entries) ++ after))
  | [],_ => by
    rw [genEntries,defaultsOf]
    exact .none (first.append last)
  | [(key,entry)],neutral => by
    have here := entry_text laws indent key (.inl rfl) entry neutral.1
    have made := entries_last here first last
    simpa [genEntries,defaultsOf] using made
  | (key,entry) :: (other,next) :: rest,neutral => by
    have here := entry_text laws indent key (.inr rfl) entry neutral.1
    have later := entries_text laws indent blank_feed last ((other,next) :: rest) neutral.2
    rw [genEntries,List.isEmpty_cons,stripped_append (whole_genEntry _ _ _ _),List.append_assoc,defaultsOf]
    exact entries_more here first later

end

/-- Without its comments the generated file is a text of the defaults, every level in key order. -/
theorem file_text (laws : json.Laws) {entries : List (String × ConfigEntry F)} (neutral : KeptEntries Neutral (orderedEntries entries)) :
    Spaced json (.object (defaultsOf (orderedEntries entries))) (stripLineComments (generateDefaultJsonc json entries)) := by
  have opens : Tokens ['\x7b'] := .solid (by decide) (by decide) (by decide) (by decide) .nil
  have cut : generateDefaultJsonc json entries =
      ((['\x7b'] ++ ['\n']) ++ genEntries json 1 (orderedEntries entries)) ++ (['\x7d'] ++ ['\n']) := by
    simp [generateDefaultJsonc]
  have inside := entries_text laws 1 blank_feed (by simp [Blank] : Blank []) (orderedEntries entries) neutral
  have made := Spaced.object inside
  rw [cut,stripLineComments_whole ((whole_line _).append (whole_genEntries _ _)) tokens_brace,stripped_append (whole_line _),stripped_tokens opens]
  simpa using made

end Spacing

section Order

variable {F : Type} {p : ConfigDecl F → Prop}

mutual

/-- Every declaration that is not under a dotted key has the property. -/
def DeclaredEntry (p : ConfigDecl F → Prop) : ConfigEntry F → Prop
  | .decl decl => p decl
  | .sect children => Declared p children

def Declared (p : ConfigDecl F → Prop) : List (String × ConfigEntry F) → Prop
  | [] => True
  | (key,entry) :: rest => (dotted key = false → DeclaredEntry p entry) ∧ Declared p rest

end

theorem kept_insert {key : String} {entry : ConfigEntry F} (here : KeptDecls p entry) {entries : List (String × ConfigEntry F)}
    (kept : KeptEntries p entries) : KeptEntries p (entries.orderedInsert (fun a b => a.1 ≤ b.1) (key,entry)) := by
  induction entries with
  | nil => exact ⟨here,kept⟩
  | cons other entries ih =>
    rw [List.orderedInsert_cons]
    split
    · exact ⟨here,kept⟩
    · exact ⟨kept.1,ih kept.2⟩

mutual

theorem kept_ordered : (entry : ConfigEntry F) → DeclaredEntry p entry → KeptDecls p (ordered entry)
  | .decl _,here => by
    rw [ordered]
    exact here
  | .sect children,here => by
    rw [ordered]
    exact kept_orderedEntries children here

theorem kept_orderedEntries : (entries : List (String × ConfigEntry F)) → Declared p entries → KeptEntries p (orderedEntries entries)
  | [],_ => by
    rw [orderedEntries]
    trivial
  | (key,entry) :: rest,here => by
    rw [orderedEntries]
    have later := kept_orderedEntries rest here.2
    split
    · exact later
    · next plain => exact kept_insert (kept_ordered entry (here.1 (eq_false_of_ne_true plain))) later

end

end Order

end S2Script.Config
