import Mathlib

/-! The console tokenizer: the tokens of a command line, copied one behind the other into a buffer,
and the offset of the text behind the first one, which a handler may tokenize again. -/
namespace S2Script.CommandTokens

abbrev Bytes := List UInt8

section Tokenizer

/-- `is_space`. -/
def isSpace (c : UInt8) : Bool := c = 32 || c = 9 || c = 13 || c = 10 || c = 12 || c = 11

def quote : UInt8 := 34

structure Token where
  text : Bytes
  rest : Bytes

/-- One token that begins with `c`, and the text behind it: past the closing quote, if there is one. -/
def readToken (c : UInt8) (rest : Bytes) : Token :=
  if c = quote then
    let closed := rest.dropWhile fun d => d != quote
    ⟨rest.takeWhile fun d => d != quote,closed.drop 1⟩
  else ⟨(c :: rest).takeWhile fun d => !isSpace d,(c :: rest).dropWhile fun d => !isSpace d⟩

/-- What the tokenizer writes: the buffer, the offsets of the tokens in it, and two counts. -/
structure Output where
  argc : Nat
  used : Nat
  argvBuf : Nat → UInt8
  args : Nat → Nat
  argv0Size : Nat

/-- `memcpy` to an offset. -/
def copy (buffer : Nat → UInt8) (offset : Nat) (bytes : Bytes) : Nat → UInt8 := fun k =>
  if offset ≤ k ∧ k < offset + bytes.length then bytes.getD (k - offset) 0 else buffer k

/-- A token with its terminator. -/
def Output.store (o : Output) (token : Bytes) : Output :=
  { o with
    argc := o.argc + 1
    used := o.used + (token.length + 1)
    argvBuf := Function.update (copy o.argvBuf o.used token) (o.used + token.length) 0
    args := Function.update o.args o.argc o.used }

/-- Where the text behind the first token and the spaces after it begins, zero if there is none. -/
def restOffset (len : Nat) (behind : Bytes) : Nat :=
  let rest := behind.dropWhile isSpace
  if rest = [] then 0 else len - rest.length

theorem readToken_shorter {c : UInt8} (solid : isSpace c = false) (rest : Bytes) :
    (readToken c rest).rest.length < (c :: rest).length := by
  simp only [readToken]
  split
  · have shorter := (List.dropWhile_sublist (fun d => d != quote) (l := rest)).length_le
    simp only [List.length_drop,List.length_cons]
    omega
  · have shorter := (List.dropWhile_sublist (fun d => !isSpace d) (l := rest)).length_le
    simp only [List.dropWhile_cons,solid,Bool.not_false,if_true,List.length_cons]
    omega

theorem solid_of_dropWhile {text rest : Bytes} {c : UInt8} (found : text.dropWhile isSpace = c :: rest) :
    isSpace c = false := by
  have head := List.head?_dropWhile_not isSpace text
  simpa only [found,List.head?_cons] using head

theorem shorter_of_dropWhile {text rest : Bytes} {c : UInt8} (found : text.dropWhile isSpace = c :: rest) :
    (readToken c rest).rest.length < text.length := by
  have first := readToken_shorter (solid_of_dropWhile found) rest
  have whole := (List.dropWhile_sublist isSpace (l := text)).length_le
  simp only [found] at whole
  omega

/-- The loop over a text of `len` bytes, with what is left of it. -/
def tokenizeLoop (len : Nat) (argvCap maxArgs : Int) (o : Output) (text : Bytes) : Output :=
  match _ : text.dropWhile isSpace with
  | [] => o
  | c :: rest =>
    if maxArgs ≤ o.argc then o
    else
      let token := readToken c rest
      if argvCap < o.used + token.text.length + 1 then o
      else
        let o := o.store token.text
        -- from the first token on, the offset stays as it is
        let o := if o.argc = 1 then { o with argv0Size := restOffset len token.rest } else o
        tokenizeLoop len argvCap maxArgs o token.rest
termination_by text.length
decreasing_by exact shorter_of_dropWhile (by assumption)

/-- `s2_tokenize_command`, with what the buffers held before; a null pointer is `none`. -/
def tokenizeCommand (src : Option Bytes) (argvBuf : Option (Nat → UInt8)) (argvCap : Int) (args : Option (Nat → Nat))
    (maxArgs : Int) : Option Output :=
  match src,argvBuf,args with
  | some src,some argvBuf,some args => some (tokenizeLoop src.length argvCap maxArgs ⟨0,0,argvBuf,args,0⟩ src)
  | _,_,_ => none

end Tokenizer

section Reference

/-- The tokens of a text. -/
inductive Splits : Bytes → List Bytes → Prop where
  | done : Splits [] []
  | space {c text tokens} : isSpace c = true → Splits text tokens → Splits (c :: text) tokens
  | quoted {token rest tokens} : quote ∉ token → Splits rest tokens →
      Splits (quote :: (token ++ quote :: rest)) (token :: tokens)
  | unclosed {token} : quote ∉ token → Splits (quote :: token) [token]
  | plain {c word rest tokens} : isSpace c = false → c ≠ quote → (∀ d ∈ word, isSpace d = false) →
      (∀ d ∈ rest.head?, isSpace d = true) → Splits rest tokens → Splits (c :: (word ++ rest)) ((c :: word) :: tokens)

/-- The tokens, computed. -/
def tokens (text : Bytes) : List Bytes :=
  match _ : text.dropWhile isSpace with
  | [] => []
  | c :: rest => (readToken c rest).text :: tokens (readToken c rest).rest
termination_by text.length
decreasing_by exact shorter_of_dropWhile (by assumption)

theorem tokens_nil {text : Bytes} (blank : text.dropWhile isSpace = []) : tokens text = [] := by
  rw [tokens.eq_def]
  split
  · rfl
  · next found => cases blank.symm.trans found

theorem tokens_cons {text rest : Bytes} {c : UInt8} (found : text.dropWhile isSpace = c :: rest) :
    tokens text = (readToken c rest).text :: tokens (readToken c rest).rest := by
  rw [tokens.eq_def]
  split
  · next blank => cases found.symm.trans blank
  · next found' =>
    cases found.symm.trans found'
    rfl

theorem tokens_dropWhile (text : Bytes) : tokens (text.dropWhile isSpace) = tokens text := by
  have again : (text.dropWhile isSpace).dropWhile isSpace = text.dropWhile isSpace :=
    List.dropWhile_idempotent isSpace text
  cases found : text.dropWhile isSpace with
  | nil => exact (tokens_nil rfl).trans (tokens_nil found).symm
  | cons c rest =>
    have same : (c :: rest).dropWhile isSpace = c :: rest := found ▸ again
    exact (tokens_cons same).trans (tokens_cons found).symm

theorem takeWhile_stop {p : UInt8 → Bool} {word : Bytes} (inside : ∀ d ∈ word, p d = true) (rest : Bytes)
    (stop : ∀ d ∈ rest.head?, p d = false) : (word ++ rest).takeWhile p = word ∧ (word ++ rest).dropWhile p = rest := by
  have ends : rest.takeWhile p = [] ∧ rest.dropWhile p = rest := by
    cases rest with
    | nil => exact ⟨rfl,rfl⟩
    | cons d rest =>
      have outside := stop d rfl
      simp only [List.takeWhile_cons,List.dropWhile_cons,outside,Bool.false_eq_true,if_false,and_self]
  constructor
  · simp only [List.takeWhile_append_of_pos inside,ends.1,List.append_nil]
  · simp only [List.dropWhile_append_of_pos inside,ends.2]

/-- The relation has the computed tokens. -/
theorem Splits.eq_tokens {text : Bytes} {found : List Bytes} (splits : Splits text found) : found = tokens text := by
  induction splits with
  | done => exact (tokens_nil rfl).symm
  | @space c text tokens blank _ ih =>
    have skipped : (c :: text).dropWhile isSpace = text.dropWhile isSpace := by simp only [List.dropWhile_cons,blank,if_true]
    exact ih.trans ((tokens_dropWhile text).symm.trans ((congrArg _ skipped.symm).trans (tokens_dropWhile (c :: text))))
  | @quoted token rest tokens unbroken _ ih =>
    have inside : ∀ d ∈ token, (d != quote) = true := fun d member => by
      simpa using fun same : d = quote => unbroken (same ▸ member)
    have cut := takeWhile_stop inside (quote :: rest) (by simp)
    have read : readToken quote (token ++ quote :: rest) = ⟨token,rest⟩ := by
      simp only [readToken,if_true,cut,List.drop_succ_cons,List.drop_zero]
    refine (congrArg (token :: ·) ih).trans (Eq.symm ?_)
    have start : (quote :: (token ++ quote :: rest)).dropWhile isSpace = quote :: (token ++ quote :: rest) := rfl
    simpa only [read] using tokens_cons start
  | @unclosed token unbroken =>
    have inside : ∀ d ∈ token, (d != quote) = true := fun d member => by
      simpa using fun same : d = quote => unbroken (same ▸ member)
    have cut := takeWhile_stop inside [] (by simp)
    simp only [List.append_nil] at cut
    have read : readToken quote token = ⟨token,[]⟩ := by simp only [readToken,if_true,cut,List.drop_nil]
    refine Eq.symm ?_
    have start : (quote :: token).dropWhile isSpace = quote :: token := rfl
    have empty : tokens [] = [] := tokens_nil rfl
    simpa only [read,empty] using tokens_cons start
  | @plain c word rest tokens solid other whole stop _ ih =>
    have inside : ∀ d ∈ c :: word, (!isSpace d) = true := by
      intro d member
      rcases List.mem_cons.mp member with rfl | member
      · simp only [solid,Bool.not_false]
      · simp only [whole d member,Bool.not_false]
    have cut := takeWhile_stop inside rest (fun d first => by simp only [stop d first,Bool.not_true])
    have read : readToken c (word ++ rest) = ⟨c :: word,rest⟩ := by
      simp only [readToken,if_neg other]
      exact congrArg₂ Token.mk cut.1 cut.2
    have start : (c :: (word ++ rest)).dropWhile isSpace = c :: (word ++ rest) := by
      simp only [List.dropWhile_cons,solid,Bool.false_eq_true,if_false]
    refine (congrArg ((c :: word) :: ·) ih).trans (Eq.symm ?_)
    simpa only [read] using tokens_cons start

theorem Splits.lead {spaces : Bytes} (blank : ∀ c ∈ spaces, isSpace c = true) {text : Bytes} {found : List Bytes}
    (splits : Splits text found) : Splits (spaces ++ text) found := by
  induction spaces with
  | nil => exact splits
  | cons c spaces ih =>
    exact .space (blank c List.mem_cons_self) (ih fun d member => blank d (List.mem_cons_of_mem c member))

theorem splits_readToken {c : UInt8} (solid : isSpace c = false) (rest : Bytes) {found : List Bytes}
    (splits : Splits (readToken c rest).rest found) : Splits (c :: rest) ((readToken c rest).text :: found) := by
  by_cases quoted : c = quote
  · subst quoted
    simp only [readToken,if_true] at splits ⊢
    have halves : (rest.takeWhile fun d => d != quote) ++ (rest.dropWhile fun d => d != quote) = rest :=
      List.takeWhile_append_dropWhile
    have unbroken : quote ∉ rest.takeWhile fun d => d != quote := fun member =>
      absurd (List.mem_takeWhile_imp member) (by decide)
    cases closing : rest.dropWhile fun d => d != quote with
    | nil =>
      simp only [closing,List.drop_nil,List.append_nil] at splits halves
      have none : found = [] := splits.eq_tokens.trans (tokens_nil rfl)
      subst none
      simpa only [halves] using Splits.unclosed unbroken
    | cons d behind =>
      have closes := List.head?_dropWhile_not (fun d => d != quote) rest
      simp only [closing,List.head?_cons,bne_eq_false_iff_eq] at closes
      subst closes
      simp only [closing,List.drop_succ_cons,List.drop_zero] at splits halves
      simpa only [halves] using Splits.quoted unbroken splits
  · simp only [readToken,if_neg quoted] at splits ⊢
    have halves : (rest.takeWhile fun d => !isSpace d) ++ (rest.dropWhile fun d => !isSpace d) = rest :=
      List.takeWhile_append_dropWhile
    simp only [List.takeWhile_cons,List.dropWhile_cons,solid,Bool.not_false,if_true] at splits ⊢
    have whole : ∀ d ∈ rest.takeWhile (fun d => !isSpace d), isSpace d = false := fun d member => by
      simpa using List.mem_takeWhile_imp member
    have stop : ∀ d ∈ (rest.dropWhile fun d => !isSpace d).head?, isSpace d = true := by
      intro d first
      have closes := List.head?_dropWhile_not (fun d => !isSpace d) rest
      simpa only [Option.mem_def.mp first,Bool.not_eq_false'] using closes
    simpa only [halves] using Splits.plain solid quoted whole stop splits

/-- Every text has its tokens by the relation. -/
theorem splits_tokens (text : Bytes) : Splits text (tokens text) := by
  have split : text.takeWhile isSpace ++ text.dropWhile isSpace = text := List.takeWhile_append_dropWhile
  have blank : ∀ c ∈ text.takeWhile isSpace, isSpace c = true := fun c member => List.mem_takeWhile_imp member
  cases found : text.dropWhile isSpace with
  | nil =>
    simp only [found] at split
    rw [tokens_nil found,← split]
    exact Splits.lead blank .done
  | cons c rest =>
    have ih := splits_tokens (readToken c rest).rest
    simp only [found] at split
    rw [tokens_cons found]
    conv => rw [← split]
    exact Splits.lead blank (splits_readToken (solid_of_dropWhile found) rest ih)
termination_by text.length
decreasing_by exact shorter_of_dropWhile found

/-- The bytes that tokens take with their terminators. -/
def needed (tokens : List Bytes) : Nat := (tokens.map fun token => token.length + 1).sum

@[simp] theorem needed_nil : needed [] = 0 := rfl

@[simp] theorem needed_cons (token : Bytes) (tokens : List Bytes) :
    needed (token :: tokens) = token.length + 1 + needed tokens := rfl

theorem needed_take_le (tokens : List Bytes) (n : Nat) : needed (tokens.take n) ≤ needed tokens := by
  have split := congrArg needed (List.take_append_drop n tokens)
  simp only [needed,List.map_append,List.sum_append] at split ⊢
  omega

/-- What a token takes it has taken from the text before, but for the last terminator. -/
theorem Splits.needed_le {text : Bytes} {found : List Bytes} (splits : Splits text found) :
    needed found ≤ text.length + 1 ∧ ((∀ d ∈ text.head?, isSpace d = true) → needed found ≤ text.length) := by
  induction splits with
  | done => simp
  | @space c text tokens blank _ ih =>
    simp only [List.length_cons]
    omega
  | @quoted token rest tokens _ _ ih =>
    simp only [needed_cons,List.length_cons,List.length_append]
    omega
  | @unclosed token _ =>
    simp only [needed_cons,needed_nil,List.length_cons,List.head?_cons,Option.mem_some_iff,forall_eq']
    exact ⟨by omega,fun blank => absurd blank (by decide)⟩
  | @plain c word rest tokens solid other whole stop _ ih =>
    have tail := ih.2 stop
    simp only [needed_cons,List.length_cons,List.length_append,List.head?_cons,Option.mem_some_iff,forall_eq']
    exact ⟨by omega,fun blank => absurd (solid.symm.trans blank) (by decide)⟩

/-- No sum of the loop, the refused ones included, is more than one above the length of the text. -/
theorem sum_le (src : Bytes) (n : Nat) : needed ((tokens src).take n) ≤ src.length + 1 :=
  (needed_take_le _ n).trans (splits_tokens src).needed_le.1

end Reference

section Stored

/-- A token and its terminator at an offset of a buffer. -/
def Holds (buffer : Nat → UInt8) (offset : Nat) (token : Bytes) : Prop :=
  (∀ k < token.length, buffer (offset + k) = token.getD k 0) ∧ buffer (offset + token.length) = 0

/-- What storing some tokens leaves in the buffers. -/
structure Written (o o' : Output) (tokens : List Bytes) : Prop where
  argc : o'.argc = o.argc + tokens.length
  used : o'.used = o.used + needed tokens
  argv0Size : o'.argv0Size = o.argv0Size
  held : ∀ j token, tokens[j]? = some token →
    o'.args (o.argc + j) = o.used + needed (tokens.take j) ∧ Holds o'.argvBuf (o.used + needed (tokens.take j)) token
  bufferFrame : ∀ k, k < o.used ∨ o.used + needed tokens ≤ k → o'.argvBuf k = o.argvBuf k
  argsFrame : ∀ j, j < o.argc ∨ o.argc + tokens.length ≤ j → o'.args j = o.args j

theorem store_holds (o : Output) (token : Bytes) : Holds (o.store token).argvBuf o.used token := by
  constructor
  · intro k inside
    have before : o.used + k ≠ o.used + token.length := by omega
    have within : o.used ≤ o.used + k ∧ o.used + k < o.used + token.length := by omega
    simp only [Output.store,Function.update_of_ne before,copy,if_pos within,Nat.add_sub_cancel_left]
  · simp only [Output.store,Function.update_self]

theorem store_bufferFrame (o : Output) (token : Bytes) (k : Nat)
    (outside : k < o.used ∨ o.used + (token.length + 1) ≤ k) : (o.store token).argvBuf k = o.argvBuf k := by
  have other : k ≠ o.used + token.length := by omega
  have beyond : ¬(o.used ≤ k ∧ k < o.used + token.length) := by omega
  simp only [Output.store,Function.update_of_ne other,copy,if_neg beyond]

/-- Tokens stored one after the other lie one behind the other. -/
theorem foldl_store_written : ∀ (tokens : List Bytes) (o : Output), Written o (tokens.foldl Output.store o) tokens
  | [],o => ⟨rfl,rfl,rfl,by simp,fun _ _ => rfl,fun _ _ => rfl⟩
  | token :: rest,o => by
    have tail := foldl_store_written rest (o.store token)
    have argc : (o.store token).argc = o.argc + 1 := rfl
    have used : (o.store token).used = o.used + (token.length + 1) := rfl
    refine ⟨?_,?_,tail.argv0Size,?_,?_,?_⟩
    · simp only [List.foldl_cons,tail.argc,argc,List.length_cons]
      omega
    · simp only [List.foldl_cons,tail.used,used,needed_cons]
      omega
    · intro j wanted found
      cases j with
      | zero =>
        cases found
        have first : ((rest.foldl Output.store (o.store token)).args o.argc) = o.used :=
          (tail.argsFrame o.argc (.inl (by omega))).trans (Function.update_self ..)
        have frame := fun k (before : k < o.used + (token.length + 1)) => tail.bufferFrame k (.inl (used ▸ before))
        obtain ⟨letters,terminator⟩ := store_holds o token
        refine ⟨first,fun k inside => ?_,?_⟩
        · exact (frame (o.used + k) (by omega)).trans (letters k inside)
        · exact (frame (o.used + token.length) (by omega)).trans terminator
      | succ j =>
        obtain ⟨offset,held⟩ := tail.held j wanted found
        have place : o.argc + (j + 1) = (o.store token).argc + j := by omega
        have bytes : o.used + needed ((token :: rest).take (j + 1)) = (o.store token).used + needed (rest.take j) := by
          simp only [List.take_succ_cons,needed_cons,used]
          omega
        simp only [List.foldl_cons,place,bytes]
        exact ⟨offset,held⟩
    · intro k outside
      simp only [needed_cons] at outside
      refine (tail.bufferFrame k ?_).trans (store_bufferFrame o token k ?_)
      · omega
      · omega
    · intro j outside
      simp only [List.length_cons] at outside
      refine (tail.argsFrame j ?_).trans (Function.update_of_ne ?_ ..)
      · omega
      · omega

end Stored

section Limits

variable (argvCap maxArgs : Int)

/-- The tokens that are stored, with so many of them and so many bytes before. -/
def fitting (argc used : Nat) : List Bytes → List Bytes
  | [] => []
  | token :: rest =>
    if maxArgs ≤ argc ∨ argvCap < used + token.length + 1 then []
    else token :: fitting (argc + 1) (used + (token.length + 1)) rest

/-- Tokens within both limits. Nothing at all is within any limits. -/
def Fits (argc used : Nat) (tokens : List Bytes) : Prop :=
  tokens = [] ∨ ((argc + tokens.length : Nat) ≤ maxArgs ∧ (used + needed tokens : Nat) ≤ argvCap)

theorem fitting_isPrefix : ∀ (tokens : List Bytes) (argc used : Nat), fitting argvCap maxArgs argc used tokens <+: tokens
  | [],_,_ => List.prefix_rfl
  | token :: rest,argc,used => by
    simp only [fitting]
    split
    · exact List.nil_prefix
    · exact List.cons_prefix_cons.mpr ⟨rfl,fitting_isPrefix rest _ _⟩

theorem fits_fitting : ∀ (tokens : List Bytes) (argc used : Nat),
    Fits argvCap maxArgs argc used (fitting argvCap maxArgs argc used tokens)
  | [],_,_ => .inl rfl
  | token :: rest,argc,used => by
    simp only [fitting]
    split
    · exact .inl rfl
    · next within =>
      rcases fits_fitting rest (argc + 1) (used + (token.length + 1)) with none | fits
      · refine .inr ⟨?_,?_⟩ <;> simp only [none,List.length_cons,List.length_nil,needed_cons,needed_nil] <;> omega
      · refine .inr ⟨?_,?_⟩ <;> simp only [List.length_cons,needed_cons] <;> omega

/-- No longer prefix is within the limits. -/
theorem fitting_longest : ∀ (tokens : List Bytes) (argc used : Nat) (front : List Bytes), front <+: tokens →
    Fits argvCap maxArgs argc used front → front <+: fitting argvCap maxArgs argc used tokens
  | [],_,_,front,starts,_ => by simpa only [fitting] using starts
  | token :: rest,argc,used,[],_,_ => List.nil_prefix
  | token :: rest,argc,used,first :: front,starts,fits => by
    obtain ⟨rfl,starts'⟩ := List.cons_prefix_cons.mp starts
    have bounds := fits.resolve_left (List.cons_ne_nil _ _)
    simp only [List.length_cons,needed_cons] at bounds
    have within : ¬(maxArgs ≤ argc ∨ argvCap < used + first.length + 1) := by omega
    simp only [fitting,if_neg within]
    refine List.cons_prefix_cons.mpr ⟨rfl,fitting_longest rest _ _ front starts' (.inr ⟨?_,?_⟩)⟩
    · omega
    · omega

end Limits

section Runs

variable {argvCap maxArgs : Int} {len : Nat}

theorem loop_blank {o : Output} {text : Bytes} (blank : text.dropWhile isSpace = []) :
    tokenizeLoop len argvCap maxArgs o text = o := by
  rw [tokenizeLoop.eq_def]
  split
  · rfl
  · next found => cases blank.symm.trans found

/-- One round of the loop. -/
theorem loop_token {o : Output} {text rest : Bytes} {c : UInt8} (found : text.dropWhile isSpace = c :: rest) :
    tokenizeLoop len argvCap maxArgs o text =
      if maxArgs ≤ o.argc ∨ argvCap < o.used + (readToken c rest).text.length + 1 then o
      else
        let stored := o.store (readToken c rest).text
        tokenizeLoop len argvCap maxArgs
          (if stored.argc = 1 then { stored with argv0Size := restOffset len (readToken c rest).rest } else stored)
          (readToken c rest).rest := by
  rw [tokenizeLoop.eq_def]
  split
  · next blank => cases found.symm.trans blank
  · next c' rest' found' =>
    cases found.symm.trans found'
    by_cases full : maxArgs ≤ o.argc
    · simp only [full,true_or,if_true]
    · simp only [full,false_or,if_false]

/-- Behind the first token the loop stores the tokens that fit, and does no more. -/
theorem loop_later (o : Output) (text : Bytes) (later : 1 ≤ o.argc) :
    tokenizeLoop len argvCap maxArgs o text =
      (fitting argvCap maxArgs o.argc o.used (tokens text)).foldl Output.store o := by
  cases found : text.dropWhile isSpace with
  | nil => simp only [loop_blank found,tokens_nil found,fitting,List.foldl_nil]
  | cons c rest =>
    simp only [loop_token found,tokens_cons found,fitting]
    split
    · rfl
    · have many : (o.store (readToken c rest).text).argc ≠ 1 := Nat.ne_of_gt (Nat.lt_succ_of_le later)
      simp only [if_neg many,List.foldl_cons]
      exact loop_later (o.store (readToken c rest).text) (readToken c rest).rest (Nat.le_succ_of_le later)
termination_by text.length
decreasing_by exact shorter_of_dropWhile found

/-- The offset the first token leaves, if it fits. -/
def offsetOf (len : Nat) (text : Bytes) (kept : List Bytes) : Nat :=
  match text.dropWhile isSpace,kept with
  | c :: rest,_ :: _ => restOffset len (readToken c rest).rest
  | _,_ => 0

theorem foldl_store_argv0Size : ∀ (tokens : List Bytes) (o : Output) (n : Nat),
    tokens.foldl Output.store { o with argv0Size := n } = { tokens.foldl Output.store o with argv0Size := n }
  | [],_,_ => rfl
  | token :: rest,o,n => foldl_store_argv0Size rest (o.store token) n

/-- The loop stores the tokens that fit. -/
theorem tokenizeLoop_eq (argvBuf : Nat → UInt8) (args : Nat → Nat) (text : Bytes) :
    tokenizeLoop len argvCap maxArgs ⟨0,0,argvBuf,args,0⟩ text =
      { (fitting argvCap maxArgs 0 0 (tokens text)).foldl Output.store ⟨0,0,argvBuf,args,0⟩ with
        argv0Size := offsetOf len text (fitting argvCap maxArgs 0 0 (tokens text)) } := by
  cases found : text.dropWhile isSpace with
  | nil => simp only [loop_blank found,tokens_nil found,fitting,List.foldl_nil,offsetOf,found]
  | cons c rest =>
    simp only [loop_token found,tokens_cons found,fitting,offsetOf,found]
    split
    · rfl
    · have first : (Output.store ⟨0,0,argvBuf,args,0⟩ (readToken c rest).text).argc = 1 := rfl
      simp only [if_pos first,List.foldl_cons]
      exact (loop_later _ _ (Nat.le_refl 1)).trans (foldl_store_argv0Size _ _ _)

end Runs

section Results

theorem readToken_suffix (c : UInt8) (rest : Bytes) : (readToken c rest).rest <:+ c :: rest := by
  simp only [readToken]
  split
  · exact ((List.drop_suffix _ _).trans (List.dropWhile_suffix _)).trans (List.suffix_cons c rest)
  · exact List.dropWhile_suffix _

/-- If every token is stored, the offset is zero where one token is all there is, and else the text from
it on has the other tokens. -/
theorem offset_tokens (src : Bytes) :
    (offsetOf src.length src (tokens src) = 0 ↔ (tokens src).length ≤ 1) ∧
      (offsetOf src.length src (tokens src) ≠ 0 →
        tokens (src.drop (offsetOf src.length src (tokens src))) = (tokens src).tail) := by
  cases found : src.dropWhile isSpace with
  | nil => simp [offsetOf,found,tokens_nil found]
  | cons c rest =>
    have shorter := shorter_of_dropWhile found
    have behind := tokens_dropWhile (readToken c rest).rest
    have suffix : (readToken c rest).rest.dropWhile isSpace <:+ src :=
      (List.dropWhile_suffix _).trans ((readToken_suffix c rest).trans (found ▸ List.dropWhile_suffix _))
    have dropped : src.drop (src.length - ((readToken c rest).rest.dropWhile isSpace).length) =
        (readToken c rest).rest.dropWhile isSpace := (List.suffix_iff_eq_drop.mp suffix).symm
    have less := (List.dropWhile_sublist isSpace (l := (readToken c rest).rest)).length_le
    simp only [offsetOf,found,tokens_cons found,restOffset,List.length_cons,List.tail_cons]
    split
    · next blank => simp [tokens_nil blank]
    · next more =>
      have positive : src.length - ((readToken c rest).rest.dropWhile isSpace).length ≠ 0 := by omega
      have one : (tokens (readToken c rest).rest).length ≠ 0 := by
        cases next : (readToken c rest).rest.dropWhile isSpace with
        | nil => exact absurd next more
        | cons d behind => simp [tokens_cons next]
      refine ⟨⟨fun zero => absurd zero positive,fun few => absurd (by omega) one⟩,fun _ => ?_⟩
      simp only [dropped,behind]

/-- What the tokenizer leaves for a text with these tokens: the tokens `kept` are the longest list of
first ones within the limits, they lie in the buffer, and nothing else is written. -/
structure Tokenized (argvBuf : Nat → UInt8) (argvCap : Int) (args : Nat → Nat) (maxArgs : Int)
    (found kept : List Bytes) (o : Output) : Prop where
  argc : o.argc = kept.length
  starts : kept <+: found
  fits : Fits argvCap maxArgs 0 0 kept
  longest : ∀ front, front <+: found → Fits argvCap maxArgs 0 0 front → front <+: kept
  held : ∀ j token, kept[j]? = some token → Holds o.argvBuf (o.args j) token
  bufferFrame : ∀ k : Nat, argvCap ≤ k → o.argvBuf k = argvBuf k
  argsFrame : ∀ j : Nat, maxArgs ≤ j → o.args j = args j

theorem tokenized (src : Bytes) (argvBuf : Nat → UInt8) (argvCap : Int) (args : Nat → Nat) (maxArgs : Int) :
    ∃ o, tokenizeCommand (some src) (some argvBuf) argvCap (some args) maxArgs = some o ∧
      Tokenized argvBuf argvCap args maxArgs (tokens src) (fitting argvCap maxArgs 0 0 (tokens src)) o ∧
      o.argv0Size = offsetOf src.length src (fitting argvCap maxArgs 0 0 (tokens src)) := by
  have written := foldl_store_written (fitting argvCap maxArgs 0 0 (tokens src)) ⟨0,0,argvBuf,args,0⟩
  have fits := fits_fitting argvCap maxArgs (tokens src) 0 0
  refine ⟨_,congrArg some (tokenizeLoop_eq argvBuf args src),?_,rfl⟩
  constructor
  · simpa using written.argc
  · exact fitting_isPrefix ..
  · exact fits
  · exact fitting_longest argvCap maxArgs (tokens src) 0 0
  · intro j token inside
    obtain ⟨offset,held⟩ := written.held j token inside
    simp only [Nat.zero_add] at offset held
    simpa only [offset] using held
  · intro k beyond
    apply written.bufferFrame
    rcases fits with none | bounds
    · exact .inr (by simp [none])
    · exact .inr (by simp only [Nat.zero_add] at bounds ⊢; omega)
  · intro j beyond
    apply written.argsFrame
    rcases fits with none | bounds
    · exact .inr (by simp [none])
    · exact .inr (by simp only [Nat.zero_add] at bounds ⊢; omega)

end Results

end S2Script.CommandTokens
