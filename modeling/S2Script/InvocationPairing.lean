import Mathlib

/-! The per-thread rows that pair a native PRE with its POST, over every well-nested sequence of
closure entries. The rows refine a plain stack on which each invocation remembers its own id. -/
namespace S2Script.InvocationPairing

variable {Binding : Type}

inductive Phase where
  | pre
  | post
  | makeReturn
  | makeOriginal
deriving DecidableEq, Repr

structure InvocationRow (Binding : Type) where
  binding : Option Binding
  id : UInt64
deriving DecidableEq

/-- The size of `invocation_rows`. -/
def rowCount : Nat := 1024

/-- The thread-local variables. -/
structure Thread (Binding : Type) where
  rows : Nat → InvocationRow Binding
  depth : Nat
  overflow : Nat

def Thread.initial : Thread Binding := ⟨fun _ => ⟨none,0⟩,0,0⟩

structure InvocationPhase (Binding : Type) where
  binding : Binding
  phase : Phase
  paired : Bool
  overflow : Bool
  index : Nat
deriving DecidableEq

/-- The constructor of `InvocationPhase`. -/
def construct [DecidableEq Binding] (b : Binding) (p : Phase) (t : Thread Binding) : InvocationPhase Binding × Thread Binding :=
  match p with
  | .pre =>
    if t.depth = rowCount ∨ t.overflow ≠ 0 then (⟨b,p,false,true,0⟩,{ t with overflow := t.overflow + 1 })
    else (⟨b,p,true,false,t.depth⟩,
      { t with rows := Function.update t.rows t.depth ⟨some b,0⟩,depth := t.depth + 1 })
  | .post =>
    if t.overflow ≠ 0 then (⟨b,p,false,true,0⟩,t)
    else if t.depth ≠ 0 ∧ (t.rows (t.depth - 1)).binding = some b then (⟨b,p,true,false,t.depth - 1⟩,t)
    else (⟨b,p,false,false,0⟩,t)
  | _ => (⟨b,p,false,false,0⟩,t)

/-- The destructor of `InvocationPhase`. -/
def InvocationPhase.destruct (o : InvocationPhase Binding) (t : Thread Binding) : Thread Binding :=
  if o.phase = .post then
    if o.overflow then { t with overflow := t.overflow - 1 }
    else if o.paired then { t with depth := t.depth - 1 }
    else t
  else t

/-- `InvocationPhase::id`. -/
def InvocationPhase.id (o : InvocationPhase Binding) (t : Thread Binding) : UInt64 :=
  if o.paired then (t.rows o.index).id else 0

/-- The start of `ClosureEntry` up to the callback. `mint` is what `NewInvocation` gives, `none`
where it throws, or something before it does. -/
def enterClosure [DecidableEq Binding] (b : Binding) (p : Phase) (mint : Option UInt64) (t : Thread Binding) :
    InvocationPhase Binding × Thread Binding :=
  let (o,t) := construct b p t
  match mint with
  | none => (o,t)
  | some id =>
    if p = .pre ∧ o.paired then (o,{ t with rows := Function.update t.rows o.index { t.rows o.index with id := id } })
    else (o,t)

inductive Event (Binding : Type) where
  | enter (b : Binding) (p : Phase) (mint : Option UInt64)
  | leave

/-- A thread with the objects of the closure entries it is in, the innermost first. -/
structure State (Binding : Type) where
  thread : Thread Binding
  active : List (InvocationPhase Binding)

def State.initial : State Binding := ⟨.initial,[]⟩

def step [DecidableEq Binding] (s : State Binding) : Event Binding → State Binding
  | .enter b p mint =>
    let (o,t) := enterClosure b p mint s.thread
    ⟨t,o :: s.active⟩
  | .leave =>
    match s.active with
    | [] => s
    | o :: rest => ⟨o.destruct s.thread,rest⟩

def run [DecidableEq Binding] (s : State Binding) (events : List (Event Binding)) : State Binding := events.foldl step s

section Invocations

inductive Stage where
  | before
  | body
  | after
deriving DecidableEq, Repr

/-- What is open on a thread: an invocation with the id of its PRE, `none` where that was refused a
row, or an entry of another phase. -/
inductive Frame (Binding : Type) where
  | invocation (b : Binding) (stage : Stage) (row : Option UInt64)
  | other (b : Binding) (p : Phase)

/-- The invocations that have a row. -/
def held : List (Frame Binding) → Nat
  | [] => 0
  | .invocation _ _ (some _) :: rest => held rest + 1
  | _ :: rest => held rest

/-- The invocations that were refused one. -/
def refused : List (Frame Binding) → Nat
  | [] => 0
  | .invocation _ _ none :: rest => refused rest + 1
  | _ :: rest => refused rest

/-- The id of a PRE entry: it gets a row as long as one is left, and 0 where it mints no id. -/
def admitted (stack : List (Frame Binding)) (mint : Option UInt64) : Option UInt64 :=
  if refused stack = 0 ∧ held stack < rowCount then some (mint.getD 0) else none

/-- The next event of a well-nested sequence: a POST entry follows the PRE of the same invocation,
and everything that was entered in between has been left. -/
inductive Follows : List (Frame Binding) → Event Binding → List (Frame Binding) → Prop where
  | pre {stack : List (Frame Binding)} (b : Binding) (mint : Option UInt64) :
      Follows stack (.enter b .pre mint) (.invocation b .before (admitted stack mint) :: stack)
  | leavePre {stack : List (Frame Binding)} {b : Binding} {row : Option UInt64} :
      Follows (.invocation b .before row :: stack) .leave (.invocation b .body row :: stack)
  | post {stack : List (Frame Binding)} {b : Binding} {row : Option UInt64} (mint : Option UInt64) :
      Follows (.invocation b .body row :: stack) (.enter b .post mint) (.invocation b .after row :: stack)
  | leavePost {stack : List (Frame Binding)} {b : Binding} {row : Option UInt64} :
      Follows (.invocation b .after row :: stack) .leave stack
  | other {stack : List (Frame Binding)} (b : Binding) {p : Phase} (mint : Option UInt64)
      (apart : p ≠ .pre ∧ p ≠ .post) : Follows stack (.enter b p mint) (.other b p :: stack)
  | leaveOther {stack : List (Frame Binding)} {b : Binding} {p : Phase} : Follows (.other b p :: stack) .leave stack

/-- A well-nested sequence of events between two stacks, in which nothing below `base` is left. -/
inductive Sequence (base : List (Frame Binding)) :
    List (Frame Binding) → List (Event Binding) → List (Frame Binding) → Prop where
  | nil {stack : List (Frame Binding)} : base <:+ stack → Sequence base stack [] stack
  | snoc {stack mid last : List (Frame Binding)} {events : List (Event Binding)} {e : Event Binding} :
      Sequence base stack events mid → Follows mid e last → base <:+ last → Sequence base stack (events ++ [e]) last

/-- The events of one invocation: its PRE, what happens before its POST, and its POST. -/
def callEvents (b : Binding) (mint mint' : Option UInt64) (inPre body inPost : List (Event Binding)) : List (Event Binding) :=
  .enter b .pre mint :: (inPre ++ .leave :: (body ++ .enter b .post mint' :: (inPost ++ [.leave])))

/-- Complete entries: every PRE with its POST, with complete entries inside and between. -/
inductive Nested : List (Event Binding) → Prop where
  | nil : Nested []
  | call (b : Binding) (mint mint' : Option UInt64) {inPre body inPost rest : List (Event Binding)} :
      Nested inPre → Nested body → Nested inPost → Nested rest →
      Nested (callEvents b mint mint' inPre body inPost ++ rest)
  | other (b : Binding) {p : Phase} (mint : Option UInt64) (apart : p ≠ .pre ∧ p ≠ .post)
      {inside rest : List (Event Binding)} :
      Nested inside → Nested rest → Nested (.enter b p mint :: (inside ++ .leave :: rest))

section Sequences

variable {base a b c : List (Frame Binding)} {events later : List (Event Binding)} {e : Event Binding}

theorem Sequence.append (first : Sequence base a events b) (second : Sequence base b later c) :
    Sequence base a (events ++ later) c := by
  induction second with
  | nil => simpa using first
  | snoc _ follows above ih =>
    rw [← List.append_assoc]
    exact .snoc ih follows above

theorem Sequence.cons (above : base <:+ a) (follows : Follows a e b) (second : Sequence base b later c) :
    Sequence base a (e :: later) c := by
  have start : base <:+ b := by
    clear follows
    induction second with
    | nil start => exact start
    | snoc _ _ _ ih => exact ih
  exact Sequence.append (.snoc (.nil above) follows start) second

theorem Sequence.above (sequence : Sequence base a events b) : base <:+ b := by
  cases sequence with
  | nil above => exact above
  | snoc _ _ above => exact above

/-- A sequence is well-nested up to every point of it. -/
theorem Sequence.split (sequence : Sequence base a (events ++ later) c) :
    ∃ mid, Sequence base a events mid ∧ Sequence base mid later c := by
  generalize whole : events ++ later = all at sequence
  induction sequence generalizing later with
  | nil above =>
    obtain ⟨rfl,rfl⟩ := List.append_eq_nil_iff.mp whole
    exact ⟨_,.nil above,.nil above⟩
  | snoc sequence follows above ih =>
    obtain rfl | ⟨front,last,rfl⟩ := List.eq_nil_or_concat later
    · rw [List.append_nil] at whole
      subst whole
      exact ⟨_,.snoc sequence follows above,.nil above⟩
    · rw [List.concat_eq_append,← List.append_assoc] at whole
      rw [List.concat_eq_append]
      obtain ⟨rest,same⟩ := List.append_inj' whole rfl
      cases same
      obtain ⟨mid,before,after⟩ := ih rest
      exact ⟨mid,before,.snoc after follows above⟩

/-- An invocation leaves the stack as it found it, when what happens inside does. -/
theorem Sequence.call {stack : List (Frame Binding)} (above : base <:+ stack) (b : Binding) (mint mint' : Option UInt64)
    {inPre body inPost : List (Event Binding)}
    (first : ∀ top, base <:+ top → Sequence base top inPre top)
    (second : ∀ top, base <:+ top → Sequence base top body top)
    (third : ∀ top, base <:+ top → Sequence base top inPost top) :
    Sequence base stack (callEvents b mint mint' inPre body inPost) stack := by
  have higher : ∀ frame, base <:+ frame :: stack := fun frame => above.trans (List.suffix_cons frame stack)
  apply Sequence.cons above (.pre b mint)
  apply (first _ (higher _)).append
  apply Sequence.cons (higher _) .leavePre
  apply (second _ (higher _)).append
  apply Sequence.cons (higher _) (.post mint')
  apply (third _ (higher _)).append
  exact Sequence.cons (higher _) .leavePost (.nil above)

/-- Complete entries leave the stack as they found it. -/
theorem Nested.sequence (nested : Nested events) (stack : List (Frame Binding)) (above : base <:+ stack) :
    Sequence base stack events stack := by
  induction nested generalizing stack with
  | nil => exact .nil above
  | call b mint mint' _ _ _ _ inPre body inPost rest =>
    exact (Sequence.call above b mint mint' inPre body inPost).append (rest stack above)
  | @other b p mint apart _ _ _ _ inside rest =>
    have higher : base <:+ .other b p :: stack := above.trans (List.suffix_cons _ stack)
    apply Sequence.cons above (.other b mint apart)
    apply (inside _ higher).append
    exact Sequence.cons higher .leaveOther (rest stack above)

end Sequences

theorem run_append [DecidableEq Binding] (s : State Binding) (events later : List (Event Binding)) :
    run s (events ++ later) = run (run s events) later := List.foldl_append

end Invocations

section Simulation

/-- The objects of the entries that a thread is in. -/
def objects : List (Frame Binding) → List (InvocationPhase Binding)
  | [] => []
  | .invocation b .before row :: rest => ⟨b,.pre,row.isSome,row.isNone,if row.isSome then held rest else 0⟩ :: objects rest
  | .invocation _ .body _ :: rest => objects rest
  | .invocation b .after row :: rest => ⟨b,.post,row.isSome,row.isNone,if row.isSome then held rest else 0⟩ :: objects rest
  | .other b p :: rest => ⟨b,p,false,false,0⟩ :: objects rest

/-- Every invocation that has a row finds its binding and its id there, and a refused one was too deep. -/
def Rows (rows : Nat → InvocationRow Binding) : List (Frame Binding) → Prop
  | [] => True
  | .invocation b _ (some id) :: rest =>
    rows (held rest) = ⟨some b,id⟩ ∧ refused rest = 0 ∧ held rest < rowCount ∧ Rows rows rest
  | .invocation _ _ none :: rest => (refused rest ≠ 0 ∨ held rest = rowCount) ∧ Rows rows rest
  | .other _ _ :: rest => Rows rows rest

theorem Rows.held_le {rows : Nat → InvocationRow Binding} {stack : List (Frame Binding)} (kept : Rows rows stack) :
    held stack ≤ rowCount := by
  induction stack with
  | nil => exact Nat.zero_le _
  | cons frame rest ih =>
    match frame,kept with
    | .invocation _ _ (some _),⟨_,_,room,_⟩ => exact room
    | .invocation _ _ none,⟨_,kept⟩ => exact ih kept
    | .other _ _,kept => exact ih kept

theorem Rows.congr {rows rows' : Nat → InvocationRow Binding} {stack : List (Frame Binding)} (kept : Rows rows stack)
    (same : ∀ i < held stack, rows' i = rows i) : Rows rows' stack := by
  induction stack with
  | nil => trivial
  | cons frame rest ih =>
    match frame,kept with
    | .invocation _ _ (some _),⟨row,clear,room,kept⟩ =>
      have last := same (held rest) (Nat.lt_succ_self _)
      exact ⟨last.trans row,clear,room,ih kept fun i below => same i (Nat.lt_succ_of_lt below)⟩
    | .invocation _ _ none,⟨deep,kept⟩ => exact ⟨deep,ih kept same⟩
    | .other _ _,kept => exact ih kept same

/-- The thread-local state is what the stack of open invocations says. -/
structure Simulates (s : State Binding) (stack : List (Frame Binding)) : Prop where
  depth : s.thread.depth = held stack
  overflow : s.thread.overflow = refused stack
  rows : Rows s.thread.rows stack
  active : s.active = objects stack

theorem Simulates.initial : Simulates (.initial : State Binding) [] := ⟨rfl,rfl,trivial,rfl⟩

variable [DecidableEq Binding] {s : State Binding} {stack stack' : List (Frame Binding)} {e : Event Binding}

/-- A PRE entry that finds a row takes it and notes what it mints. -/
theorem enterClosure_row (t : Thread Binding) (b : Binding) (mint : Option UInt64) (room : t.depth ≠ rowCount)
    (level : t.overflow = 0) : enterClosure b .pre mint t = (⟨b,.pre,true,false,t.depth⟩,
      { t with rows := Function.update t.rows t.depth ⟨some b,mint.getD 0⟩,depth := t.depth + 1 }) := by
  cases mint <;> simp [enterClosure,construct,room,level]

theorem enterClosure_refused (t : Thread Binding) (b : Binding) (mint : Option UInt64)
    (full : t.depth = rowCount ∨ t.overflow ≠ 0) :
    enterClosure b .pre mint t = (⟨b,.pre,false,true,0⟩,{ t with overflow := t.overflow + 1 }) := by
  cases mint <;> simp only [enterClosure,construct,if_pos full] <;> rfl

theorem enterClosure_apart (t : Thread Binding) (b : Binding) {p : Phase} (mint : Option UInt64) (apart : p ≠ .pre) :
    enterClosure b p mint t = construct b p t := by
  cases mint <;> simp [enterClosure,apart]

theorem Simulates.pre (sim : Simulates s stack) (b : Binding) (mint : Option UInt64) :
    Simulates (step s (.enter b .pre mint)) (.invocation b .before (admitted stack mint) :: stack) := by
  have bound := sim.rows.held_le
  by_cases room : refused stack = 0 ∧ held stack < rowCount
  · have entered := enterClosure_row s.thread b mint (by rw [sim.depth]; omega) (by rw [sim.overflow]; exact room.1)
    rw [admitted,if_pos room]
    simp only [step,entered]
    refine ⟨congrArg (· + 1) sim.depth,sim.overflow,?_,?_⟩
    · refine ⟨by simp [sim.depth],room.1,room.2,sim.rows.congr ?_⟩
      intro i below
      apply Function.update_of_ne
      rw [sim.depth]
      omega
    · simp [objects,sim.active,sim.depth]
  · have full : s.thread.depth = rowCount ∨ s.thread.overflow ≠ 0 := by
      rw [sim.depth,sim.overflow]
      omega
    rw [admitted,if_neg room]
    simp only [step,enterClosure_refused s.thread b mint full]
    refine ⟨sim.depth,congrArg (· + 1) sim.overflow,⟨?_,sim.rows⟩,?_⟩
    · rw [sim.depth,sim.overflow] at full
      exact full.symm
    · simp [objects,sim.active]

/-- The object of a POST entry carries what its PRE was given. -/
theorem Simulates.construct_post {b : Binding} {row : Option UInt64}
    (sim : Simulates s (.invocation b .body row :: stack)) : construct b .post s.thread =
      (⟨b,.post,row.isSome,row.isNone,if row.isSome then held stack else 0⟩,s.thread) := by
  have depth := sim.depth
  have overflow := sim.overflow
  cases row with
  | none =>
    have deep : s.thread.overflow ≠ 0 := by
      rw [overflow,refused]
      omega
    simp [construct,deep]
  | some id =>
    obtain ⟨row,clear,_,_⟩ := sim.rows
    rw [held] at depth
    have level : s.thread.overflow = 0 := overflow.trans clear
    simp [construct,level,depth,row]

/-- The step lemma: the rows follow the stack through every event. -/
theorem Simulates.step (sim : Simulates s stack) (follows : Follows stack e stack') : Simulates (step s e) stack' := by
  have active := sim.active
  cases follows with
  | pre b mint => exact sim.pre b mint
  | @leavePre rest b row =>
    simp only [InvocationPairing.step,active,objects]
    cases row <;> exact ⟨sim.depth,sim.overflow,sim.rows,rfl⟩
  | @post rest b row mint =>
    simp only [InvocationPairing.step,enterClosure_apart s.thread b (p := .post) mint (by decide),sim.construct_post]
    cases row <;> exact ⟨sim.depth,sim.overflow,sim.rows,congrArg _ active⟩
  | @leavePost _ b row =>
    simp only [InvocationPairing.step,active,objects]
    cases row with
    | none => exact ⟨sim.depth,by simp [InvocationPhase.destruct,sim.overflow,refused],sim.rows.2,rfl⟩
    | some id => exact ⟨by simp [InvocationPhase.destruct,sim.depth,held],sim.overflow,sim.rows.2.2.2,rfl⟩
  | @other _ b p mint apart =>
    have idle : construct b p s.thread = (⟨b,p,false,false,0⟩,s.thread) := by
      cases p with
      | pre => exact absurd rfl apart.1
      | post => exact absurd rfl apart.2
      | makeReturn => rfl
      | makeOriginal => rfl
    simp only [InvocationPairing.step,enterClosure_apart s.thread b mint apart.1,idle]
    exact ⟨sim.depth,sim.overflow,sim.rows,congrArg _ active⟩
  | @leaveOther _ b p =>
    simp only [InvocationPairing.step,active,objects]
    have idle : (⟨b,p,false,false,0⟩ : InvocationPhase Binding).destruct s.thread = s.thread := by
      simp [InvocationPhase.destruct]
    rw [idle]
    exact ⟨sim.depth,sim.overflow,sim.rows,rfl⟩

/-- The run lemma. -/
theorem Simulates.run {base : List (Frame Binding)} {events : List (Event Binding)}
    (sequence : Sequence base stack events stack') (sim : Simulates s stack) : Simulates (run s events) stack' := by
  induction sequence with
  | nil => exact sim
  | snoc _ follows _ ih =>
    rw [run_append]
    exact ih.step follows

end Simulation

section Frames

theorem held_suffix {stack top : List (Frame Binding)} (suffix : stack <:+ top) : held stack ≤ held top := by
  obtain ⟨front,rfl⟩ := suffix
  induction front with
  | nil => exact Nat.le_refl _
  | cons frame front ih =>
    match frame with
    | .invocation _ _ (some _) => exact Nat.le_succ_of_le ih
    | .invocation _ _ none => exact ih
    | .other _ _ => exact ih

theorem Rows.suffix {rows : Nat → InvocationRow Binding} {stack top : List (Frame Binding)} (kept : Rows rows top)
    (suffix : stack <:+ top) : Rows rows stack := by
  obtain ⟨front,rfl⟩ := suffix
  induction front with
  | nil => exact kept
  | cons frame front ih =>
    match frame,kept with
    | .invocation _ _ (some _),⟨_,_,_,kept⟩ => exact ih kept
    | .invocation _ _ none,⟨_,kept⟩ => exact ih kept
    | .other _ _,kept => exact ih kept

/-- The stack decides the rows of the open invocations. -/
theorem Rows.unique {rows rows' : Nat → InvocationRow Binding} {stack : List (Frame Binding)} (kept : Rows rows stack)
    (kept' : Rows rows' stack) : ∀ i < held stack, rows' i = rows i := by
  induction stack with
  | nil => nofun
  | cons frame rest ih =>
    match frame,kept,kept' with
    | .invocation _ _ (some _),⟨row,_,_,kept⟩,⟨row',_,_,kept'⟩ =>
      intro i below
      obtain less | rfl := Nat.lt_succ_iff_lt_or_eq.mp below
      · exact ih kept kept' i less
      · exact row'.trans row.symm
    | .invocation _ _ none,⟨_,kept⟩,⟨_,kept'⟩ => exact ih kept kept'
    | .other _ _,kept,kept' => exact ih kept kept'

end Frames

section Pairing

variable [DecidableEq Binding]

/-- The PRE and the POST of one invocation. `pre` and `post` are the objects of its two entries,
between which any complete entries took place. -/
structure Paired (before atPost : Thread Binding) (pre post : InvocationPhase Binding) (mint : Option UInt64) : Prop where
  paired : before.depth ≠ rowCount ∧ before.overflow = 0 →
    pre.paired = true ∧ pre.overflow = false ∧ pre.index = before.depth ∧
      post.paired = true ∧ post.overflow = false ∧ post.index = pre.index ∧ post.id atPost = mint.getD 0
  refused : before.depth = rowCount ∨ before.overflow ≠ 0 →
    pre.paired = false ∧ pre.overflow = true ∧ post.paired = false ∧ post.overflow = true ∧
      atPost.depth = before.depth

end Pairing

end S2Script.InvocationPairing
