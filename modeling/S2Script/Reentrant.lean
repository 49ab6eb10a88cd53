import Mathlib

/-! Re-entrant operations. An operation runs until it returns or calls out; while it
is out, any other operation may start, and answers come back in stack order. -/
namespace S2Script.Reentrant

/-- Where a run of an operation stops: its result, or the frame awaiting an answer. -/
inductive Flow (φ ρ : Type) where
  | returned (result : ρ)
  | calls (frame : φ)

structure Process (σ ι φ α ρ : Type) where
  start : ι → σ → σ × Flow φ ρ
  resume : φ → α → σ → σ × Flow φ ρ

/-- A shared state and the operations called out, innermost first. -/
structure Config (σ ι φ : Type) where
  state : σ
  stack : List (ι × φ)

inductive Event (ι α : Type) where
  | start (op : ι)
  | answer (value : α)

/-- The configuration an operation leaves over the stack below it. -/
def Config.after (op : ι) (stack : List (ι × φ)) : σ × Flow φ ρ → Config σ ι φ
  | (state,.returned _) => ⟨state,stack⟩
  | (state,.calls frame) => ⟨state,(op,frame) :: stack⟩

@[simp] theorem Config.after_state (op : ι) (stack : List (ι × φ)) (run : σ × Flow φ ρ) :
    (Config.after op stack run).state = run.1 := by
  obtain ⟨state,flow⟩ := run
  cases flow <;> rfl

def Flow.result? : Flow φ ρ → Option ρ
  | .returned result => some result
  | .calls _ => none

namespace Process

variable (process : Process σ ι φ α ρ)

/-- One event. An answer nobody awaits is ignored. -/
def advance (config : Config σ ι φ) : Event ι α → Config σ ι φ
  | .start op => .after op config.stack (process.start op config.state)
  | .answer value => match config.stack with
    | [] => config
    | (op,frame) :: stack => .after op stack (process.resume frame value config.state)

/-- The operation an event runs, and the result it ends with, if it ends. -/
def outcome (config : Config σ ι φ) : Event ι α → Option (ι × Option ρ)
  | .start op => some (op,(process.start op config.state).2.result?)
  | .answer value => match config.stack with
    | [] => none
    | (op,frame) :: _ => some (op,(process.resume frame value config.state).2.result?)

def execute : List (Event ι α) → Config σ ι φ → Config σ ι φ
  | [], config => config
  | event :: events, config => execute events (process.advance config event)

/-- The invariant rule: what every start and every resumption keeps, whatever is
suspended below, every run keeps. -/
theorem advance_invariant {invariant : Config σ ι φ → Prop}
    (starts : ∀ op state stack, invariant ⟨state,stack⟩ →
      invariant (.after op stack (process.start op state)))
    (resumes : ∀ op frame value state stack, invariant ⟨state,(op,frame) :: stack⟩ →
      invariant (.after op stack (process.resume frame value state)))
    {config : Config σ ι φ} (valid : invariant config) (event : Event ι α) :
    invariant (process.advance config event) := by
  obtain ⟨state,stack⟩ := config
  cases event with
  | start op => exact starts op state stack valid
  | answer value =>
    cases stack with
    | nil => exact valid
    | cons top stack => exact resumes top.1 top.2 value state stack valid

theorem execute_invariant {invariant : Config σ ι φ → Prop}
    (starts : ∀ op state stack, invariant ⟨state,stack⟩ →
      invariant (.after op stack (process.start op state)))
    (resumes : ∀ op frame value state stack, invariant ⟨state,(op,frame) :: stack⟩ →
      invariant (.after op stack (process.resume frame value state)))
    {config : Config σ ι φ} (valid : invariant config) (events : List (Event ι α)) :
    invariant (process.execute events config) := by
  induction events generalizing config with
  | nil => exact valid
  | cons event events previous =>
    exact previous (process.advance_invariant starts resumes valid event)

end Process
end S2Script.Reentrant
