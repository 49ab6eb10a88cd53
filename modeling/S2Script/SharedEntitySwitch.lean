import S2Script.Liveness
import S2Script.Reentrant

/-! Reference counts over an engine switch. The engine call of a first-on or last-off
may run other operations before it answers; `calls` records those that succeeded. -/
namespace S2Script.SharedEntitySwitch

open Liveness Reentrant

structure Key where
  game : String
  call : String
  index : Int
  id : Nat
  slot : Int
  deriving DecidableEq, Hashable

/-- An owner and its token. -/
abbrev Holder := String × String

/-- No holders means the last disable failed and is owed to the engine. -/
structure State where
  books : EntityBooks
  leases : Std.HashMap Key (Finset Holder)
  busy : Finset Key
  epoch : Nat
  calls : List (Key × Bool)

def initial : State := ⟨.new 1,∅,∅,0,[]⟩

abbrev Outcome := Except String Unit

inductive Op where
  | change (owner : String) (key : Key) (token : Option String) (on : Bool)
  | releaseRecorded (owner : String) (key : Key) (token : String)
  | removeOwner (owner : String)
  | clearSlot (slot : Int)
  | retryPending
  | pruneDead
  | created (index serial : Int)
  | spawned (index serial : Int)
  | deleted (index serial : Int)
  | repaired (slots : List (Int × Int))
  | mapTransition

/-- What an operation holds across its engine call: `change` its computed holders
and the epoch it saw, a retry the keys still to visit and the result to end with. -/
inductive Frame where
  | change (key : Key) (next : Finset Holder) (wantOn : Bool) (epoch : Nat)
  | retry (key : Key) (rest : List Key) (result : Outcome)

def Frame.key : Frame → Key
  | .change key _ _ _ => key
  | .retry key _ _ => key

def Frame.wantOn : Frame → Bool
  | .change _ _ wantOn _ => wantOn
  | .retry _ _ _ => false

namespace State

def invalidatePending (s : State) : State := { s with epoch := (s.epoch + 1) % 2 ^ 64 }

def live (s : State) (key : Key) : Bool := s.books.live key.index key.id

/-- The loop over `retry_key`, up to the first key it must call the engine for. -/
def retryKeys : List Key → Outcome → State → State × Flow Frame Outcome
  | [], result, s => (s,.returned result)
  | key :: rest, result, s =>
    if s.leases[key]? ≠ some ∅ then retryKeys rest result s
    else if key ∈ s.busy then retryKeys rest result s
    else if !s.live key then retryKeys rest result { s with leases := s.leases.erase key }
    else ({ s with busy := insert key s.busy },.calls (.retry key rest result))

/-- The holders a change leaves: the token added or dropped, or all of the owner's
dropped when it names none. -/
def nextHolders (owner : String) (token : Option String) (on : Bool) (previous : Finset Holder) :
    Finset Holder :=
  match on, token with
  | true, some token => insert (owner,token) previous
  | false, some token => previous.erase (owner,token)
  | _, none => previous.filter (fun holder => holder.1 ≠ owner)

def change (s : State) (owner : String) (key : Key) (token : Option String) (on : Bool) :
    State × Flow Frame Outcome :=
  if key.slot < 0 then (s,.returned (.error "shared entity switch: needs a player slot"))
  else if on && token.isNone then
    (s,.returned (.error "shared entity switch: acquire needs a token"))
  else if key ∈ s.busy then
    (s,.returned (.error "shared entity switch: transition in progress; retry later"))
  else if !s.live key then
    ({ s with leases := s.leases.erase key },
      .returned (if on then .error "shared entity switch: stale entity" else .ok ()))
  else
    let previous := s.leases[key]?
    let next := nextHolders owner token on (previous.getD ∅)
    let wasOn := previous.isSome
    let wantOn := decide (next ≠ ∅)
    if wasOn = wantOn then
      (if wantOn then { s with leases := s.leases.insert key next } else s,.returned (.ok ()))
    else ({ s with busy := insert key s.busy },.calls (.change key next wantOn s.epoch))

/-- `entry(key).or_default()`. -/
def orDefault (s : State) (key : Key) : State :=
  match s.leases[key]? with
  | some _ => s
  | none => { s with leases := s.leases.insert key ∅ }

/-- The engine's answer: the key is no longer busy, and a success is on record. -/
def answered (s : State) (key : Key) (on : Bool) (result : Outcome) : State :=
  { s with
    busy := s.busy.erase key
    calls := if result.isOk then s.calls ++ [(key,on)] else s.calls }

/-- The rest of `change` after its engine call. -/
def finishChange (s : State) (key : Key) (next : Finset Holder) (wantOn : Bool) (epoch : Nat)
    (result : Outcome) : State × Flow Frame Outcome :=
  let s := s.answered key wantOn result
  if s.epoch ≠ epoch then
    let superseded : Outcome :=
      .error "shared entity switch: lifecycle changed during transition; retry later"
    if wantOn && result.isOk && s.live key then
      retryKeys [key] superseded (s.orDefault key)
    else if !wantOn && result.isOk then
      ({ s with leases := s.leases.erase key },.returned superseded)
    else (s,.returned superseded)
  else match result with
    | .error message =>
      (if !wantOn then { s with leases := s.leases.insert key ∅ } else s,
        .returned (.error message))
    | .ok _ =>
      (if wantOn then { s with leases := s.leases.insert key next }
        else { s with leases := s.leases.erase key },.returned (.ok ()))

/-- The rest of `retry_key` after its engine call, and of the loop around it. -/
def finishRetry (s : State) (key : Key) (rest : List Key) (result : Outcome) (answer : Outcome) :
    State × Flow Frame Outcome :=
  let s := s.answered key false answer
  retryKeys rest result (if answer.isOk then { s with leases := s.leases.erase key } else s)

/-- The keys whose disable is owed, in the map's order. -/
def owedKeys (s : State) : List Key :=
  (s.leases.toList.filter (fun entry => entry.2 = ∅)).map Prod.fst

def retryPending (s : State) : State × Flow Frame Outcome := retryKeys s.owedKeys (.ok ()) s

/-- The book-keeping half of `remove_where`, before its retries. -/
def sweep (s : State) (matching : Key → Holder → Bool) : State :=
  let s := s.invalidatePending
  let leases := s.leases.filter (fun key _ => s.live key)
  { s with
    leases := leases.map (fun key holders => holders.filter (fun holder => !matching key holder)) }

def removeWhere (s : State) (matching : Key → Holder → Bool) : State × Flow Frame Outcome :=
  let s := s.sweep matching
  retryKeys s.owedKeys (.ok ()) s

def clearSlot (s : State) (slot : Int) : State × Flow Frame Outcome :=
  s.removeWhere (fun key _ => key.slot == slot)

def removeOwner (s : State) (owner : String) : State × Flow Frame Outcome :=
  s.removeWhere (fun _ holder => holder.1 == owner)

def reset (s : State) : State := { s.invalidatePending with leases := ∅ }

def pruneDead (s : State) : State :=
  let s := s.invalidatePending
  { s with leases := s.leases.filter (fun key _ => s.live key) }

def onEntityLifecycle (s : State) (index : Int) (retired : Option Nat) : State :=
  let s := s.invalidatePending
  match retired with
  | some id => { s with leases := s.leases.filter (fun key _ => key.index ≠ index || key.id ≠ id) }
  | none => s

/-- A notification to the entity books and the retirement it passes on. -/
def notified (s : State) (index : Int) (books : EntityBooks × Option Nat) : State :=
  { s with books := books.1 }.onEntityLifecycle index books.2

end State

def start : Op → State → State × Flow Frame Outcome
  | .change owner key token on, s => s.change owner key token on
  | .releaseRecorded owner key token, s => s.change owner key (some token) false
  | .removeOwner owner, s => s.removeOwner owner
  | .clearSlot slot, s => s.clearSlot slot
  | .retryPending, s => s.retryPending
  | .pruneDead, s => (s.pruneDead,.returned (.ok ()))
  | .created index serial, s =>
    (s.notified index (s.books.onCreated index serial),.returned (.ok ()))
  | .spawned index serial, s =>
    (s.notified index (s.books.onSpawned index serial),.returned (.ok ()))
  | .deleted index serial, s =>
    (s.notified index (s.books.onDeleted index serial),.returned (.ok ()))
  | .repaired slots, s =>
    ({ s with books := s.books.repairReconcile slots }.pruneDead,.returned (.ok ()))
  | .mapTransition, s => ({ s with books := s.books.clear }.reset,.returned (.ok ()))

def resume : Frame → Outcome → State → State × Flow Frame Outcome
  | .change key next wantOn epoch, answer, s => s.finishChange key next wantOn epoch answer
  | .retry key rest result, answer, s => s.finishRetry key rest result answer

/-- The switch as a re-entrant process; an answer is the engine call's result. -/
def process : Process State Op Frame Outcome Outcome := ⟨start,resume⟩

end S2Script.SharedEntitySwitch
