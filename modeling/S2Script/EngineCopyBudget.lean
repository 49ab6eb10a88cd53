import S2Script.AsyncLimits
import S2Script.Table

/-! Admission of native copies. A budget charges every operation to the row of its owner
generation; handles and leases keep the operation's state alive by counting references.
Each critical section of the budget's mutex and each atomic access is one step. -/
namespace S2Script.EngineFunctionCopy

open AsyncLimits

def MiB : Nat := 1024 * 1024

def ProcessBytes : Nat := 32 * MiB

def OwnerBytes : Nat := 8 * MiB

def OperationBytes : Nat := 8 * MiB

def ProcessItems : Nat := 1024

def OwnerItems : Nat := 128

/-- `sizeof(OperationState)` where a pointer has 64 bits. -/
def operationStateSize : Nat := 32

/-- `sizeof(Budget::Row)` where a pointer has 64 bits. -/
def rowSize : Nat := 64

inductive Domain where
  | engine
  | plugin
  | hostPackage
deriving DecidableEq, Repr

structure StableOwner where
  domain : Domain
  digest : Vector UInt8 32
deriving DecidableEq, Repr

structure OwnerGeneration where
  owner : StableOwner
  generation : Nat
deriving DecidableEq, Repr

def OwnerGeneration.default : OwnerGeneration := ⟨⟨.engine,Vector.replicate 32 0⟩,0⟩

structure Metrics where
  bytes : Nat
  items : Nat
  owners : Nat
  highBytes : Nat
  highItems : Nat
  rejected : Nat

structure Row where
  key : OwnerGeneration
  bytes : Nat
  items : Nat

def Row.default : Row := ⟨.default,0,0⟩

abbrev Index := Fin ProcessItems

structure Budget where
  owners : Index → Row
  metrics : Metrics

def Budget.new : Budget := ⟨fun _ => .default,⟨0,0,0,0,0,0⟩⟩

def Budget.reject (b : Budget) : Budget :=
  { b with metrics := { b.metrics with rejected := b.metrics.rejected + 1 } }

/-- The rows from the first to the last. -/
def scanned : List Index := List.finRange ProcessItems

/-- The scan of `Begin`: the row of the key, or else the first empty row. -/
def seek (owners : Index → Row) (key : OwnerGeneration) : List Index → Option Index → Option Index
  | [], empty => empty
  | i :: rest, empty =>
    if (owners i).items = 0 then seek owners key rest (empty.or (some i))
    else if (owners i).key = key then some i
    else seek owners key rest empty

/-- `charge` of `Begin`: an empty row is paid for by its first operation. -/
def Row.charge (owner : Row) : Nat := operationStateSize + if owner.items = 0 then rowSize else 0

/-- `Budget::Begin`. No result is an underflow; a refusal has no row. -/
def Budget.begin (b : Budget) (key : OwnerGeneration) (allocated : Bool) : Option (Budget × Option Index) :=
  match seek b.owners key scanned none with
  | none => some (b.reject,none)
  | some row => do
    let owner := b.owners row
    let process ← less ProcessBytes b.metrics.bytes
    let own ← less OwnerBytes owner.bytes
    if b.metrics.items = ProcessItems ∨ process < owner.charge ∨ owner.items = OwnerItems ∨ own < owner.charge ∨
        allocated = false then
      pure (b.reject,none)
    else
      let bytes := b.metrics.bytes + owner.charge
      let items := b.metrics.items + 1
      pure ({
        owners := Function.update b.owners row
          { key := if owner.items = 0 then key else owner.key
            bytes := owner.bytes + owner.charge
            items := owner.items + 1 }
        metrics := { b.metrics with
          owners := if owner.items = 0 then b.metrics.owners + 1 else b.metrics.owners
          bytes, items
          highBytes := max b.metrics.highBytes bytes
          highItems := max b.metrics.highItems items } },some row)

/-- `Operation::Reserve` under the lock, for an operation of `held` bytes. -/
def Budget.reserve (b : Budget) (row : Index) (held bytes : Nat) : Option (Budget × Bool) := do
  let operation ← less OperationBytes held
  let own ← less OwnerBytes (b.owners row).bytes
  let process ← less ProcessBytes b.metrics.bytes
  if operation < bytes ∨ own < bytes ∨ process < bytes then pure (b.reject,false)
  else pure ({
    owners := Function.update b.owners row { b.owners row with bytes := (b.owners row).bytes + bytes }
    metrics := { b.metrics with
      bytes := b.metrics.bytes + bytes
      highBytes := max b.metrics.highBytes (b.metrics.bytes + bytes) } },true)

/-- `OperationState::Uncharge` on the row and the process. -/
def Budget.uncharge (b : Budget) (row : Index) (amount : Nat) : Option Budget := do
  let own ← less (b.owners row).bytes amount
  let process ← less b.metrics.bytes amount
  pure {
    owners := Function.update b.owners row { b.owners row with bytes := own }
    metrics := { b.metrics with bytes := process } }

/-- `OperationState::Release` under the lock, after the state was freed. -/
def Budget.settle (b : Budget) (row : Index) : Option Budget := do
  let own ← less (b.owners row).bytes operationStateSize
  let process ← less b.metrics.bytes operationStateSize
  let items ← less b.metrics.items 1
  let left ← less (b.owners row).items 1
  if left = 0 then
    let process ← less process rowSize
    let owners ← less b.metrics.owners 1
    pure {
      owners := Function.update b.owners row .default
      metrics := { b.metrics with bytes := process, items, owners } }
  else
    pure {
      owners := Function.update b.owners row { b.owners row with bytes := own, items := left }
      metrics := { b.metrics with bytes := process, items } }

structure OperationState where
  refs : Nat
  row : Index
  bytes : Nat

structure Lease where
  state : Option Nat
  bytes : Nat

/-- The budget and every object that refers to it. `closing` are the references whose
destructor has not yet counted them off, `settling` the freed states whose charge is not
yet returned. `begun` records the key of each `Begin`. -/
structure World where
  budget : Budget
  states : Table Nat OperationState
  next : Nat
  operations : List (Option Nat)
  leases : List Lease
  closing : List Nat
  settling : List (Nat × Index)
  begun : Nat → OwnerGeneration

def World.new : World := ⟨.new,∅,0,[],[],[],[],fun _ => .default⟩

/-- `Budget::Begin` with the handle it returns. -/
def World.begin (w : World) (key : OwnerGeneration) (allocated : Bool) : Option World := do
  match ← w.budget.begin key allocated with
  | (budget,none) => pure { w with budget }
  | (budget,some row) => pure { w with
      budget
      states := w.states.insert w.next ⟨1,row,operationStateSize⟩
      next := w.next + 1
      operations := w.operations ++ [some w.next]
      begun := Function.update w.begun w.next key }

/-- `OperationState::Retain`. -/
def World.retain (w : World) (id : Nat) : Option World := do
  let s ← w.states.lookup id
  pure { w with states := w.states.insert id { s with refs := s.refs + 1 } }

def World.copyOperation (w : World) (i : Nat) : Option World :=
  match w.operations[i]? with
  | none => some w
  | some none => some { w with operations := w.operations ++ [none] }
  | some (some id) => do
    let w ← w.retain id
    pure { w with operations := w.operations ++ [some id] }

def World.moveOperation (w : World) (i : Nat) : World :=
  match w.operations[i]? with
  | none => w
  | some h => { w with operations := w.operations.set i none ++ [h] }

/-- `std::swap` of two elements. -/
def swapAt {α : Type} (l : List α) (i j : Nat) : List α :=
  match l[i]?,l[j]? with
  | some a,some b => (l.set i b).set j a
  | _,_ => l

def World.swapOperations (w : World) (i j : Nat) : World := { w with operations := swapAt w.operations i j }

/-- `~Operation` up to its `Release`. -/
def World.destroyOperation (w : World) (i : Nat) : World :=
  match w.operations[i]? with
  | none => w
  | some h => { w with operations := w.operations.eraseIdx i, closing := w.closing ++ h.toList }

/-- Copy assignment: a copy, swapped in, that takes the old value with it. -/
def World.assignCopy (w : World) (i j : Nat) : Option World :=
  if i < w.operations.length ∧ j < w.operations.length then do
    let copied ← w.copyOperation j
    pure ((copied.swapOperations i w.operations.length).destroyOperation w.operations.length)
  else some w

def World.assignMove (w : World) (i j : Nat) : World :=
  if i < w.operations.length ∧ j < w.operations.length then
    ((w.moveOperation j).swapOperations i w.operations.length).destroyOperation w.operations.length
  else w

/-- `Operation::Reserve` with the lease it returns. -/
def World.reserve (w : World) (i bytes : Nat) : Option World :=
  match w.operations[i]? with
  | some (some id) => do
    let s ← w.states.lookup id
    match ← w.budget.reserve s.row s.bytes bytes with
    | (budget,false) => pure { w with budget }
    | (budget,true) => pure { w with
        budget
        states := w.states.insert id ⟨s.refs + 1,s.row,s.bytes + bytes⟩
        leases := w.leases ++ [⟨some id,bytes⟩] }
  | _ => some w

/-- The move constructor leaves the size in the lease it empties. -/
def World.moveLease (w : World) (i : Nat) : World :=
  match w.leases[i]? with
  | none => w
  | some l => { w with leases := w.leases.set i ⟨none,l.bytes⟩ ++ [l] }

def World.swapLeases (w : World) (i j : Nat) : World := { w with leases := swapAt w.leases i j }

/-- `~Lease` up to its `Release`. -/
def World.destroyLease (w : World) (i : Nat) : Option World :=
  match w.leases[i]? with
  | none => some w
  | some ⟨none,_⟩ => some { w with leases := w.leases.eraseIdx i }
  | some ⟨some id,amount⟩ => do
    let s ← w.states.lookup id
    let bytes ← less s.bytes amount
    let budget ← w.budget.uncharge s.row amount
    pure { w with
      budget
      states := w.states.insert id { s with bytes }
      leases := w.leases.eraseIdx i
      closing := w.closing ++ [id] }

def World.assignLease (w : World) (i j : Nat) : Option World :=
  if i < w.leases.length ∧ j < w.leases.length then
    ((w.moveLease j).swapLeases i w.leases.length).destroyLease w.leases.length
  else some w

/-- `fetch_sub` of `OperationState::Release`; the last reference frees the state. -/
def World.release (w : World) (i : Nat) : Option World :=
  match w.closing[i]? with
  | none => some w
  | some id => do
    let s ← w.states.lookup id
    let refs ← less s.refs 1
    if refs = 0 then
      pure { w with
        states := w.states.erase id
        closing := w.closing.eraseIdx i
        settling := w.settling ++ [(id,s.row)] }
    else
      pure { w with
        states := w.states.insert id { s with refs }
        closing := w.closing.eraseIdx i }

def World.settle (w : World) (i : Nat) : Option World :=
  match w.settling[i]? with
  | none => some w
  | some (_,row) => do
    let budget ← w.budget.settle row
    pure { w with budget, settling := w.settling.eraseIdx i }

inductive Action where
  | begin (key : OwnerGeneration) (allocated : Bool)
  | emptyOperation
  | copyOperation (i : Nat)
  | moveOperation (i : Nat)
  | assignCopy (i j : Nat)
  | assignMove (i j : Nat)
  | destroyOperation (i : Nat)
  | reserve (i bytes : Nat)
  | emptyLease
  | moveLease (i : Nat)
  | assignLease (i j : Nat)
  | destroyLease (i : Nat)
  | release (i : Nat)
  | settle (i : Nat)

/-- One step of any thread. A step that names no object does nothing; no result is an
underflow or an access to a freed state. -/
def World.step (w : World) : Action → Option World
  | .begin key allocated => w.begin key allocated
  | .emptyOperation => some { w with operations := w.operations ++ [none] }
  | .copyOperation i => w.copyOperation i
  | .moveOperation i => some (w.moveOperation i)
  | .assignCopy i j => w.assignCopy i j
  | .assignMove i j => some (w.assignMove i j)
  | .destroyOperation i => some (w.destroyOperation i)
  | .reserve i bytes => w.reserve i bytes
  | .emptyLease => some { w with leases := w.leases ++ [⟨none,0⟩] }
  | .moveLease i => some (w.moveLease i)
  | .assignLease i j => w.assignLease i j
  | .destroyLease i => w.destroyLease i
  | .release i => w.release i
  | .settle i => w.settle i

def run : List Action → World → Option World
  | [], w => some w
  | action :: actions, w => do
    let w ← w.step action
    run actions w

end S2Script.EngineFunctionCopy
