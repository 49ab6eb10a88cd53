import S2Script.EngineCopyBudget
import S2Script.Probing

/-! The permanent intern arena: a batch of copied values is planned against the published slots
and the batch's own tentative ones, charged to the owners that introduce them, and published
as a whole or not at all. The mapping's mutex makes a batch one step. -/
namespace S2Script.EngineCopyArena

open EngineFunctionCopy (StableOwner Domain MiB)
open Probing (Cell Found search)

def MaxString : Nat := 65535

def MaxBatch : Nat := 33

def PayloadBytes : Nat := 14 * MiB

def InternSlots : Nat := 65536

def MaxValues : Nat := 32768

def PermanentOwners : Nat := 1024

def OwnerPayload : Nat := 4 * MiB

def OwnerValues : Nat := 8192

def align16 (n : Nat) : Nat := (n + 15) / 16 * 16

inductive Kind where
  | string
  | vector
deriving DecidableEq, Repr

def Kind.code : Kind → UInt64
  | .string => 1
  | .vector => 2

/-- What a `Snapshot` with a block holds. -/
structure Value where
  kind : Kind
  bytes : List UInt8
deriving DecidableEq, Repr

/-- The exponent of a little-endian `float` from its upper two bytes. -/
def finite (b2 b3 : UInt8) : Bool := b3.toNat % 128 * 2 + b2.toNat / 128 ≠ 255

/-- The continuation bytes of a code point. -/
def continued : Nat → Nat → List UInt8 → Option (Nat × List UInt8)
  | 0, cp, rest => some (cp,rest)
  | _ + 1, _, [] => none
  | count + 1, cp, next :: rest =>
    if next.toNat / 64 = 2 then continued count (cp * 64 + next.toNat % 64) rest else none

/-- How many continuation bytes follow a leading byte, the least code point they may spell and its first bits. -/
def leading (b : Nat) : Option (Nat × Nat × Nat) :=
  if 0xc2 ≤ b ∧ b ≤ 0xdf then some (1,0x80,b % 32)
  else if 0xe0 ≤ b ∧ b ≤ 0xef then some (2,0x800,b % 16)
  else if 0xf0 ≤ b ∧ b ≤ 0xf4 then some (3,0x10000,b % 8)
  else none

/-- Canonical UTF-8 without NUL; every round takes at least a byte off the text. -/
def canonical : Nat → List UInt8 → Bool
  | _, [] => true
  | 0, _ :: _ => false
  | fuel + 1, b :: rest =>
    if b = 0 then false
    else if b < 0x80 then canonical fuel rest
    else match leading b.toNat with
      | none => false
      | some (count,minimum,bits) =>
        match continued count bits rest with
        | none => false
        | some (cp,rest) =>
          if cp < minimum ∨ 0x10ffff < cp ∨ 0xd800 ≤ cp ∧ cp ≤ 0xdfff then false else canonical fuel rest

def Value.Valid (v : Value) : Bool :=
  match v.kind with
  | .vector =>
    match v.bytes with
    | [_,_,x2,x3,_,_,y2,y3,_,_,z2,z3] => finite x2 x3 && finite y2 y3 && finite z2 z3
    | _ => false
  | .string => v.bytes.length ≤ MaxString && canonical v.bytes.length v.bytes

/-- Payload a value takes: its bytes, the NUL of a string, and the padding. -/
def Value.capacity (v : Value) : Nat := align16 (v.bytes.length + if v.kind = .string then 1 else 0)

/-- The bytes at a value's address, zeros behind them. -/
def Value.byte (v : Value) (i : Nat) : UInt8 := v.bytes.getD i 0

/-- FNV-1a over the kind and the bytes. -/
def Hash (v : Value) : UInt64 :=
  v.bytes.foldl (fun hash b => (hash ^^^ b.toUInt64) * 1099511628211) (14695981039346656037 ^^^ v.kind.code)

structure Slot where
  hash : UInt64
  offset : Nat
  length : Nat
  kind : Kind
deriving DecidableEq, Repr

/-- `Equal`, against the bytes at an address. -/
def Slot.equal (entry : Slot) (v : Value) (hash : UInt64) (bytes : Nat → UInt8) : Bool :=
  entry.kind = v.kind && entry.hash = hash && entry.length = v.bytes.length &&
    (List.range v.bytes.length).map bytes = v.bytes

structure PermanentOwner where
  key : StableOwner
  bytes : Nat
  values : Nat

structure PermanentMetrics where
  bytes : Nat
  values : Nat
  owners : Nat
  rejected : Nat

abbrev Row := Fin PermanentOwners

/-- The mapping: `Metadata` and the payload behind it. A pointer is an offset into the payload;
no slot stands for `Kind{}`. -/
structure Arena where
  mapped : Bool
  metrics : PermanentMetrics
  slots : Nat → Option Slot
  owners : Row → PermanentOwner
  payload : Nat → UInt8

def Arena.new (mapped : Bool) : Arena :=
  ⟨mapped,⟨0,0,0,0⟩,fun _ => none,fun _ => ⟨⟨.engine,Vector.replicate 32 0⟩,0,0⟩,fun _ => 0⟩

structure Pending where
  entry : Slot
  slot : Nat
  source : Value
  owner : StableOwner

structure OwnerCharge where
  key : StableOwner
  row : Row
  bytes : Nat
  values : Nat

structure Stage where
  entries : List Pending
  outputs : List Nat
  owners : List OwnerCharge
  bytes : Nat

def Stage.new : Stage := ⟨[],[],[],0⟩

/-- Why a batch ends. Only a `reject` is counted; `endless` is a probe loop that does not end. -/
inductive Refusal where
  | invalid
  | reject (reason : String)
  | endless
deriving DecidableEq, Repr

/-- One probe of a value: a published slot, else a tentative one of the batch. -/
def look (a : Arena) (stage : Stage) (v : Value) (hash : UInt64) (index : Nat) : Cell Nat :=
  match a.slots index with
  | some slot => if slot.equal v hash fun i => a.payload (slot.offset + i) then .hit slot.offset else .miss
  | none =>
    match stage.entries.find? fun p => p.slot = index with
    | some staged => if staged.entry.equal v hash staged.source.byte then .hit staged.entry.offset else .miss
    | none => .free

/-- The plan for one value of the batch. -/
def stageValue (hash : Value → UInt64) (a : Arena) (stage : Stage) (key : StableOwner) (value : Option Value) :
    Except Refusal Stage :=
  match value with
  | none => .error .invalid
  | some v =>
    if v.Valid = false then .error .invalid
    else match search (look a stage v (hash v)) InternSlots InternSlots ((hash v).toNat % InternSlots) with
      | none => .error .endless
      | some (.hit offset) => .ok { stage with outputs := stage.outputs ++ [offset] }
      | some (.free index) =>
        if a.metrics.values + stage.entries.length = MaxValues then .error (.reject "value count")
        else if PayloadBytes - a.metrics.bytes - stage.bytes < v.capacity then .error (.reject "global payload")
        else
          let offset := a.metrics.bytes + stage.bytes
          .ok { stage with
            entries := stage.entries ++ [⟨⟨hash v,offset,v.bytes.length,v.kind⟩,index,v,key⟩]
            bytes := stage.bytes + v.capacity
            outputs := stage.outputs ++ [offset] }

def plan (hash : Value → UInt64) (a : Arena) : List (StableOwner × Option Value) → Stage → Except Refusal Stage
  | [], stage => .ok stage
  | (key,value) :: rest, stage => do
    let stage ← stageValue hash a stage key value
    plan hash a rest stage

/-- The rows from the first to the last. -/
@[irreducible]
def rows : List Row := List.finRange PermanentOwners

/-- The row of an owner, or else the first empty row that the batch has not reserved. -/
def seekRow (owners : Row → PermanentOwner) (charges : List OwnerCharge) (key : StableOwner) :
    List Row → Option Row → Option Row
  | [], empty => empty
  | i :: rest, empty =>
    if (owners i).values = 0 then
      seekRow owners charges key rest (if charges.any fun c => c.row = i then empty else empty.or (some i))
    else if (owners i).key = key then some i
    else seekRow owners charges key rest empty

/-- A charge with one more value, if its row has room for it. -/
def OwnerCharge.add (c : OwnerCharge) (a : Arena) (v : Value) : Except Refusal OwnerCharge :=
  let charge := { c with bytes := c.bytes + v.capacity, values := c.values + 1 }
  if OwnerPayload - (a.owners c.row).bytes < charge.bytes then .error (.reject "owner payload")
  else if OwnerValues - (a.owners c.row).values < charge.values then .error (.reject "owner values")
  else .ok charge

/-- Charge a pending entry to its owner, found from a charge of the batch on. -/
def chargeFrom (a : Arena) (charges : List OwnerCharge) (p : Pending) :
    List OwnerCharge → Except Refusal (List OwnerCharge)
  | [] =>
    match seekRow a.owners charges p.owner rows none with
    | none => .error (.reject "owner rows")
    | some row => do
      let charge ← OwnerCharge.add ⟨p.owner,row,0,0⟩ a p.source
      pure [charge]
  | c :: rest =>
    if c.key = p.owner then do
      let charge ← c.add a p.source
      pure (charge :: rest)
    else do
      let rest ← chargeFrom a charges p rest
      pure (c :: rest)

def chargeAll (a : Arena) : List Pending → List OwnerCharge → Except Refusal (List OwnerCharge)
  | [], charges => .ok charges
  | p :: rest, charges => do
    let charges ← chargeFrom a charges p charges
    chargeAll a rest charges

/-- `memset`, `memcpy` and the slot of one entry. -/
def Arena.writeEntry (a : Arena) (p : Pending) : Arena :=
  { a with
    payload := fun i =>
      if p.entry.offset ≤ i ∧ i < p.entry.offset + p.source.capacity then p.source.byte (i - p.entry.offset)
      else a.payload i
    slots := Function.update a.slots p.slot (some p.entry) }

def Arena.writeOwner (a : Arena) (c : OwnerCharge) : Arena :=
  let row := a.owners c.row
  { a with
    owners := Function.update a.owners c.row
      ⟨if row.values = 0 then c.key else row.key,row.bytes + c.bytes,row.values + c.values⟩
    metrics := { a.metrics with owners := if row.values = 0 then a.metrics.owners + 1 else a.metrics.owners } }

/-- Publication of a staged batch. -/
def Arena.commit (a : Arena) (stage : Stage) : Arena :=
  let written := stage.owners.foldl Arena.writeOwner (stage.entries.foldl Arena.writeEntry a)
  { written with metrics := { written.metrics with
      bytes := written.metrics.bytes + stage.bytes
      values := written.metrics.values + stage.entries.length } }

def Arena.reject (a : Arena) : Arena := { a with metrics := { a.metrics with rejected := a.metrics.rejected + 1 } }

/-- A call: whether its pointers are there, the batch, and how the admission of its staging and
the allocation end. -/
structure Call where
  present : Bool
  batch : List (StableOwner × Option Value)
  admission : Option String
  allocated : Bool

/-- The whole plan of a batch. -/
def stageBatch (hash : Value → UInt64) (a : Arena) (batch : List (StableOwner × Option Value)) : Except Refusal Stage := do
  let stage ← plan hash a batch .new
  let owners ← chargeAll a stage.entries []
  pure { stage with owners }

/-- `Arena::Intern` with the staged batch whose outputs the caller receives. No result is a
probe loop that does not end. -/
def Arena.intern (hash : Value → UInt64) (a : Arena) (call : Call) : Option (Arena × Except String Stage) :=
  if a.mapped = false then some (a,.error "FunctionCopyLifetimeUnsupported: resident arena mapping unavailable")
  else if MaxBatch < call.batch.length ∨ call.batch ≠ [] ∧ call.present = false then
    some (a,.error "FunctionCopyLifetimeUnsupported: invalid copied batch")
  else if call.batch = [] then some (a,.ok .new)
  else match call.admission with
    | some error => some (a,.error error)
    | none =>
      if call.allocated = false then
        some (a,.error "FunctionCopyBudgetExceeded: publication staging allocation")
      else match stageBatch hash a call.batch with
        | .error .endless => none
        | .error .invalid => some (a,.error "FunctionCopyLifetimeUnsupported: invalid copied batch value")
        | .error (.reject reason) => some (a.reject,.error ("FunctionCopyPermanentBudgetExceeded: " ++ reason))
        | .ok stage => some (a.commit stage,.ok stage)

/-- The arena, the entries it published in order, and every pointer it returned with its value. -/
structure World where
  arena : Arena
  published : List Pending
  returned : List (Value × Nat)

def World.new (mapped : Bool) : World := ⟨.new mapped,[],[]⟩

def World.step (hash : Value → UInt64) (w : World) (call : Call) : Option World := do
  match ← w.arena.intern hash call with
  | (arena,.error _) => pure { w with arena }
  | (arena,.ok stage) => pure ⟨arena,w.published ++ stage.entries,
      w.returned ++ (call.batch.filterMap Prod.snd).zip stage.outputs⟩

def run (hash : Value → UInt64) : List Call → World → Option World
  | [], w => some w
  | call :: calls, w => do
    let w ← w.step hash call
    run hash calls w

end S2Script.EngineCopyArena
