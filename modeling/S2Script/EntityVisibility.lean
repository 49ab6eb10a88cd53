import S2Script.FoldTable

/-! Per-entity visibility. The host keeps what each plugin asked for; the shim keeps one merged
mask for an entity and, once it knows which client a snapshot entry is for, clears the entity's
bit for every viewer the mask leaves out. -/
namespace S2Script.EntityVisibility

/-- One plugin's rule: the entity's serial and the viewers it may be sent to. -/
structure TransmitRule where
  serial : Int
  mask : BitVec 64
deriving DecidableEq

instance : AndFold TransmitRule := ⟨fun rule other => ⟨other.serial,rule.mask &&& other.mask⟩⟩

/-- Networkable entities. -/
def maxEdicts : Nat := 16384

def transmitTableCap : Nat := 4096

def maxClientSlots : Nat := 64

def signonNone : Nat := 0

def signonFull : Nat := 6

/-- Snapshots that may leave the layout open. -/
def validateMaxAttempts : Nat := 512

inductive LayoutState
  | pending
  | validated
  | failed
deriving DecidableEq

/-- The entities a client is about to be sent. -/
abbrev TransmitBits := Nat → Bool

def clearBit (bits : TransmitBits) (index : Nat) : TransmitBits := fun other => bits other && other != index

/-- One entry of a snapshot: the integer at the client offset and the bits it points at. -/
structure Info where
  client : Int
  transmitEntity : Option TransmitBits

/-- The shim's side: whether its hook stands, what it knows of the layout, the merged rules and
the phase of each client slot. -/
structure Shim where
  hookInstalled : Bool
  layoutState : LayoutState
  clientIsEntIndex : Bool
  validateAttempts : Nat
  transmitTable : Table Int TransmitRule
  trackedSignon : Nat → Nat

namespace Shim

/-- Take the merged mask of a live entity. -/
def transmitSet (shim : Shim) (resolves : Int → Int → Bool) (index serial : Int) (mask : BitVec 64) : Shim × Bool :=
  if !shim.hookInstalled || shim.layoutState = .failed then (shim,false)
  else if index < 0 || serial < 0 then (shim,false)
  else if maxEdicts ≤ index then (shim,false)
  else if !resolves index serial then (shim,false)
  else if (shim.transmitTable.lookup index).isNone && transmitTableCap ≤ Table.size shim.transmitTable then (shim,false)
  else ({ shim with transmitTable := shim.transmitTable.insert index ⟨serial,mask⟩ },true)

def transmitClear (shim : Shim) (index : Int) : Shim :=
  { shim with transmitTable := shim.transmitTable.erase index }

/-- A slot whose client is tracked. -/
def tracked (shim : Shim) (slot : Int) : Bool :=
  0 ≤ slot && slot < maxClientSlots && shim.trackedSignon slot.toNat != signonNone

def anyTracked (shim : Shim) : Bool := (List.range maxClientSlots).any fun slot => shim.trackedSignon slot != signonNone

/-- What the readable entries of one snapshot say of the client integer. -/
structure Tally where
  slotWitness : Nat
  entWitness : Nat
  sane : Nat

/-- One entry read; a value outside any client's range ends the count. -/
def tallyInfo (shim : Shim) (tally : Tally) (info : Option Info) : Option Tally :=
  match info with
  | none => some tally
  | some info =>
    if info.transmitEntity.isNone then some tally
    else if info.client < 0 || 128 < info.client then none
    else
      let slotOk := shim.tracked info.client
      let entOk := shim.tracked (info.client - 1)
      some ⟨tally.slotWitness + (slotOk && !entOk).toNat,tally.entWitness + (entOk && !slotOk).toNat,tally.sane + 1⟩

inductive Verdict
  | mismatch
  | undecided
  | witnessed (clientIsEntIndex : Bool)
  | agreed
deriving DecidableEq

/-- Decide what the client integer means, by the clients only one reading can name. -/
def validateLayout (shim : Shim) (infos : List (Option Info)) : Verdict :=
  match infos.foldlM shim.tallyInfo ⟨0,0,0⟩ with
  | none => .mismatch
  | some tally =>
    if 0 < tally.slotWitness && tally.entWitness = 0 then .witnessed false
    else if 0 < tally.entWitness && tally.slotWitness = 0 then .witnessed true
    else if 0 < tally.sane then .agreed
    else .undecided

/-- A snapshot before the layout is known: it is read and not changed. -/
def observe (shim : Shim) (infos : List (Option Info)) : Shim :=
  if !shim.anyTracked then shim
  else match shim.validateLayout infos with
    | .witnessed entIndex => { shim with layoutState := .validated, clientIsEntIndex := entIndex }
    | .agreed => { shim with layoutState := .validated, clientIsEntIndex := false }
    | .mismatch => { shim with layoutState := .failed, transmitTable := ∅ }
    | .undecided =>
      let attempts := shim.validateAttempts + 1
      if validateMaxAttempts ≤ attempts then
        { shim with validateAttempts := attempts, layoutState := .failed, transmitTable := ∅ }
      else { shim with validateAttempts := attempts }

/-- The fully signed-on client an entry is for. -/
def viewer (shim : Shim) (info : Info) : Option Nat :=
  let slot := if shim.clientIsEntIndex then info.client - 1 else info.client
  if slot < 0 || maxClientSlots ≤ slot then none
  else if shim.trackedSignon slot.toNat != signonFull then none
  else some slot.toNat

/-- Clear one entity's bit where the mask leaves the viewer out. -/
def filterInfo (shim : Shim) (index : Nat) (mask : BitVec 64) (info : Info) : Info :=
  match shim.viewer info with
  | none => info
  | some slot =>
    if mask.getLsbD slot then info
    else { info with transmitEntity := info.transmitEntity.map fun bits => clearBit bits index }

/-- Entries whose entity is still the one they were made for. -/
def standing (resolves : Int → Int → Bool) (index : Int) (entry : TransmitRule) : Bool :=
  0 ≤ index && index < maxEdicts && resolves index entry.serial

def prune (shim : Shim) (resolves : Int → Int → Bool) : Shim :=
  { shim with transmitTable := shim.transmitTable.retain (standing resolves) }

def applyRules (shim : Shim) (infos : List (Option Info)) : List (Option Info) :=
  shim.transmitTable.entries.foldl (fun infos entry =>
    infos.map (Option.map (shim.filterInfo entry.1.toNat entry.2.mask))) infos

/-- One question put to the plugins: whose snapshot, which entity, which viewer, and the answer. -/
structure Ask where
  position : Nat
  index : Nat
  serial : Int
  slot : Nat
  result : Int

/-- The plugins' hooks on sending an entity: the hooked entities, and what the callbacks answer
after the questions put so far. -/
structure SetTransmit where
  active : Bool
  hooked : List (Int × Int)
  answer : List Ask → Int × Int → Nat → Int

/-- Handled, or more. -/
def hides (result : Int) : Bool := 2 ≤ result

def askEntity (hooks : SetTransmit) (position slot : Nat) (state : TransmitBits × List Ask) (pair : Int × Int) :
    TransmitBits × List Ask :=
  if pair.1 < 0 || maxEdicts ≤ pair.1 then state
  else if !state.1 pair.1.toNat then state
  else
    let ask : Ask := ⟨position,pair.1.toNat,pair.2,slot,hooks.answer state.2 pair slot⟩
    (if hides ask.result then clearBit state.1 ask.index else state.1,state.2 ++ [ask])

def askInfo (shim : Shim) (hooks : SetTransmit) (position : Nat) (info : Info) (asked : List Ask) : Info × List Ask :=
  match shim.viewer info,info.transmitEntity with
  | some slot,some bits =>
    let state := (hooks.hooked.take maxEdicts).foldl (askEntity hooks position slot) (bits,asked)
    ({ info with transmitEntity := some state.1 },state.2)
  | _,_ => (info,asked)

/-- The plugins' turn, entry by entry. -/
def askInfos (shim : Shim) (hooks : SetTransmit) : Nat → List (Option Info) → List Ask → List (Option Info) × List Ask
  | _,[],asked => ([],asked)
  | position,none :: rest,asked =>
    let later := askInfos shim hooks (position + 1) rest asked
    (none :: later.1,later.2)
  | position,some info :: rest,asked =>
    let here := askInfo shim hooks position info asked
    let later := askInfos shim hooks (position + 1) rest here.2
    (some here.1 :: later.1,later.2)

/-- One snapshot, after the engine has built it. -/
def checkTransmit (shim : Shim) (resolves : Int → Int → Bool) (hooks : SetTransmit) (infos : List (Option Info)) :
    Shim × List (Option Info) × List Ask :=
  if infos.isEmpty then (shim,infos,[])
  else match shim.layoutState with
    | .pending => (shim.observe infos,infos,[])
    | .failed => (shim,infos,[])
    | .validated =>
      if Table.size shim.transmitTable = 0 && !hooks.active then (shim,infos,[])
      else
        let pruned := shim.prune resolves
        let filtered := pruned.applyRules infos
        if hooks.active then (pruned,pruned.askInfos hooks 0 filtered [])
        else (pruned,filtered,[])

end Shim

/-- Host, shim and engine. `engineOps` says that the shim handed its operations over;
`resolves` is the engine's answer for an index and a serial. -/
structure System where
  engineOps : Bool
  rules : FoldTable Int TransmitRule
  shim : Shim
  resolves : Int → Int → Bool

namespace System

/-- The viewer slots as a mask; none of them may lie outside it. -/
def viewerMask (viewers : List Int) : Option (BitVec 64) :=
  viewers.foldlM (fun (mask : BitVec 64) (slot : Int) => if 0 ≤ slot ∧ slot < 64 then some (mask ||| 1#64 <<< slot.toNat) else none) 0#64

/-- Push the merge of an index, or its absence. -/
def recomputeAndPush (system : System) (index : Int) : System :=
  if !system.engineOps then system
  else match system.rules.merged index with
    | some rule => { system with shim := (system.shim.transmitSet system.resolves index rule.serial rule.mask).1 }
    | none => { system with shim := system.shim.transmitClear index }

/-- `__s2_transmit_set`: push the candidate merge first, keep the rule only if it was taken. -/
def transmitSet (system : System) (owner : String) (index serial : Int) (viewers : List Int) : System × Bool :=
  match viewerMask viewers with
  | none => (system,false)
  | some mask =>
    let merged := system.rules.foldExcept owner index (⟨serial,mask⟩ : TransmitRule) fun rule => rule.serial = serial
    if !system.engineOps then (system,false)
    else
      let pushed := system.shim.transmitSet system.resolves index serial merged.mask
      if !pushed.2 then ({ system with shim := pushed.1 },false)
      else
        let evicted := system.rules.evictAt index fun rule => rule.serial ≠ serial
        ({ system with shim := pushed.1, rules := evicted.insert owner index ⟨serial,mask⟩ },true)

/-- `__s2_transmit_reset`: drop the caller's rule, if it was made for this entity. -/
def transmitReset (system : System) (owner : String) (index serial : Int) : System × Bool :=
  if ((system.rules.get owner index).map TransmitRule.serial) = some serial then
    (({ system with rules := (system.rules.remove owner index).1 } : System).recomputeAndPush index,true)
  else (system,false)

/-- `__s2_transmit_reset_all` and a plugin's teardown. -/
def removeOwner (system : System) (owner : String) : System :=
  let removed := system.rules.removeOwner owner
  removed.2.foldl recomputeAndPush { system with rules := removed.1 }

inductive Event
  | transmitSet (owner : String) (index serial : Int) (viewers : List Int)
  | transmitReset (owner : String) (index serial : Int)
  | removeOwner (owner : String)
  | signon (slot phase : Nat)
  | snapshot (hooks : Shim.SetTransmit) (infos : List (Option Info))

def step (system : System) : Event → System
  | .transmitSet owner index serial viewers => (system.transmitSet owner index serial viewers).1
  | .transmitReset owner index serial => (system.transmitReset owner index serial).1
  | .removeOwner owner => system.removeOwner owner
  | .signon slot phase =>
    { system with shim := { system.shim with trackedSignon := Function.update system.shim.trackedSignon slot phase } }
  | .snapshot hooks infos => { system with shim := (system.shim.checkTransmit system.resolves hooks infos).1 }

/-- A shim that has just loaded. -/
def load (engineOps hookInstalled : Bool) (trackedSignon : Nat → Nat) (resolves : Int → Int → Bool) : System where
  engineOps := engineOps
  rules := .new
  shim := ⟨hookInstalled,.pending,false,0,∅,trackedSignon⟩
  resolves := resolves

/-- Runs of allowed events, with the entities that have gone. A serial that once stood for an
entity does not come back when the entity is gone. -/
inductive Reachable (allowed : System → Event → Prop) : (Int → Int → Prop) → System → Prop
  | load (engineOps hookInstalled : Bool) (trackedSignon : Nat → Nat) (resolves : Int → Int → Bool) :
    Reachable allowed (fun _ _ => False) (load engineOps hookInstalled trackedSignon resolves)
  | step {gone : Int → Int → Prop} {system : System} {event : Event} (permitted : allowed system event) :
    Reachable allowed gone system → Reachable allowed gone (system.step event)
  | world {gone : Int → Int → Prop} {system : System} (resolves : Int → Int → Bool) :
    (∀ index serial, gone index serial → resolves index serial = false) → Reachable allowed gone system →
    Reachable allowed (fun index serial => gone index serial ∨
      system.resolves index serial = true ∧ resolves index serial = false) { system with resolves := resolves }

end System

end S2Script.EntityVisibility
