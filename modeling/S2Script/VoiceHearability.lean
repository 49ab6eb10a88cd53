import S2Script.FoldTable
import S2Script.Liveness

/-! Who hears whom. The engine asks before it lets a receiver listen to a sender; a hook in front
of it says no where the sender is muted or the plugins' rules for the sender leave the receiver
out. The host keeps the rules, the shim the merged mask of each sender. -/
namespace S2Script.VoiceHearability

open Liveness

def maxClientSlots : Nat := 64

def signonNone : Nat := 0

def signonConnected : Nat := 2

/-- The shim's arrays, by slot. A sender without its bit in `hasRule` is left to the engine. -/
structure Shim where
  listenHookInstalled : Bool
  listenSeen : Bool
  listenValidated : Bool
  listenDegraded : Bool
  muted : Nat → Bool
  audible : Nat → BitVec 64
  hasRule : BitVec 64
  trackedSignon : Nat → Nat

/-- A slot's bit. -/
def slotBit (slot : Nat) : BitVec 64 := 1#64 <<< slot

namespace Shim

def inRange (slot : Int) : Bool := 0 ≤ slot && slot < maxClientSlots

def clientValid (shim : Shim) (slot : Nat) : Bool := signonConnected ≤ shim.trackedSignon slot

/-- Take the merged mask of a sender. -/
def audibleSet (shim : Shim) (sender : Int) (mask : BitVec 64) : Shim × Bool :=
  if !shim.listenHookInstalled || shim.listenDegraded then (shim,false)
  else if !inRange sender then (shim,false)
  else ({ shim with
    audible := Function.update shim.audible sender.toNat mask, hasRule := shim.hasRule ||| slotBit sender.toNat },true)

def audibleClear (shim : Shim) (sender : Int) : Shim :=
  if !shim.listenHookInstalled || shim.listenDegraded then shim
  else if !inRange sender then shim
  else { shim with
    audible := Function.update shim.audible sender.toNat 0, hasRule := shim.hasRule &&& ~~~slotBit sender.toNat }

/-- The client of a slot is gone, and with it what was known of it. -/
def clearClientSlotState (shim : Shim) (slot : Int) : Shim :=
  if !inRange slot then shim
  else { shim with
    trackedSignon := Function.update shim.trackedSignon slot.toNat signonNone,
    muted := Function.update shim.muted slot.toNat false,
    audible := Function.update shim.audible slot.toNat 0, hasRule := shim.hasRule &&& ~~~slotBit slot.toNat }

/-- The first call of the engine: slots out of range mean that it is not the call expected. -/
def firstFire (shim : Shim) (receiver sender : Int) : Shim :=
  if shim.listenSeen then shim
  else { shim with
    listenSeen := true,
    listenDegraded := shim.listenDegraded ||
      (receiver < -1 || maxClientSlots ≤ receiver || sender < -1 || maxClientSlots ≤ sender) }

/-- Whether a listen is turned down: a mute wins, then the sender's rule, which cannot speak of a
receiver that is no slot. -/
def denies (shim : Shim) (receiver sender : Int) : Bool :=
  if shim.muted sender.toNat then true
  else if shim.hasRule.getLsbD sender.toNat then
    inRange receiver && !(shim.audible sender.toNat).getLsbD receiver.toNat
  else false

/-- The hook in front of the engine: the shim after the call, and what the engine then stores. -/
def setClientListening (shim : Shim) (receiver sender : Int) (listen : Bool) : Shim × Bool :=
  let shim := shim.firstFire receiver sender
  if !shim.listenDegraded && listen && inRange sender then (shim,!shim.denies receiver sender) else (shim,listen)

end Shim

/-- Host, shim and engine. `cells` is the engine's listen matrix, by owner and bit. -/
structure System where
  engineOps : Bool
  engineCallsOk : Bool
  rules : FoldTable Int (BitVec 64)
  connections : LiveTable Int Unit
  shim : Shim
  cells : Int → Int → Bool

namespace System

/-- A call of the engine's setter, through the hook where it stands. It writes the sender's cell. -/
def setClientListening (system : System) (receiver sender : Int) (listen : Bool) : System :=
  let call := if system.shim.listenHookInstalled then system.shim.setClientListening receiver sender listen
    else (system.shim,listen)
  { system with
    shim := call.1,
    cells := fun owner bit => if owner = sender ∧ bit = receiver then call.2 else system.cells owner bit }

/-- The engine's getter, which reads the first argument's cell. -/
def getClientListening (system : System) (owner bit : Int) : Bool := system.cells owner bit

/-- The first two occupied slots that no mute covers. -/
def validationSlots (shim : Shim) : Option (Nat × Nat) :=
  match (List.range maxClientSlots).filter fun slot => shim.clientValid slot && !shim.muted slot with
  | first :: second :: _ => some (first,second)
  | _ => none

/-- Flip one listen bit and back through the setter, and read it with the getter. -/
def maybeValidateVoiceListening (system : System) : System :=
  if system.shim.listenValidated || system.shim.listenDegraded || !system.shim.listenHookInstalled then system
  else if !system.engineCallsOk then system
  else match validationSlots system.shim with
    | none => system
    | some (first,second) =>
      let orig := system.getClientListening second first
      let there := system.setClientListening first second !orig
      let flipped := there.getClientListening second first
      let back := there.setClientListening first second orig
      let restored := back.getClientListening second first
      if flipped == !orig && restored == orig then { back with shim := { back.shim with listenValidated := true } }
      else { back with shim := { back.shim with listenDegraded := true } }

/-- Record a mute and, once the engine's calls are proven, silence the sender at once. -/
def voiceSetMuted (system : System) (slot : Int) (muted : Bool) : System × Bool :=
  if !Shim.inRange slot then (system,false)
  else
    let recorded := { system with shim := { system.shim with muted := Function.update system.shim.muted slot.toNat muted } }
    if !recorded.shim.listenHookInstalled || recorded.shim.listenDegraded then (recorded,false)
    else if muted && recorded.shim.listenValidated then
      ((List.range maxClientSlots).foldl (fun (system : System) (receiver : Nat) =>
        if (receiver : Int) = slot || !system.shim.clientValid receiver then system
        else system.setClientListening receiver slot false) recorded,true)
    else (recorded,true)

/-- The receiver slots as a mask; none of them may lie outside it. -/
def receiverMask (receivers : List Int) : Option (BitVec 64) :=
  receivers.foldlM (fun (mask : BitVec 64) (slot : Int) =>
    if 0 ≤ slot ∧ slot < 64 then some (mask ||| slotBit slot.toNat) else none) 0#64

def voiceMerged (system : System) (sender : Int) : Option (BitVec 64) := system.rules.merged sender

def voiceRecomputeAndPush (system : System) (sender : Int) : System :=
  if !system.engineOps then system
  else match system.voiceMerged sender with
    | some mask => { system with shim := (system.shim.audibleSet sender mask).1 }
    | none => { system with shim := system.shim.audibleClear sender }

/-- `__s2_voice_audible_set`: push the candidate merge first, keep the rule only if it was taken. -/
def voiceAudibleSet (system : System) (owner : String) (sender : Int) (receivers : List Int) : System × Bool :=
  if !Shim.inRange sender then (system,false)
  else match receiverMask receivers with
    | none => (system,false)
    | some mask =>
      if !system.engineOps then (system,false)
      else
        let pushed := system.shim.audibleSet sender (system.rules.foldExcept owner sender mask fun _ => true)
        if !pushed.2 then ({ system with shim := pushed.1 },false)
        else ({ system with shim := pushed.1, rules := system.rules.insert owner sender mask },true)

/-- `__s2_voice_audible_clear`: drop the caller's rule and push what is left. -/
def voiceAudibleClear (system : System) (owner : String) (sender : Int) : System × Bool :=
  if !Shim.inRange sender then (system,false)
  else
    let removed := system.rules.remove owner sender
    let dropped := { system with rules := removed.1 }
    if removed.2.isSome then (dropped.voiceRecomputeAndPush sender,true) else (dropped,false)

def voiceRemoveOwner (system : System) (owner : String) : System :=
  let removed := system.rules.removeOwner owner
  removed.2.foldl voiceRecomputeAndPush { system with rules := removed.1 }

/-- Drop every owner's rule for a sender, and push the clear. -/
def voiceClearSlot (system : System) (sender : Int) : System :=
  let cleared := system.rules.clearKey sender
  let dropped := { system with rules := cleared.1 }
  if cleared.2 then dropped.voiceRecomputeAndPush sender else dropped

def generation (system : System) (slot : Int) : Nat := (system.connections.idOf slot).getD 0

def isMatch (system : System) (slot : Int) (token : Nat) : Bool := token != 0 && system.connections.isLive slot token

/-- A connection is over: its slot's rules go with it. -/
def clientEnd (system : System) (slot : Int) (token : Nat) : System :=
  if !system.isMatch slot token then system
  else ({ system with connections := system.connections.remove slot } : System).voiceClearSlot slot

def clientBegin (system : System) (slot : Int) : System :=
  if !Shim.inRange slot then system
  else
    let ended := system.clientEnd slot (system.generation slot)
    { ended with connections := (ended.connections.insert slot ()).1 }

def clientEnsure (system : System) (slot : Int) : System :=
  if system.generation slot ≠ 0 then system else system.clientBegin slot

def setSignon (system : System) (slot : Int) (phase : Nat) : System :=
  if !Shim.inRange slot then system
  else { system with
    shim := { system.shim with trackedSignon := Function.update system.shim.trackedSignon slot.toNat phase } }

/-- A client disconnects, or a map starts without it: the shim forgets the slot, then the host
ends the connection it knew. -/
def retire (system : System) (slot : Int) : System :=
  let token := system.generation slot
  ({ system with shim := system.shim.clearClientSlotState slot } : System).clientEnd slot token

inductive Event
  | audibleSet (owner : String) (sender : Int) (receivers : List Int)
  | audibleClear (owner : String) (sender : Int)
  | removeOwner (owner : String)
  | setMuted (slot : Int) (muted : Bool)
  | connected (slot : Int)
  | progressed (slot : Int) (phase : Nat) (active : Bool)
  | retired (slot : Int)
  | listening (receiver sender : Int) (listen : Bool)

def step (system : System) : Event → System
  | .audibleSet owner sender receivers => (system.voiceAudibleSet owner sender receivers).1
  | .audibleClear owner sender => (system.voiceAudibleClear owner sender).1
  | .removeOwner owner => system.voiceRemoveOwner owner
  | .setMuted slot muted => (system.voiceSetMuted slot muted).1
  | .connected slot => (system.setSignon slot signonConnected).clientBegin slot
  | .progressed slot phase active =>
    let phased := system.setSignon slot phase
    (if active then phased.maybeValidateVoiceListening else phased).clientEnsure slot
  | .retired slot => system.retire slot
  | .listening receiver sender listen => system.setClientListening receiver sender listen

/-- A shim that has just loaded. -/
def load (engineOps engineCallsOk listenHookInstalled : Bool) (cells : Int → Int → Bool) : System where
  engineOps := engineOps
  engineCallsOk := engineCallsOk
  rules := .new
  connections := .new 1
  shim := ⟨listenHookInstalled,false,false,false,fun _ => false,fun _ => 0,0,fun _ => signonNone⟩
  cells := cells

/-- Nobody retires a slot whose connection the host does not know while a rule stands for it. -/
def permitted (system : System) : Event → Prop
  | .retired slot => system.generation slot ≠ 0 ∨ system.voiceMerged slot = none
  | _ => True

inductive Reachable : System → Prop
  | load (engineOps engineCallsOk listenHookInstalled : Bool) (cells : Int → Int → Bool) :
    Reachable (load engineOps engineCallsOk listenHookInstalled cells)
  | step {system : System} {event : Event} (may : permitted system event) : Reachable system → Reachable (system.step event)

end System

end S2Script.VoiceHearability
