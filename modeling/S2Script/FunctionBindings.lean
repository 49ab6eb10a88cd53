import S2Script.Plugin
import S2Script.Table

/-! The registry of engine function bindings: how a preparation's native target and capability
pass from a receipt into a published binding, and who releases them. -/
namespace S2Script.FunctionBindings

open Plugin (Resource)

inductive OwnerKind where
  | plugin
  | gamePackage
  deriving DecidableEq, Repr

structure OwnerKey where
  id : String
  generation : Nat
  kind : OwnerKind
  deriving DecidableEq, Repr

inductive PackageFunctionPhase where
  | unactivated
  | active
  | retired
  deriving DecidableEq, Repr

/-- What every clone of a host package's capability shares. -/
structure PackageFunctionLifetime where
  key : OwnerKey
  phase : PackageFunctionPhase
  source : PackageFunctionPhase
  deriving DecidableEq, Repr

def PackageFunctionLifetime.isRetired (state : PackageFunctionLifetime) : Bool :=
  state.phase == .retired || state.source == .retired

structure Function where
  localName : String
  canonicalId : String
  requirement : String
  policyId : String
  hostOwner : Option OwnerKey
  deriving DecidableEq, Repr

/-- A function's origin is trusted when it names the host owner that grants it. -/
def Function.trusted (function : Function) : Bool := function.hostOwner.isSome

/-- One function of a candidate, with the reason why its target is known to be unavailable. -/
structure PreparedFunction where
  function : Function
  unavailable : Option String
  deriving DecidableEq, Repr

structure PreparedCandidate where
  ownerId : String
  functions : List PreparedFunction
  deriving DecidableEq, Repr

structure PreparedBinding where
  id : Nat
  function : Function
  target : Option Int
  capability : Option Nat
  unavailable : Option String
  deriving DecidableEq, Repr

/-- A receipt of a preparation; a package's is sealed with the host capability it was made for. -/
structure PreparedOwnerReceipt where
  intendedId : String
  bindings : List PreparedBinding
  host : Option Nat
  deriving DecidableEq, Repr

inductive BindingLifetime where
  | plugin
  | package (state : Nat)
  deriving DecidableEq, Repr

structure Binding where
  lifetime : BindingLifetime
  id : Nat
  owner : OwnerKey
  function : Function
  target : Option Int
  capability : Option Nat
  unavailable : Option String
  deriving DecidableEq, Repr

/-- Target and capability pass from the prepared binding into the published one. -/
def PreparedBinding.published (prepared : PreparedBinding) (lifetime : BindingLifetime) (owner : OwnerKey) : Binding :=
  ⟨lifetime,prepared.id,owner,prepared.function,prepared.target,prepared.capability,prepared.unavailable⟩

structure ActivePackageFunctions where
  owner : Nat
  ids : List Nat
  deriving DecidableEq, Repr

/-- The native operations that hand out and take back what a binding holds. A preparation and
the releases of what it handed out are marked with the id of the binding they are for. -/
inductive NativeCall where
  | prepare (binding : Nat) (target : Int) (capability : Option Nat)
  | activate (capability : Nat) (owner : OwnerKey)
  | instanceRelease (binding : Nat) (capability : Nat)
  | targetRelease (binding : Nat) (target : Int)
  deriving DecidableEq, Repr

/-- What the native side answers a preparation with. -/
inductive NativeAnswer where
  | refused (why : String)
  | receipt (valid : Bool) (target : Int) (capability : Nat)
  deriving DecidableEq, Repr

/-- The registry and all that holds or owns bindings: `rows` are the published bindings, `held`
the references that running calls and other tables keep. -/
structure World where
  plugins : Plugin.Registry
  packages : Table Nat PackageFunctionLifetime
  nextPackage : Nat
  nextId : Nat
  rows : Table Nat Binding
  held : List Binding
  receipts : Table Nat PreparedOwnerReceipt
  actives : Table Nat ActivePackageFunctions
  nextHandle : Nat
  calls : List NativeCall

/-- What the native side answers for the candidate's functions, in their order. -/
def answered (candidate : PreparedCandidate) (answers : Nat → NativeAnswer) : List (PreparedFunction × NativeAnswer) :=
  candidate.functions.zipIdx.map fun (prepared,position) => (prepared,answers position)

/-- Record the ids in the owner's ledger until one is refused, because the owner is gone or
because the ledger's limit is reached. -/
def recordActivations (plugins : Plugin.Registry) (owner : OwnerKey) :
    Option Nat → List Nat → List Nat → Plugin.Registry × List Nat × Bool
  | _,recorded,[] => (plugins,recorded,true)
  | some 0,recorded,_ :: _ => (plugins,recorded,false)
  | limit,recorded,id :: rest =>
    match plugins.record owner.id owner.generation (.functionBinding id) with
    | (plugins,false) => (plugins,recorded,false)
    | (plugins,true) => recordActivations plugins owner (limit.map (· - 1)) (recorded ++ [id]) rest

/-- Take the recorded ids out of the ledger again, in reverse order. -/
def releaseActivations (plugins : Plugin.Registry) (owner : OwnerKey) (recorded : List Nat) : Plugin.Registry :=
  recorded.reverse.foldl (fun plugins id => (plugins.release owner.id owner.generation (.functionBinding id)).1) plugins

namespace World

def start : World := ⟨.new,∅,1,1,∅,[],∅,∅,1,[]⟩

def call (world : World) (call : NativeCall) : World := { world with calls := world.calls ++ [call] }

/-- What the destructors of a prepared and of a published binding do. -/
def release (world : World) (id : Nat) (target : Option Int) (capability : Option Nat) : World :=
  let world := match capability with
    | none => world
    | some capability => world.call (.instanceRelease id capability)
  match target with
  | none => world
  | some target => world.call (.targetRelease id target)

def dropPrepared (world : World) (bindings : List PreparedBinding) : World :=
  bindings.foldl (fun world binding => world.release binding.id binding.target binding.capability) world

/-- One reference to a binding is gone; with the last one its destructor runs. -/
def dropReference (world : World) (binding : Binding) : World :=
  if (world.rows.lookup binding.id).isSome || world.held.any fun other => other.id == binding.id then world
  else world.release binding.id binding.target binding.capability

def functionIdLimit : Nat := 2 ^ 64

def takeId (world : World) : Option (Nat × World) :=
  if world.nextId + 1 < functionIdLimit then some (world.nextId,{ world with nextId := world.nextId + 1 }) else none

/-- Prepare a function's target natively; a malformed receipt gives back what it carries. -/
def prepareBinding (world : World) (function : Function) (binding : Nat) :
    NativeAnswer → World × Except String (Int × Option Nat)
  | .refused why => (world,.error why)
  | .receipt valid target capability =>
    if !function.trusted then
      if target ≤ 0 then (world,.error "native function prepare refused")
      else (world.call (.prepare binding target none),.ok (target,none))
    else if !valid || target ≤ 0 || capability == 0 then
      let capability := if capability == 0 then none else some capability
      let target := if target ≤ 0 then none else some target
      let world := match target with
        | none => world
        | some target => world.call (.prepare binding target capability)
      (world.release binding target capability,.error "invalid native instance preparation receipt")
    else (world.call (.prepare binding target (some capability)),.ok (target,some capability))

/-- A function known to be unavailable is not asked for natively. -/
def resolve (world : World) (prepared : PreparedFunction) (binding : Nat) (answer : NativeAnswer) :
    World × Except String (Int × Option Nat) :=
  match prepared.unavailable with
  | some why => (world,.error why)
  | none => world.prepareBinding prepared.function binding answer

/-- Only the exact verified package owner may prepare a function it grants. -/
def hostAllows (world : World) (host : Option Nat) (owner : OwnerKey) : Bool :=
  (host.bind fun handle => world.packages.lookup handle).any fun state => !state.isRetired && state.key == owner

/-- The functions of a candidate one after another; on an error the vector so far is dropped. -/
def prepareFunctions (world : World) (host : Option Nat) (bindings : List PreparedBinding) :
    List (PreparedFunction × NativeAnswer) → World × Except String (List PreparedBinding)
  | [] => (world,.ok bindings)
  | (prepared,answer) :: rest =>
    let function := prepared.function
    if function.policyId ≠ "generic.v2" then
      (world.dropPrepared bindings,.error "internal policy requires host adapter binding authority")
    else if function.hostOwner.any fun owner => !world.hostAllows host owner then
      (world.dropPrepared bindings,.error "trusted instance requires exact verified package owner")
    else match world.takeId with
      | none => (world.dropPrepared bindings,.error "function id exhausted")
      | some (id,world) =>
        match world.resolve prepared id answer with
        | (world,.ok (target,capability)) =>
          world.prepareFunctions host (bindings ++ [⟨id,function,some target,capability,none⟩]) rest
        | (world,.error why) =>
          if function.requirement == "required" then
            (world.dropPrepared bindings,.error (function.canonicalId ++ ": " ++ why))
          else world.prepareFunctions host (bindings ++ [⟨id,function,none,none,some why⟩]) rest

/-- The receipt goes to the caller, who holds it under a handle of its own. -/
def keepReceipt (world : World) (receipt : PreparedOwnerReceipt) : World :=
  { world with
    receipts := world.receipts.insert world.nextHandle receipt
    nextHandle := world.nextHandle + 1 }

def prepareOwnerAuthorized (world : World) (intendedId : String) (candidate : PreparedCandidate) (host : Option Nat)
    (answers : Nat → NativeAnswer) : World × Except String Nat :=
  if candidate.ownerId ≠ intendedId then (world,.error "prepared candidate owner mismatch")
  else match world.prepareFunctions host [] (answered candidate answers) with
    | (world,.error why) => (world,.error why)
    | (world,.ok bindings) => (world.keepReceipt ⟨intendedId,bindings,host⟩,.ok world.nextHandle)

/-- Native preparation grants no live owner; dropping its receipt releases only candidates. -/
def prepareOwner (world : World) (intendedId : String) (candidate : PreparedCandidate) (answers : Nat → NativeAnswer) :
    World × Except String Nat :=
  world.prepareOwnerAuthorized intendedId candidate none answers

def preparePackageOwner (world : World) (owner : Nat) (candidate : PreparedCandidate) (answers : Nat → NativeAnswer) :
    World × Except String Nat :=
  match world.packages.lookup owner with
  | none => (world,.error "no such host package")
  | some state =>
    if state.isRetired || state.phase ≠ .unactivated then (world,.error "package functions already activated or retired")
    else world.prepareOwnerAuthorized state.key.id candidate (some owner) answers

def dropReceipt (world : World) (handle : Nat) : World :=
  match world.receipts.lookup handle with
  | none => world
  | some receipt => { world with receipts := world.receipts.erase handle }.dropPrepared receipt.bindings

/-- Activate the capabilities until the native side refuses one. -/
def activateCapabilities (world : World) (owner : OwnerKey) (activates : Nat → Bool) :
    List PreparedBinding → World × Bool
  | [] => (world,true)
  | prepared :: rest =>
    match prepared.capability with
    | none => world.activateCapabilities owner activates rest
    | some capability =>
      let world := world.call (.activate capability owner)
      if activates capability then world.activateCapabilities owner activates rest else (world,false)

def publish (world : World) (lifetime : BindingLifetime) (owner : OwnerKey) (bindings : List PreparedBinding) : World :=
  bindings.foldl (fun world prepared =>
    { world with rows := world.rows.insert prepared.id (prepared.published lifetime owner) }) world

def activateOwner (world : World) (handle : Nat) (owner : OwnerKey) (limit : Option Nat) (activates : Nat → Bool) :
    World × Except String (List Nat) :=
  match world.receipts.lookup handle with
  | none => (world,.error "no such receipt")
  | some receipt =>
    if receipt.host.isSome then (world,.error "no such receipt")
    else
      let ids := receipt.bindings.map PreparedBinding.id
      let taken := { world with receipts := world.receipts.erase handle }
      if owner.kind ≠ .plugin || receipt.intendedId ≠ owner.id then
        (taken.dropPrepared receipt.bindings,.error "prepared candidate owner mismatch")
      else if !world.plugins.isLive owner.id owner.generation then
        (taken.dropPrepared receipt.bindings,.error "owner generation unavailable")
      else if world.rows.values.any fun binding => binding.owner == owner then
        (taken.dropPrepared receipt.bindings,.error "owner already activated")
      else
        match recordActivations world.plugins owner limit [] ids with
        | (plugins,recorded,false) =>
          ({ taken with plugins := releaseActivations plugins owner recorded }.dropPrepared receipt.bindings,
            .error "owner ledger unavailable")
        | (plugins,recorded,true) =>
          match { taken with plugins := plugins }.activateCapabilities owner activates receipt.bindings with
          | (world,false) =>
            ({ world with plugins := releaseActivations plugins owner recorded }.dropPrepared receipt.bindings,
              .error "native instance activation refused")
          | (world,true) => (world.publish .plugin owner receipt.bindings,.ok recorded)

def setPhase (world : World) (owner : Nat) (phase : PackageFunctionPhase) : World :=
  match world.packages.lookup owner with
  | none => world
  | some state => { world with packages := world.packages.insert owner { state with phase := phase } }

def activatePackageOwner (world : World) (handle owner : Nat) (activates : Nat → Bool) : World × Except String Nat :=
  match world.receipts.lookup handle,world.packages.lookup owner with
  | some receipt,some state =>
    if receipt.host.isNone then (world,.error "no such receipt")
    else
      let taken := { world with receipts := world.receipts.erase handle }
      if receipt.host ≠ some owner then
        (taken.dropPrepared receipt.bindings,.error "prepared package capability mismatch")
      else if state.isRetired || state.phase ≠ .unactivated then
        (taken.dropPrepared receipt.bindings,.error "package functions already activated or retired")
      else match taken.activateCapabilities state.key activates receipt.bindings with
        | (world,false) => (world.dropPrepared receipt.bindings,.error "native instance activation refused")
        | (world,true) =>
          let world := (world.setPhase owner .active).publish (.package owner) state.key receipt.bindings
          ({ world with
              actives := world.actives.insert world.nextHandle ⟨owner,receipt.bindings.map PreparedBinding.id⟩
              nextHandle := world.nextHandle + 1 },.ok world.nextHandle)
  | _,_ => (world,.error "no such receipt")

def isLive (world : World) (binding : Binding) : Bool :=
  match binding.lifetime with
  | .plugin => world.plugins.isLive binding.owner.id binding.owner.generation
  | .package owner => (world.packages.lookup owner).any fun state =>
      state.key == binding.owner && state.phase == .active && state.source != .retired

def binding (world : World) (id : Nat) (owner : OwnerKey) : Except String Binding :=
  match world.rows.lookup id with
  | none => .error "binding owner generation unavailable"
  | some binding =>
    if binding.owner == owner && world.isLive binding then .ok binding
    else .error "binding owner generation unavailable"

/-- The key under which a native frame may be read or written through a binding. -/
def instanceAccess (world : World) (frameTarget : Int) (binding : Binding) : Except String (Int × Nat × Nat) :=
  match world.binding binding.id binding.owner with
  | .error why => .error why
  | .ok _ =>
    if binding.target ≠ some frameTarget then .error "instance frame target mismatch"
    else match binding.capability with
      | none => .error "instance capability unavailable"
      | some capability => .ok (frameTarget,capability,binding.id)

/-- The capability goes as the row does; target and memory only with the last reference. -/
def dropBinding (world : World) (id : Nat) : World :=
  match world.rows.lookup id with
  | none => world
  | some binding =>
    let world := { world with rows := world.rows.erase id }
    let world := match binding.capability with
      | none => world
      | some capability => world.call (.instanceRelease binding.id capability)
    world.dropReference binding

def ownerBindings (world : World) (owner : OwnerKey) : List Nat :=
  ((world.rows.values.filter fun binding => binding.owner == owner).map Binding.id).mergeSort (· ≤ ·)

/-- Retire the package and drop its bindings, last first. -/
def dropActive (world : World) (handle : Nat) : World :=
  match world.actives.lookup handle with
  | none => world
  | some active =>
    active.ids.reverse.foldl dropBinding { world.setPhase active.owner .retired with actives := world.actives.erase handle }

def dropResource (world : World) : Resource → World
  | .functionBinding id => world.dropBinding id
  | _ => world

/-- Take the owner out of the registry, then walk its ledger. -/
def unloadOwner (world : World) (id : String) : World :=
  match world.plugins.remove id with
  | (plugins,none) => { world with plugins := plugins }
  | (plugins,some (_,ledger)) => ledger.teardownOrder.foldl dropResource { world with plugins := plugins }

/-- A running call takes a reference, by looking a binding up or from one it has. -/
def hold (world : World) (id : Nat) (owner : OwnerKey) : World :=
  match world.binding id owner with
  | .error _ => world
  | .ok binding => { world with held := binding :: world.held }

def holdAgain (world : World) (position : Nat) : World :=
  match world.held[position]? with
  | none => world
  | some binding => { world with held := binding :: world.held }

def letGo (world : World) (position : Nat) : World :=
  match world.held[position]? with
  | none => world
  | some binding => { world with held := world.held.eraseIdx position }.dropReference binding

def mint (world : World) (id : String) : World :=
  if id.isEmpty then world
  else { world with
    packages := world.packages.insert world.nextPackage ⟨⟨id,world.nextPackage,.gamePackage⟩,.unactivated,.unactivated⟩
    nextPackage := world.nextPackage + 1 }

def setSource (world : World) (owner : Nat) (source : PackageFunctionPhase) : World :=
  match world.packages.lookup owner with
  | none => world
  | some state => { world with packages := world.packages.insert owner { state with source := source } }

end World

/-- One step of the host: an operation of the registry, or one beside it that matters here. -/
inductive Operation where
  | loadOwner (id : String)
  | recordOther (id : String) (generation : Nat) (resource : Resource)
  | releaseOther (id : String) (generation : Nat) (resource : Resource)
  | mint (id : String)
  | setSource (owner : Nat) (source : PackageFunctionPhase)
  | takeId
  | prepareOwner (intendedId : String) (candidate : PreparedCandidate) (answers : Nat → NativeAnswer)
  | preparePackageOwner (owner : Nat) (candidate : PreparedCandidate) (answers : Nat → NativeAnswer)
  | activateOwner (handle : Nat) (owner : OwnerKey) (limit : Option Nat) (activates : Nat → Bool)
  | activatePackageOwner (handle owner : Nat) (activates : Nat → Bool)
  | dropReceipt (handle : Nat)
  | dropBinding (id : Nat)
  | dropActive (handle : Nat)
  | unloadOwner (id : String)
  | hold (id : Nat) (owner : OwnerKey)
  | holdAgain (position : Nat)
  | letGo (position : Nat)

def isBinding : Resource → Bool
  | .functionBinding _ => true
  | _ => false

def execute (world : World) : Operation → World
  | .loadOwner id => { world with plugins := (world.plugins.insert id).1 }
  | .recordOther id generation resource =>
    if isBinding resource then world else { world with plugins := (world.plugins.record id generation resource).1 }
  | .releaseOther id generation resource =>
    if isBinding resource then world else { world with plugins := (world.plugins.release id generation resource).1 }
  | .mint id => world.mint id
  | .setSource owner source => world.setSource owner source
  | .takeId => (world.takeId.map Prod.snd).getD world
  | .prepareOwner intendedId candidate answers => (world.prepareOwner intendedId candidate answers).1
  | .preparePackageOwner owner candidate answers => (world.preparePackageOwner owner candidate answers).1
  | .activateOwner handle owner limit activates => (world.activateOwner handle owner limit activates).1
  | .activatePackageOwner handle owner activates => (world.activatePackageOwner handle owner activates).1
  | .dropReceipt handle => world.dropReceipt handle
  | .dropBinding id => world.dropBinding id
  | .dropActive handle => world.dropActive handle
  | .unloadOwner id => world.unloadOwner id
  | .hold id owner => world.hold id owner
  | .holdAgain position => world.holdAgain position
  | .letGo position => world.letGo position

def run (operations : List Operation) : World := operations.foldl execute .start

end S2Script.FunctionBindings
