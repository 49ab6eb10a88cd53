import S2Script.Interfaces

/-! Interface facades call a producer through a binding they keep. One counter, moved by
every change a binding depends on, tells a facade that its binding is out of date. -/
namespace S2Script.InteropFacade

open Liveness Interfaces

structure Contract where
  sha256 : String
  deriving DecidableEq

/-- The registries and tables a binding is checked against, and the shared `EPOCH` slot. -/
structure World where
  plugins : Liveness.Registry
  interfaces : InterfaceRegistry
  publishes : String → Option (String → Option Contract)
  interop : String → Option (String → Option Contract)
  epoch : BitVec 32

def initial : World := ⟨.new,.new,fun _ => none,fun _ => none,0⟩

/-- A plugin's V8 context: the id it runs as and the generation stamped into it. -/
structure Context where
  plugin : String
  generation : Option Nat
  deriving DecidableEq

/-- What a facade keeps of a binding. -/
structure Cell where
  epoch : BitVec 32
  producer : String
  generation : Nat
  deriving DecidableEq

structure Thrown where
  name : String
  detail : String
  deriving DecidableEq

/-- The operations on the registries, and the host's changes of the contract tables. -/
inductive Op where
  | insert (id : String)
  | remove (id : String)
  | publish (name version typesSha256 producerId : String) (producerGen : Nat)
      (methodNames : List String)
  | removeByProducer (producerId : String)
  | setImports (pluginId : String) (decls : List ImportSpec)
  | clearImports (pluginId : String)
  | clear
  | addSubscriber (name : String) (sub : Subscriber)
  | removeSubscriber (id : Nat) (consumer : String) (generation : Nat) (order : List String)
  | removeSubscribersByConsumer (consumerId : String)
  | removeSubscribersByConsumerOn (consumerId name event : String)
  | addWatch (watch : AvailabilityWatch)
  | removeWatch (id : Nat)
  | attemptWatch (id : Nat) (provider : String × Nat)
  | setPluginPublishes (id : String) (contracts : String → Option Contract)
  | setPluginInterop (id : String) (contracts : String → Option Contract)
  | clearPluginPublishes (id : String)
  | revoke

namespace World

def bumpEpoch (w : World) : World := { w with epoch := w.epoch + 1 }

def isLive (w : World) (id : String) (generation : Nat) : Bool := w.plugins.isLive id generation

def liveInteropContext (w : World) (context : Context) : Bool :=
  context.generation.any (fun generation => w.isLive context.plugin generation)

def publishedContract (w : World) (name : String) : Option Contract := do
  let (owner,_) ← w.interfaces.producerOf name
  let contracts ← w.publishes owner
  contracts name

/-- Both sides' contracts, when either has one: equal, verified, and of a live producer. -/
def checkedContract (w : World) (consumer name : String) : Except String (Option Contract) :=
  let actual := w.publishedContract name
  let expected := (w.interop consumer).bind (fun contracts => contracts name)
  if actual.isSome || expected.isSome then
    if !(w.interfaces.producerOf name).any (fun owner => w.isLive owner.1 owner.2) then
      .error "InterfaceUnavailable"
    else match actual, expected with
      | some actual, some expected =>
        if actual.sha256 ≠ expected.sha256 || !w.interfaces.verifiedImport consumer name then
          .error "InterfaceTypesMismatch"
        else .ok (some actual)
      | _, _ => .error "InterfaceTypesMismatch"
  else .ok none

/-- `__s2_iface_bind`: a call's checks, once, and the producer generation found. -/
def ifaceBind (w : World) (context : Context) (name sha : String) : Except Thrown Cell :=
  match w.interfaces.bindTarget context.plugin name with
  | .unavailable => .error ⟨"InterfaceUnavailable",name⟩
  | .versionMismatch => .error ⟨"InterfaceVersionMismatch",name⟩
  | .typesMismatch => .error ⟨"InterfaceTypesMismatch",name⟩
  | .ok => match w.checkedContract context.plugin name with
    | .error e => .error ⟨e,name⟩
    | .ok none => .error ⟨"InterfaceTypesMismatch",name⟩
    | .ok (some contract) =>
      if contract.sha256 ≠ sha then .error ⟨"InterfaceTypesMismatch",name⟩
      else if !w.liveInteropContext context then .error ⟨"InterfaceUnavailable",context.plugin⟩
      else match w.interfaces.producerOf name with
        | none => .error ⟨"InterfaceUnavailable",name⟩
        | some (producer,generation) =>
          if !w.isLive producer generation then .error ⟨"InterfaceUnavailable",name⟩
          else .ok ⟨w.epoch,producer,generation⟩

/-- `__s2_iface_check`: the caller and the producer it called are still the participants. -/
def ifaceCheck (w : World) (context : Context) (name producer : String) (generation : Nat) : Bool :=
  w.liveInteropContext context && w.isLive producer generation &&
    w.interfaces.producerOf name = some (producer,generation)

/-- A facade method before it calls: a cell of an older epoch is bound again. -/
def enter (w : World) (context : Context) (name sha : String) (cell : Cell) :
    Except Thrown Cell :=
  if cell.epoch ≠ w.epoch then w.ifaceBind context name sha else .ok cell

/-- A facade method after its call: the check is skipped while the epoch stands. -/
def finish (w : World) (context : Context) (name : String) (cell : Cell) : Except Thrown Unit :=
  if w.epoch ≠ cell.epoch && !w.ifaceCheck context name cell.producer cell.generation then
    .error ⟨"InterfaceUnavailable",name⟩
  else .ok ()

end World

def advance (w : World) : Op → World
  | .insert id => { w.bumpEpoch with plugins := (w.plugins.insert id).1 }
  | .remove id => { w.bumpEpoch with plugins := w.plugins.remove id }
  | .publish name version typesSha256 producerId producerGen methodNames =>
    { w.bumpEpoch with
      interfaces :=
        (w.interfaces.publish name version typesSha256 producerId producerGen methodNames).1 }
  | .removeByProducer producerId =>
    { w.bumpEpoch with interfaces := w.interfaces.removeByProducer producerId }
  | .setImports pluginId decls =>
    { w.bumpEpoch with interfaces := (w.interfaces.setImports pluginId decls).1 }
  | .clearImports pluginId =>
    { w.bumpEpoch with interfaces := w.interfaces.clearImports pluginId }
  | .clear => { w.bumpEpoch with interfaces := w.interfaces.clear }
  | .addSubscriber name sub => { w with interfaces := (w.interfaces.addSubscriber name sub).1 }
  | .removeSubscriber id consumer generation order =>
    { w with interfaces := (w.interfaces.removeSubscriber id consumer generation order).1 }
  | .removeSubscribersByConsumer consumerId =>
    { w with interfaces := w.interfaces.removeSubscribersByConsumer consumerId }
  | .removeSubscribersByConsumerOn consumerId name event =>
    { w with interfaces := w.interfaces.removeSubscribersByConsumerOn consumerId name event }
  | .addWatch watch => { w with interfaces := (w.interfaces.addWatch watch).1 }
  | .removeWatch id => { w with interfaces := w.interfaces.removeWatch id }
  | .attemptWatch id provider => { w with interfaces := w.interfaces.attemptWatch id provider }
  | .setPluginPublishes id contracts =>
    { w.bumpEpoch with publishes := Function.update w.publishes id (some contracts) }
  | .setPluginInterop id contracts =>
    { w.bumpEpoch with interop := Function.update w.interop id (some contracts) }
  | .clearPluginPublishes id =>
    { w.bumpEpoch with
      publishes := Function.update w.publishes id none
      interop := Function.update w.interop id none }
  | .revoke => w.bumpEpoch

def execute (ops : List Op) (w : World) : World := ops.foldl advance w

/-- Subscriptions and watches are not what a binding depends on. -/
def Op.bumps : Op → Bool
  | .addSubscriber _ _ | .removeSubscriber _ _ _ _ | .removeSubscribersByConsumer _
  | .removeSubscribersByConsumerOn _ _ _ | .addWatch _ | .removeWatch _ | .attemptWatch _ _ => false
  | _ => true

/-- How often a sequence moves the epoch. -/
def moves (ops : List Op) : Nat := ops.countP Op.bumps

theorem advance_epoch (w : World) (op : Op) :
    (advance w op).epoch = if op.bumps then w.epoch + 1 else w.epoch := by
  cases op <;> rfl

theorem execute_epoch (ops : List Op) (w : World) :
    (execute ops w).epoch = w.epoch + BitVec.ofNat 32 (moves ops) := by
  induction ops generalizing w with
  | nil => simp [execute,moves]
  | cons op ops previous =>
    have rest := previous (advance w op)
    rw [advance_epoch] at rest
    simp only [execute,List.foldl_cons,moves,List.countP_cons] at rest ⊢
    rw [rest]
    cases op.bumps with
    | false => simp
    | true =>
      simp only [if_true,BitVec.ofNat_add,BitVec.add_assoc]
      exact congrArg (w.epoch + ·) (BitVec.add_comm _ _)

/-- The epoch stands exactly when nothing moved it: the counter has not come round. -/
theorem moves_eq_zero {ops : List Op} {w : World} (few : moves ops < 2 ^ 32)
    (stands : (execute ops w).epoch = w.epoch) : moves ops = 0 := by
  rw [execute_epoch] at stands
  have zero : BitVec.ofNat 32 (moves ops) = 0 := by simpa using stands
  have value : moves ops % 2 ^ 32 = 0 := by simpa using congrArg BitVec.toNat zero
  rwa [Nat.mod_eq_of_lt few] at value

/-- Nothing a binding depends on has changed. -/
structure Unmoved (w after : World) : Prop where
  plugins : after.plugins = w.plugins
  interfaces : w.interfaces.Alike after.interfaces
  publishes : after.publishes = w.publishes
  interop : after.interop = w.interop
  epoch : after.epoch = w.epoch

theorem Unmoved.trans {first second third : World} (one : Unmoved first second)
    (two : Unmoved second third) : Unmoved first third :=
  ⟨two.plugins.trans one.plugins,one.interfaces.trans two.interfaces,
    two.publishes.trans one.publishes,two.interop.trans one.interop,two.epoch.trans one.epoch⟩

theorem advance_unmoved (w : World) {op : Op} (still : op.bumps = false) :
    Unmoved w (advance w op) := by
  have alike {after : InterfaceRegistry} (same : w.interfaces.Alike after) :
      Unmoved w { w with interfaces := after } := ⟨rfl,same,rfl,rfl,rfl⟩
  cases op with
  | addSubscriber name sub =>
    exact alike (InterfaceRegistry.Alike.resubscribe w.interfaces name (· ++ [sub]))
  | removeSubscriber id consumer generation order =>
    exact alike (.removeSubscriber _ id consumer generation order)
  | removeSubscribersByConsumer consumerId =>
    exact alike (.removeSubscribersByConsumer _ consumerId)
  | removeSubscribersByConsumerOn consumerId name event => exact alike (.resubscribe _ _ _)
  | addWatch watch => exact alike (.addWatch _ watch)
  | removeWatch id => exact alike ⟨rfl,fun _ => rfl⟩
  | attemptWatch id provider => exact alike ⟨rfl,fun _ => rfl⟩
  | _ => simp [Op.bumps] at still

theorem execute_unmoved (ops : List Op) (w : World) (still : moves ops = 0) :
    Unmoved w (execute ops w) := by
  induction ops generalizing w with
  | nil => exact ⟨rfl,.refl _,rfl,rfl,rfl⟩
  | cons op ops previous =>
    simp only [moves,List.countP_cons,Nat.add_eq_zero_iff] at still
    have first : op.bumps = false := by simpa using still.2
    exact (advance_unmoved w first).trans (previous _ still.1)

namespace Unmoved

variable {w after : World} (unmoved : Unmoved w after)
include unmoved

theorem isLive (id : String) (generation : Nat) : after.isLive id generation = w.isLive id generation := by
  simp [World.isLive,unmoved.plugins]

theorem liveInteropContext (context : Context) :
    after.liveInteropContext context = w.liveInteropContext context := by
  simp [World.liveInteropContext,unmoved.isLive]

theorem checkedContract (consumer name : String) :
    after.checkedContract consumer name = w.checkedContract consumer name := by
  have published : after.publishedContract name = w.publishedContract name := by
    simp [World.publishedContract,unmoved.interfaces.producerOf,unmoved.publishes]
  simp only [World.checkedContract,published,unmoved.interop,unmoved.interfaces.producerOf,
    unmoved.isLive,unmoved.interfaces.verifiedImport]

/-- Binding again gives the same binding. -/
theorem ifaceBind (context : Context) (name sha : String) :
    after.ifaceBind context name sha = w.ifaceBind context name sha := by
  simp only [World.ifaceBind,unmoved.interfaces.bindTarget,unmoved.checkedContract,
    unmoved.liveInteropContext,unmoved.interfaces.producerOf,unmoved.isLive,unmoved.epoch]

theorem ifaceCheck (context : Context) (name producer : String) (generation : Nat) :
    after.ifaceCheck context name producer generation =
      w.ifaceCheck context name producer generation := by
  simp [World.ifaceCheck,unmoved.liveInteropContext,unmoved.isLive,unmoved.interfaces.producerOf]

end Unmoved

/-- A fresh binding passes the check its call ends with. -/
theorem ifaceBind_check {w : World} {context : Context} {name sha : String} {cell : Cell}
    (bound : w.ifaceBind context name sha = .ok cell) :
    cell.epoch = w.epoch ∧ w.ifaceCheck context name cell.producer cell.generation = true := by
  unfold World.ifaceBind at bound
  split at bound
  · simp at bound
  · simp at bound
  · simp at bound
  · split at bound
    · simp at bound
    · simp at bound
    · split at bound
      · simp at bound
      next =>
        split at bound
        · simp at bound
        next alive =>
          split at bound
          · simp at bound
          next producer generation found =>
            split at bound
            · simp at bound
            next live =>
              obtain rfl := Except.ok.inj bound
              exact ⟨rfl,by simp_all [World.ifaceCheck]⟩

/-- The check's answer, spelled out. -/
theorem ifaceCheck_iff (w : World) (context : Context) (name producer : String)
    (generation : Nat) : w.ifaceCheck context name producer generation = true ↔
      w.liveInteropContext context = true ∧ w.isLive producer generation = true ∧
        w.interfaces.producerOf name = some (producer,generation) := by
  simp [World.ifaceCheck,and_assoc]

section Binding

variable {w later : World} {during : List Op} {context : Context} {name sha : String}
  {cell : Cell} (run : later = execute during w) (few : moves during < 2 ^ 32)
  (bound : w.ifaceBind context name sha = .ok cell)
include run few bound

/-- A facade calls what a binding made at its call would give. -/
theorem enter_eq_ifaceBind :
    later.enter context name sha cell = later.ifaceBind context name sha := by
  subst run
  unfold World.enter
  split
  · rfl
  next stands =>
    have epoch := (ifaceBind_check bound).1
    have same : (execute during w).epoch = w.epoch := (not_not.mp stands).symm.trans epoch
    have unmoved := execute_unmoved during w (moves_eq_zero few same)
    rw [unmoved.ifaceBind,bound]

/-- Skipping the check while the epoch stands skips nothing. -/
theorem finish_eq_check : later.finish context name cell = .ok () ↔
    later.ifaceCheck context name cell.producer cell.generation = true := by
  subst run
  unfold World.finish
  by_cases stands : (execute during w).epoch = cell.epoch
  · obtain ⟨epoch,checked⟩ := ifaceBind_check bound
    have unmoved := execute_unmoved during w (moves_eq_zero few (stands.trans epoch))
    simp [stands,unmoved.ifaceCheck,checked]
  · cases (execute during w).ifaceCheck context name cell.producer cell.generation <;>
      simp [stands]

end Binding

/-- Between two points of a run with the same epoch, unless it came all the way round,
everything a binding rests on answers the same; a facade entered at any later point calls
what a binding made there would give; and its call is accepted on return exactly when its
own generation, the producer generation and the publication are all still there. -/
theorem binding_never_stale (before during : List Op) (few : moves during < 2 ^ 32) :
    let w := execute before initial
    let later := execute during w
    (later.epoch = w.epoch →
      (∀ consumer name,
        later.interfaces.bindTarget consumer name = w.interfaces.bindTarget consumer name ∧
        later.interfaces.producerOf name = w.interfaces.producerOf name ∧
        later.interfaces.verifiedImport consumer name = w.interfaces.verifiedImport consumer name) ∧
      ∀ id generation, later.isLive id generation = w.isLive id generation) ∧
    (∀ context name sha cell, w.ifaceBind context name sha = .ok cell →
      later.enter context name sha cell = later.ifaceBind context name sha ∧
      (later.finish context name cell = .ok () ↔
        later.liveInteropContext context = true ∧
        later.isLive cell.producer cell.generation = true ∧
        later.interfaces.producerOf name = some (cell.producer,cell.generation))) ∧
    (∀ context name producer generation,
      later.ifaceCheck context name producer generation = true ↔
        later.liveInteropContext context = true ∧ later.isLive producer generation = true ∧
        later.interfaces.producerOf name = some (producer,generation)) := by
  intro w later
  refine ⟨?_,?_,ifaceCheck_iff later⟩
  · intro stands
    have unmoved : Unmoved w later := execute_unmoved during w (moves_eq_zero few stands)
    exact ⟨fun consumer name => ⟨unmoved.interfaces.bindTarget consumer name,
      unmoved.interfaces.producerOf name,unmoved.interfaces.verifiedImport consumer name⟩,
      unmoved.isLive⟩
  · intro context name sha cell bound
    refine ⟨enter_eq_ifaceBind rfl few bound,?_⟩
    exact (finish_eq_check rfl few bound).trans (ifaceCheck_iff later _ _ _ _)

/-- A producer `p` and a consumer `c` of its interface, ready to bind. -/
def linkedPair : List Op :=
  let contracts (name : String) : Option Contract := if name = "i" then some ⟨"h"⟩ else none
  [.insert "p",.insert "c",.setPluginPublishes "p" contracts,.setPluginInterop "c" contracts,
    .publish "i" "1.0.0" "h" "p" 1 ["m"],.setImports "c" [⟨⟨"^1.0.0",.hard,some "h"⟩,"i"⟩]]

theorem binding_never_stale_subscribing :
    moves [.addSubscriber "i" ⟨1,"c",2,"e"⟩] < 2 ^ 32 ∧
    (execute [.addSubscriber "i" ⟨1,"c",2,"e"⟩] (execute linkedPair initial)).enter ⟨"c",some 2⟩ "i" "h"
      ⟨6,"p",1⟩ = .ok ⟨6,"p",1⟩ := by
  refine ⟨by decide,?_⟩
  have stable := (binding_never_stale linkedPair [.addSubscriber "i" ⟨1,"c",2,"e"⟩] (by decide)).2.1
    ⟨"c",some 2⟩ "i" "h" ⟨6,"p",1⟩ (by decide)
  rw [stable.1]
  decide

/-- A caller unloaded during its own call is refused, though the producer generation it
called is live and still the publisher. -/
theorem check_refuses_unloaded_caller :
    let w := execute linkedPair initial
    let later := execute [.remove "c"] w
    w.ifaceBind ⟨"c",some 2⟩ "i" "h" = .ok ⟨w.epoch,"p",1⟩ ∧ later.epoch ≠ w.epoch ∧
      later.isLive "p" 1 = true ∧ later.interfaces.producerOf "i" = some ("p",1) ∧
      later.ifaceCheck ⟨"c",some 2⟩ "i" "p" 1 = false := by
  decide

end S2Script.InteropFacade
