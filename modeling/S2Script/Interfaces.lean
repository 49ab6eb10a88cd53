import S2Script.GreedyOrder
import S2Script.Liveness

/-! The inter-plugin interface registry: what is published, who imports what, and the
target a consumer's call resolves to. -/
namespace S2Script.Interfaces

inductive Kind where
  | hard | optional
  deriving DecidableEq

inductive CallTarget where
  | ok | unavailable | versionMismatch | typesMismatch
  deriving DecidableEq

structure Subscriber where
  subId : Nat
  consumerId : String
  consumerGen : Nat
  event : String
  deriving DecidableEq

/-- An empty `typesSha256` means the producer ships no hash. -/
structure InterfaceEntry where
  version : String
  typesSha256 : String
  producerId : String
  producerGen : Nat
  methodNames : List String
  subscribers : List Subscriber
  deriving DecidableEq

structure ImportDecl where
  range : String
  kind : Kind
  compiledTypesSha256 : Option String
  deriving DecidableEq

structure ImportSpec extends ImportDecl where
  name : String
  deriving DecidableEq

structure AvailabilityWatch where
  id : Nat
  name : String
  consumerId : String
  consumerGen : Nat
  attempted : Option (String × Nat)
  deriving DecidableEq

structure InterfaceRegistry where
  watches : Nat → Option AvailabilityWatch
  ifaces : String → Option InterfaceEntry
  imports : String → Option (String → Option ImportDecl)
  importOrder : String → Option (List String)

/-- The Unicode `White_Space` property. -/
def isWhitespace (c : Char) : Bool :=
  let n := c.toNat
  (9 ≤ n && n ≤ 13) || (0x2000 ≤ n && n ≤ 0x200a) ||
    n ∈ [0x20,0x85,0xa0,0x1680,0x2028,0x2029,0x202f,0x205f,0x3000]

def trim (s : String) : List Char :=
  ((s.toList.dropWhile isWhitespace).reverse.dropWhile isWhitespace).reverse

/-- `parse::<u32>` on ASCII digits. -/
def parseU32 (digits : List Char) : Option Nat :=
  if digits.isEmpty then none
  else
    let value := digits.foldl (fun value c => 10 * value + (c.toNat - 48)) 0
    if value < 2 ^ 32 then some value else none

def leadingMajor (s : String) : Option Nat :=
  let afterOp := s.toList.dropWhile (fun c => !c.isDigit)
  parseU32 (afterOp.takeWhile Char.isDigit)

def versionSatisfies (range version : String) : Bool :=
  if trim range = ['*'] then true
  else match leadingMajor range, leadingMajor version with
    | some wanted, some offered => wanted = offered
    | _, _ => false

namespace InterfaceRegistry

def new : InterfaceRegistry := ⟨fun _ => none,fun _ => none,fun _ => none,fun _ => none⟩

/-- A different producer's entry refuses; the same producer's is replaced in place and
keeps its subscribers. -/
def publish (r : InterfaceRegistry) (name version typesSha256 producerId : String)
    (producerGen : Nat) (methodNames : List String) : InterfaceRegistry × Except String Unit :=
  let subscribers := ((r.ifaces name).map InterfaceEntry.subscribers).getD []
  let entry : InterfaceEntry :=
    ⟨version,typesSha256,producerId,producerGen,methodNames,subscribers⟩
  let published := { r with ifaces := Function.update r.ifaces name (some entry) }
  match r.ifaces name with
  | some existing =>
    if existing.producerId ≠ producerId then
      (r,.error ("interface '" ++ name ++ "' is already published by '" ++ existing.producerId ++
        "' — '" ++ producerId ++ "' cannot also publish it " ++
        "(implementations are alternatives; load only one)"))
    else (published,.ok ())
  | none => (published,.ok ())

def lookup (r : InterfaceRegistry) (name : String) : Option InterfaceEntry := r.ifaces name

def removeByProducer (r : InterfaceRegistry) (producerId : String) : InterfaceRegistry :=
  { r with ifaces := fun name => (r.ifaces name).filter (fun e => e.producerId ≠ producerId) }

/-- Of two declarations of one name the later counts. -/
def setImports (r : InterfaceRegistry) (pluginId : String) (decls : List ImportSpec) :
    InterfaceRegistry × List String :=
  let map (name : String) : Option ImportDecl :=
    (decls.reverse.find? (fun d => d.name = name)).map ImportSpec.toImportDecl
  ({ r with
      imports := Function.update r.imports pluginId (some map)
      importOrder := Function.update r.importOrder pluginId (some (decls.map ImportSpec.name)) },
    (r.importOrder pluginId).getD [])

def importNames (r : InterfaceRegistry) (pluginId : String) : List String :=
  (r.importOrder pluginId).getD []

def clearImports (r : InterfaceRegistry) (pluginId : String) : InterfaceRegistry :=
  { r with
    imports := Function.update r.imports pluginId none
    importOrder := Function.update r.importOrder pluginId none }

def decl (r : InterfaceRegistry) (pluginId name : String) : Option ImportDecl :=
  (r.imports pluginId).bind (fun decls => decls name)

def depKind (r : InterfaceRegistry) (pluginId name : String) : Option Kind :=
  (r.decl pluginId name).map ImportDecl.kind

/-- Hashes are compared only when both sides carry one. -/
def callTargetInner (r : InterfaceRegistry) (pluginId name : String) (method : Option String) :
    CallTarget :=
  match r.decl pluginId name with
  | none => .unavailable
  | some d => match r.ifaces name with
    | none => .unavailable
    | some entry =>
      if !versionSatisfies d.range entry.version then .versionMismatch
      else if !entry.typesSha256.isEmpty &&
          d.compiledTypesSha256.any (fun expected => !expected.isEmpty && expected ≠ entry.typesSha256) then
        .typesMismatch
      else if method.any (fun m => m ∉ entry.methodNames) then .unavailable
      else .ok

def callTarget (r : InterfaceRegistry) (pluginId name method : String) : CallTarget :=
  r.callTargetInner pluginId name (some method)

def bindTarget (r : InterfaceRegistry) (pluginId name : String) : CallTarget :=
  r.callTargetInner pluginId name none

def isAvailable (r : InterfaceRegistry) (pluginId name : String) : Bool :=
  r.callTargetInner pluginId name none = .ok

def verifiedImport (r : InterfaceRegistry) (consumer name : String) : Bool :=
  match r.ifaces name with
  | none => false
  | some entry =>
    ((r.decl consumer name).bind ImportDecl.compiledTypesSha256).any
      (fun hash => !hash.isEmpty && hash = entry.typesSha256)

def producerOf (r : InterfaceRegistry) (name : String) : Option (String × Nat) :=
  (r.ifaces name).map (fun e => (e.producerId,e.producerGen))

/-- Only an optional import can be watched. -/
def addWatch (r : InterfaceRegistry) (watch : AvailabilityWatch) : InterfaceRegistry × Bool :=
  if r.depKind watch.consumerId watch.name ≠ some .optional then (r,false)
  else ({ r with watches := Function.update r.watches watch.id (some watch) },true)

def removeWatch (r : InterfaceRegistry) (id : Nat) : InterfaceRegistry :=
  { r with watches := Function.update r.watches id none }

def attemptWatch (r : InterfaceRegistry) (id : Nat) (provider : String × Nat) :
    InterfaceRegistry :=
  let watch := (r.watches id).map (fun watch => { watch with attempted := some provider })
  { r with watches := Function.update r.watches id watch }

/-- Rewrite the subscribers of one entry. -/
def resubscribe (r : InterfaceRegistry) (name : String)
    (change : List Subscriber → List Subscriber) : InterfaceRegistry :=
  let entry := (r.ifaces name).map (fun e => { e with subscribers := change e.subscribers })
  { r with ifaces := Function.update r.ifaces name entry }

def addSubscriber (r : InterfaceRegistry) (name : String) (sub : Subscriber) :
    InterfaceRegistry × Bool :=
  (r.resubscribe name (· ++ [sub]),(r.ifaces name).isSome)

/-- The first entry, in the map's iteration order `names`, that has the subscription. -/
def removeSubscriber (r : InterfaceRegistry) (id : Nat) (consumer : String) (generation : Nat) :
    List String → InterfaceRegistry × Bool
  | [] => (r,false)
  | name :: names =>
    let mine (s : Subscriber) : Bool :=
      s.subId = id && s.consumerId = consumer && s.consumerGen = generation
    if (r.ifaces name).any (fun e => e.subscribers.any mine) then
      (r.resubscribe name (fun subs => subs.eraseP mine),true)
    else r.removeSubscriber id consumer generation names

def removeSubscribersByConsumer (r : InterfaceRegistry) (consumerId : String) : InterfaceRegistry :=
  { r with ifaces := fun name => (r.ifaces name).map (fun e =>
      { e with subscribers := e.subscribers.filter (fun s => s.consumerId ≠ consumerId) }) }

def removeSubscribersByConsumerOn (r : InterfaceRegistry) (consumerId name event : String) :
    InterfaceRegistry :=
  r.resubscribe name (fun subs =>
    subs.filter (fun s => !(s.consumerId = consumerId && s.event = event)))

/-- One of the consumer's declared imports is published by the producer now. -/
def ImportsFrom (r : InterfaceRegistry) (consumer producer : String) : Prop :=
  ∃ name, (r.decl consumer name).isSome ∧ ∃ entry, r.ifaces name = some entry ∧ entry.producerId = producer

/-- Consumers before the producers they import from; the members of a cycle as they are listed. -/
def unloadOrder (r : InterfaceRegistry) [DecidableRel r.ImportsFrom] (ids : List String) : List String :=
  GreedyOrder.peel r.ImportsFrom ids

def clear (_ : InterfaceRegistry) : InterfaceRegistry := new

/-- Everything but subscriptions and watches is the same: what a binding depends on. -/
structure Alike (r after : InterfaceRegistry) : Prop where
  imports : after.imports = r.imports
  entries : ∀ name, (after.ifaces name).map (fun e => { e with subscribers := [] }) =
    (r.ifaces name).map (fun e => { e with subscribers := [] })

namespace Alike

theorem refl (r : InterfaceRegistry) : r.Alike r := ⟨rfl,fun _ => rfl⟩

theorem trans {first second third : InterfaceRegistry} (one : first.Alike second)
    (two : second.Alike third) : first.Alike third :=
  ⟨two.imports.trans one.imports,fun name => (two.entries name).trans (one.entries name)⟩

theorem resubscribe (r : InterfaceRegistry) (name : String)
    (change : List Subscriber → List Subscriber) : r.Alike (r.resubscribe name change) := by
  refine ⟨rfl,fun other => ?_⟩
  by_cases same : other = name
  · subst same
    cases entry : r.ifaces other <;> simp [InterfaceRegistry.resubscribe,entry]
  · simp [InterfaceRegistry.resubscribe,same]

theorem addWatch (r : InterfaceRegistry) (watch : AvailabilityWatch) :
    r.Alike (r.addWatch watch).1 := by
  unfold InterfaceRegistry.addWatch
  split
  · exact .refl r
  · exact ⟨rfl,fun _ => rfl⟩

theorem removeSubscriber (r : InterfaceRegistry) (id : Nat) (consumer : String)
    (generation : Nat) (names : List String) :
    r.Alike (r.removeSubscriber id consumer generation names).1 := by
  induction names with
  | nil => exact .refl r
  | cons name names previous =>
    unfold InterfaceRegistry.removeSubscriber
    simp only
    split
    · exact .resubscribe r name _
    · exact previous

theorem removeSubscribersByConsumer (r : InterfaceRegistry) (consumerId : String) :
    r.Alike (r.removeSubscribersByConsumer consumerId) := by
  refine ⟨rfl,fun name => ?_⟩
  cases entry : r.ifaces name <;> simp [InterfaceRegistry.removeSubscribersByConsumer,entry]

section Answers

variable {r after : InterfaceRegistry} (alike : r.Alike after)
include alike

theorem decl (consumer name : String) : after.decl consumer name = r.decl consumer name := by
  simp [InterfaceRegistry.decl,alike.imports]

/-- An entry keeps all but its subscribers. -/
theorem entry (name : String) :
    after.ifaces name = none ∧ r.ifaces name = none ∨
      ∃ e e', after.ifaces name = some e' ∧ r.ifaces name = some e ∧ e'.version = e.version ∧
        e'.typesSha256 = e.typesSha256 ∧ e'.producerId = e.producerId ∧
        e'.producerGen = e.producerGen ∧ e'.methodNames = e.methodNames := by
  have same := alike.entries name
  cases new : after.ifaces name with
  | none =>
    cases old : r.ifaces name with
    | none => exact .inl ⟨rfl,rfl⟩
    | some e => simp [new,old] at same
  | some e' =>
    cases old : r.ifaces name with
    | none => simp [new,old] at same
    | some e =>
      simp only [new,old,Option.map_some,Option.some.injEq,InterfaceEntry.mk.injEq] at same
      exact .inr ⟨e,e',rfl,rfl,same.1,same.2.1,same.2.2.1,same.2.2.2.1,same.2.2.2.2.1⟩

theorem bindTarget (consumer name : String) :
    after.bindTarget consumer name = r.bindTarget consumer name := by
  unfold InterfaceRegistry.bindTarget InterfaceRegistry.callTargetInner
  rw [alike.decl]
  rcases alike.entry name with ⟨new,old⟩ | ⟨e,e',new,old,version,types,_,_,_⟩
  · rw [new,old]
  · simp only [new,old,version,types,Option.any_none]

theorem verifiedImport (consumer name : String) :
    after.verifiedImport consumer name = r.verifiedImport consumer name := by
  unfold InterfaceRegistry.verifiedImport
  rw [alike.decl]
  rcases alike.entry name with ⟨new,old⟩ | ⟨e,e',new,old,_,types,_,_,_⟩
  · rw [new,old]
  · simp only [new,old,types]

theorem producerOf (name : String) : after.producerOf name = r.producerOf name := by
  unfold InterfaceRegistry.producerOf
  rcases alike.entry name with ⟨new,old⟩ | ⟨e,e',new,old,_,_,producer,generation,_⟩
  · rw [new,old]
  · simp [new,old,producer,generation]

end Answers
end Alike

section UnloadOrder

open GreedyOrder Relation

/-- The listed plugins in another order: each goes before those it imports from, unless it is on
an import cycle of the list or imported, over any number of steps, by a plugin on one. -/
theorem unloadOrder_respects_imports (r : InterfaceRegistry) [DecidableRel r.ImportsFrom] (ids : List String) (distinct : ids.Nodup) :
    (r.unloadOrder ids).Perm ids ∧ ∀ q ∈ ids, ∀ p ∈ ids, q ≠ p → r.ImportsFrom q p →
      [q,p].Sublist (r.unloadOrder ids) ∨
        ∃ u, TransGen (UsesAmong r.ImportsFrom ids) u u ∧ ReflTransGen (UsesAmong r.ImportsFrom ids) u q := by
  constructor
  · exact peel_perm r.ImportsFrom ids
  · intro q user p used other imports
    exact peel_before distinct ⟨user,used,other,imports⟩

/-- A consumer and the producer it imports from. -/
def consumerAndProducer : InterfaceRegistry :=
  ((new.publish "@x" "1.0.0" "" "prod" 0 []).1.setImports "cons" [⟨⟨"^1.0.0",.hard,none⟩,"@x"⟩]).1

open Classical in
theorem unloadOrder_consumer_first :
    (consumerAndProducer.unloadOrder ["prod","cons"]).Perm ["prod","cons"] ∧
      ([("cons" : String),"prod"].Sublist (consumerAndProducer.unloadOrder ["prod","cons"]) ∨
        ∃ u, TransGen (UsesAmong consumerAndProducer.ImportsFrom ["prod","cons"]) u u ∧
          ReflTransGen (UsesAmong consumerAndProducer.ImportsFrom ["prod","cons"]) u "cons") := by
  obtain ⟨perm,before⟩ := unloadOrder_respects_imports consumerAndProducer ["prod","cons"] (by decide)
  refine ⟨perm,before "cons" (by decide) "prod" (by decide) (by decide) ⟨"@x",rfl,_,rfl,rfl⟩⟩

end UnloadOrder

end InterfaceRegistry
end S2Script.Interfaces
