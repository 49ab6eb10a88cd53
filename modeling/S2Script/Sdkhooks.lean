import S2Script.ListIndex

/-! The hooks that plugins put on single entities: the store with its indexes, and the calls
that keep the engine's virtual hooks in step with it. -/
namespace S2Script.Sdkhooks

open ListIndex

variable {H : Type}

structure Entry (H : Type) where
  owner : String
  generation : Nat
  handler : H
  subId : Nat
  deriving DecidableEq, Repr

structure Bucket (H : Type) where
  entityIndex : Int
  engineSerial : Int
  entries : List (Entry H)
  deriving DecidableEq, Repr

structure EntityAddress where
  entityId : Nat
  entityIndex : Int
  engineSerial : Int
  firstSubId : Nat
  deriving DecidableEq, Repr

structure RemovedEntry where
  entityId : Nat
  entityIndex : Int
  engineSerial : Int
  kind : String
  bucketEmptied : Bool
  deriving DecidableEq, Repr

/-- The buckets hold the handlers; every other table is an index of them. -/
structure HookStore (H : Type) where
  buckets : Table Nat (Table String (Bucket H))
  bySub : Table Nat (Nat × String)
  byOwner : Table String (List Nat)
  byEntity : Table Nat (List Nat)
  kindCounts : Table String Nat
  kindEntities : Table String (List EntityAddress)

/-- Each kind of the engine's virtual hooks, with the function it hooks and whether after it. -/
def vpKinds : List (String × String × Nat) :=
  [("StartTouch","StartTouch",0),("StartTouchPost","StartTouch",1),("Touch","Touch",0),("TouchPost","Touch",1),
    ("EndTouch","EndTouch",0),("EndTouchPost","EndTouch",1),("Blocked","Blocked",0),("BlockedPost","Blocked",1),
    ("Spawn","Spawn",0),("SpawnPost","Spawn",1),("Think","Think",0),("ThinkPost","Think",1),
    ("PreThink","PreThink",0),("PreThinkPost","PreThink",1),("PostThink","PostThink",0),("PostThinkPost","PostThink",1),
    ("Use","Use",0),("UsePost","Use",1),("GetMaxHealth","GetMaxHealth",0),("ShouldCollide","ShouldCollide",0),
    ("VPhysicsUpdate","VPhysicsUpdate",0),("VPhysicsUpdatePost","VPhysicsUpdate",1),
    ("GroundEntChangedPost","GroundEntChangedPost",1),("CanBeAutobalanced","CanBeAutobalanced",0),("Reload","Reload",0),
    ("WeaponCanUse","WeaponCanUse",0),("WeaponCanUsePost","WeaponCanUse",1),
    ("WeaponCanSwitchTo","WeaponCanSwitchTo",0),("WeaponCanSwitchToPost","WeaponCanSwitchTo",1),
    ("WeaponDrop","WeaponDrop",0),("WeaponDropPost","WeaponDrop",1),("WeaponEquip","WeaponEquip",0),
    ("WeaponEquipPost","WeaponEquip",1),("WeaponSwitch","WeaponSwitch",0),("WeaponSwitchPost","WeaponSwitch",1)]

def vpKind (kind : String) : Option (String × Nat) := vpKinds.lookup kind

def isKnownKind (kind : String) : Bool := kind == "SetTransmit" || (vpKind kind).isSome

/-- Two kinds never stand for one engine hook. -/
theorem vpKind_inj {kind other : String} {hook : String × Nat} (here : vpKind kind = some hook)
    (there : vpKind other = some hook) : kind = other := by
  have apart : vpKinds.Pairwise fun a b => a.2 ≠ b.2 := by decide +kernel
  have symmetric : Std.Symm fun a b : String × String × Nat => a.2 ≠ b.2 := ⟨fun _ _ ne => ne.symm⟩
  have listed : ∀ {name}, vpKind name = some hook → (name,hook) ∈ vpKinds := by
    intro name found
    obtain ⟨before,after,split,_⟩ := List.lookup_eq_some_iff.mp found
    rw [split]
    exact List.mem_append_right _ List.mem_cons_self
  by_contra differ
  exact apart.forall (listed here) (listed there) (fun same => differ (congrArg Prod.fst same)) rfl

namespace HookStore

def empty : HookStore H := ⟨∅,∅,∅,∅,∅,∅⟩

def bucket (store : HookStore H) (entityId : Nat) (kind : String) : Option (Bucket H) :=
  (store.buckets.lookup entityId).bind fun kinds => kinds.lookup kind

def has (store : HookStore H) (entityId : Nat) (kind : String) : Bool := (store.bucket entityId kind).isSome

def insert (store : HookStore H) (entityId : Nat) (entityIndex engineSerial : Int) (kind : String) (entry : Entry H) :
    HookStore H :=
  let firstForEntityKind := !store.has entityId kind
  let kinds := (store.buckets.lookup entityId).getD ∅
  let bucket := (kinds.lookup kind).getD ⟨entityIndex,engineSerial,[]⟩
  { buckets := store.buckets.insert entityId (kinds.insert kind { bucket with entries := bucket.entries ++ [entry] })
    bySub := store.bySub.insert entry.subId (entityId,kind)
    byOwner := pushAt store.byOwner entry.owner entry.subId
    byEntity := pushAt store.byEntity entityId entry.subId
    kindCounts := store.kindCounts.insert kind ((store.kindCounts.lookup kind).getD 0 + 1)
    kindEntities :=
      if firstForEntityKind then pushAt store.kindEntities kind ⟨entityId,entityIndex,engineSerial,entry.subId⟩
      else store.kindEntities }

def snapshot (store : HookStore H) (entityId : Nat) (kind : String) : List (String × Nat × H) :=
  ((store.bucket entityId kind).map fun bucket =>
    bucket.entries.map fun entry => (entry.owner,entry.generation,entry.handler)).getD []

def findSubId (store : HookStore H) (entityId : Nat) (kind : String) (isMatch : Entry H → Bool) : Option Nat :=
  (store.bucket entityId kind).bind fun bucket => (bucket.entries.find? isMatch).map Entry.subId

/-- The entity left the kind's list: it is listed no more, nor is the kind once none is. -/
def unlistEntity (kindEntities : Table String (List EntityAddress)) (kind : String) (entityId : Nat) :
    Table String (List EntityAddress) :=
  match kindEntities.lookup kind with
  | none => kindEntities
  | some entities =>
    let rest := entities.filter fun address => address.entityId != entityId
    if rest.isEmpty then kindEntities.erase kind else kindEntities.insert kind rest

/-- The entity's first subscription went: it moves to the place of its next one. -/
def rerankEntity (kindEntities : Table String (List EntityAddress)) (kind : String) (entityId firstSubId : Nat) :
    Table String (List EntityAddress) :=
  match kindEntities.lookup kind with
  | none => kindEntities
  | some entities =>
    match entities.find? fun address => address.entityId == entityId with
    | none => kindEntities
    | some address =>
      let rest := entities.eraseP fun address => address.entityId == entityId
      kindEntities.insert kind (place EntityAddress.firstSubId { address with firstSubId := firstSubId } rest)

/-- One subscription less of the kind. -/
def countDown (kindCounts : Table String Nat) (kind : String) : Table String Nat :=
  match kindCounts.lookup kind with
  | none => kindCounts
  | some count => if count - 1 = 0 then kindCounts.erase kind else kindCounts.insert kind (count - 1)

/-- Put an entity's bucket back without the removed entry, and drop what is empty by then. -/
def putBack (buckets : Table Nat (Table String (Bucket H))) (entityId : Nat) (kinds : Table String (Bucket H))
    (kind : String) (bucket : Bucket H) : Table Nat (Table String (Bucket H)) :=
  if bucket.entries.isEmpty then
    let kinds := kinds.erase kind
    if kinds.entries.isEmpty then buckets.erase entityId else buckets.insert entityId kinds
  else buckets.insert entityId (kinds.insert kind bucket)

def removeSub (store : HookStore H) (subId : Nat) : HookStore H × Option RemovedEntry :=
  match store.bySub.lookup subId with
  | none => (store,none)
  | some (entityId,kind) =>
    let store := { store with bySub := store.bySub.erase subId }
    match store.buckets.lookup entityId with
    | none => (store,none)
    | some kinds =>
      match kinds.lookup kind with
      | none => (store,none)
      | some bucket =>
        match bucket.entries.find? fun entry => entry.subId == subId with
        | none => (store,none)
        | some entry =>
          let atFront := bucket.entries.head?.any fun entry => entry.subId == subId
          let rest := bucket.entries.eraseP fun entry => entry.subId == subId
          let newFirstSubId := if atFront then rest.head?.map Entry.subId else none
          ({ buckets := putBack store.buckets entityId kinds kind { bucket with entries := rest }
             bySub := store.bySub
             byOwner := dropAt store.byOwner entry.owner subId
             byEntity := dropAt store.byEntity entityId subId
             kindCounts := countDown store.kindCounts kind
             kindEntities :=
               if rest.isEmpty then unlistEntity store.kindEntities kind entityId
               else match newFirstSubId with
                 | none => store.kindEntities
                 | some firstSubId => rerankEntity store.kindEntities kind entityId firstSubId },
           some ⟨entityId,bucket.entityIndex,bucket.engineSerial,kind,rest.isEmpty⟩)

def removeSubs (store : HookStore H) : List Nat → HookStore H × List RemovedEntry
  | [] => (store,[])
  | subId :: rest =>
    let (store,removed) := store.removeSub subId
    let (store,others) := store.removeSubs rest
    (store,removed.toList ++ others)

def ownerSubscriptions (store : HookStore H) (owner : String) : List Nat := (store.byOwner.lookup owner).getD []

def entitySubscriptions (store : HookStore H) (entityId : Nat) : List Nat := (store.byEntity.lookup entityId).getD []

def kindActive (store : HookStore H) (kind : String) : Bool := (store.kindCounts.lookup kind).getD 0 != 0

def kindEntitiesOf (store : HookStore H) (kind : String) : List (Int × Int) :=
  ((store.kindEntities.lookup kind).getD []).map fun address => (address.entityIndex,address.engineSerial)

/-- The earlier of the best first subscription so far and a bucket's, if that is of a virtual kind. -/
def earlierVpSub (current : Option (Nat × Int × Int)) (entry : Sigma fun _ : String => Bucket H) : Option (Nat × Int × Int) :=
  match vpKind entry.1,entry.2.entries.head? with
  | some _,some first =>
    let candidate := (first.subId,entry.2.entityIndex,entry.2.engineSerial)
    match current with
    | none => some candidate
    | some best => if candidate.1 < best.1 then some candidate else some best
  | _,_ => current

def firstVpSub (kinds : Table String (Bucket H)) : Option (Nat × Int × Int) := kinds.entries.foldl earlierVpSub none

def vpEntitiesInRegistrationOrder (store : HookStore H) : List (Int × Int) :=
  ((store.buckets.values.filterMap firstVpSub).mergeSort fun a b => a.1 ≤ b.1).map Prod.snd

end HookStore

/-- What the engine is told about one entity, by its index and serial. -/
inductive Call where
  | add (index serial : Int) (hook : String × Nat) (added : Bool)
  | remove (index serial : Int) (hook : String × Nat)
  | drop (index serial : Int)
  deriving DecidableEq, Repr

/-- The store, every call to the engine so far, oldest first, and the next subscription id. -/
structure Host (H : Type) where
  store : HookStore H
  calls : List Call
  nextSubId : Nat

namespace Host

def start : Host H := ⟨.empty,[],1⟩

def call (host : Host H) (call : Call) : Host H := { host with calls := host.calls ++ [call] }

def stillHas (host : Host H) (entityId : Nat) (kind : String) : Bool := host.store.has entityId kind

def unhookVpIfLast (host : Host H) (index serial : Int) (entityId : Nat) (kind : String) : Host H :=
  match vpKind kind with
  | none => host
  | some hook => if host.stillHas entityId kind then host else host.call (.remove index serial hook)

/-- The engine hooks of the emptied buckets go once the whole batch is out of the store. -/
def removeSubscriptions (host : Host H) (ids : List Nat) : Host H :=
  let (store,removed) := host.store.removeSubs ids
  removed.foldl (fun host entry =>
    if entry.bucketEmptied then host.unhookVpIfLast entry.entityIndex entry.engineSerial entry.entityId entry.kind
    else host) { host with store := store }

def unloadOwner (host : Host H) (owner : String) : Host H := host.removeSubscriptions (host.store.ownerSubscriptions owner)

def dropEntity (host : Host H) (id : Nat) : Host H :=
  let ids := host.store.entitySubscriptions id
  let coords := ids.head?.bind fun subId => (host.store.bySub.lookup subId).bind fun (entityId,kind) =>
    (host.store.bucket entityId kind).map fun bucket => (bucket.entityIndex,bucket.engineSerial)
  let host := { host with store := (host.store.removeSubs ids).1 }
  match coords with
  | none => host
  | some (index,serial) => host.call (.drop index serial)

def dropAll (host : Host H) : Host H :=
  { host with
    store := .empty
    calls := host.calls ++ host.store.vpEntitiesInRegistrationOrder.map fun address => .drop address.1 address.2 }

/-- What a call of the hook native brings: its arguments (a callback only if it is a function),
what the entity books answer, the calling plugin, the engine's answer to an add, and how many
subscription ids other stores took before. -/
structure Hooking (H : Type) where
  index : Int
  id : Nat
  kind : String
  handler : Option H
  engineSerialFor : Option Int
  owner : String
  generation : Nat
  added : Bool
  taken : Nat
  deriving DecidableEq

def sdkhook (host : Host H) (args : Hooking H) : Host H × Bool :=
  match args.engineSerialFor with
  | none => (host,false)
  | some serial =>
    if !isKnownKind args.kind then (host,false)
    else match args.handler with
      | none => (host,false)
      | some handler =>
        let insert (host : Host H) : Host H × Bool :=
          let subId := host.nextSubId + args.taken
          ({ host with
              store := host.store.insert args.id args.index serial args.kind ⟨args.owner,args.generation,handler,subId⟩
              nextSubId := subId + 1 },true)
        match vpKind args.kind with
        | none => insert host
        | some hook =>
          if host.stillHas args.id args.kind then insert host
          else if args.added then insert (host.call (.add args.index serial hook true))
          else (host.call (.add args.index serial hook false),false)

def sdkunhook [DecidableEq H] (host : Host H) (id : Nat) (kind : String) (handler : Option H) (owner : String) :
    Host H × Bool :=
  match handler with
  | none => (host,false)
  | some handler =>
    match host.store.findSubId id kind fun entry => entry.owner == owner && entry.handler == handler with
    | none => (host,false)
    | some subId => (host.removeSubscriptions [subId],true)

end Host

inductive Operation (H : Type) where
  | sdkhook (args : Host.Hooking H)
  | sdkunhook (id : Nat) (kind : String) (handler : Option H) (owner : String)
  | unloadOwner (owner : String)
  | removeIds (ids : List Nat)
  | dropEntity (id : Nat)
  | dropAll

variable [DecidableEq H]

def execute (host : Host H) : Operation H → Host H
  | .sdkhook args => (host.sdkhook args).1
  | .sdkunhook id kind handler owner => (host.sdkunhook id kind handler owner).1
  | .unloadOwner owner => host.unloadOwner owner
  | .removeIds ids => host.removeSubscriptions ids
  | .dropEntity id => host.dropEntity id
  | .dropAll => host.dropAll

def run (operations : List (Operation H)) : Host H := operations.foldl execute .start

end S2Script.Sdkhooks
