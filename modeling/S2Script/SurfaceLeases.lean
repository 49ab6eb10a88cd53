import S2Script.Liveness
import S2Script.Reentrant

/-! Surface arbitration: leases over lanes of a surface, the retirement of outgoing
presentations through engine calls, and the host frame that retries failed ones. -/
namespace S2Script.SurfaceLeases

open Liveness Reentrant

structure Key where
  surface : String
  index : Int
  entity : Nat
  slot : Int
  client : Nat
  lane : Nat
  deriving DecidableEq

def Key.sameGroup (key other : Key) : Bool :=
  key.surface == other.surface && key.index == other.index && key.entity == other.entity &&
    key.slot == other.slot && key.client == other.client

inductive Policy where
  | focus | explicit | legacy
  deriving DecidableEq

/-- A JSON value as suspension arguments are told apart. -/
inductive Json where
  | integer (value : Int)
  | boolean (value : Bool)
  | text (value : String)
  | other
  deriving DecidableEq

structure Capture where
  call : String
  token : String
  deriving DecidableEq

structure Suspend where
  call : String
  args : List Json
  deriving DecidableEq

structure Adapter where
  capture : Option Capture := none
  suspend : Option Suspend := none
  deriving DecidableEq

structure Parent where
  token : Nat
  key : Key
  policy : Policy
  capacity : Nat
  deriving DecidableEq

/-- What never changes about a lease. -/
structure Record where
  token : Nat
  owner : String
  generation : Nat
  key : Key
  priority : Int
  game : Option String
  adapter : Adapter
  policy : Policy
  capacity : Nat
  parent : Option Parent
  deriving DecidableEq

structure Lease extends Record where
  activated : Bool
  activatedIn : Option Nat
  readyAfter : Nat
  deriving DecidableEq

/-- The map from tokens to leases is a list of them. -/
structure Registry where
  leases : List Lease
  pending : List Lease
  frame : Nat

/-- `saturating_add(1)` on an unsigned 64-bit counter. -/
def saturatingSucc (n : Nat) : Nat := min (n + 1) (2 ^ 64 - 1)

inductive LeaseState where
  | invalid | covered | waiting | active | ready
  deriving DecidableEq

/-- Records rank by priority, then by token. -/
instance rankOrder : LinearOrder (Int ×ₗ Nat) :=
  @Prod.Lex.instLinearOrder Int Nat Int.instLinearOrder Nat.instLinearOrder

instance rankPreorder : Preorder (Int ×ₗ Nat) := rankOrder.toPartialOrder.toPreorder

/-- The greatest `(priority, token)` among the records of a key. -/
def winnerOf (records : List Record) (key : Key) : Option Record :=
  (records.filter (fun r => r.key = key)).argmax (fun r => toLex (r.priority,r.token))

namespace Registry

def lookup (r : Registry) (token : Nat) : Option Lease := r.leases.find? (fun l => l.token = token)

def records (r : Registry) : List Record := r.leases.map Lease.toRecord

def winner (r : Registry) (key : Key) : Option Nat := (winnerOf r.records key).map Record.token

def pendingKey (r : Registry) (key : Key) : Bool :=
  r.pending.any (fun l => l.key = key || l.parent.any (fun p => p.key = key))

def pendingGroup (r : Registry) (key : Key) : Bool :=
  r.pending.any (fun l => l.key.sameGroup key || l.parent.any (fun p => p.key.sameGroup key))

def state (r : Registry) (token : Nat) (owner : String) : LeaseState :=
  match (r.lookup token).filter (fun l => l.owner = owner) with
  | none => .invalid
  | some l =>
    if r.winner l.key ≠ some token then .covered
    else if r.pendingKey l.key || r.frame < l.readyAfter then .waiting
    else if l.activated then .active else .ready

/-- Clear the activation of a token and hold it back until the next frame. -/
def suspend (r : Registry) (token : Nat) : Registry × Option Lease :=
  let held (l : Lease) : Lease :=
    if l.token = token then { l with activated := false, readyAfter := saturatingSucc r.frame } else l
  ({ r with leases := r.leases.map held },(r.lookup token).map held)

def suspendWinner (r : Registry) (key : Key) : Registry :=
  match r.winner key with
  | some next => (r.suspend next).1
  | none => r

def remove (r : Registry) (token : Nat) : Option (Registry × Lease × Bool) :=
  match r.lookup token with
  | none => none
  | some removed =>
    let wasWinner := decide (r.winner removed.key = some token)
    let rest := { r with leases := r.leases.filter (fun l => l.token ≠ token) }
    some (if wasWinner then rest.suspendWinner removed.key else rest,removed,wasWinner)

def removeEach : List Nat → Registry → Registry × List Lease
  | [], r => (r,[])
  | token :: tokens, r => match r.remove token with
    | none => removeEach tokens r
    | some (rest,removed,_) =>
      let (final,others) := removeEach tokens rest
      (final,removed :: others)

def childOf (roots : List Nat) (l : Lease) : Bool := l.parent.any (fun p => p.token ∈ roots)

/-- The roots and their children, children first. Only those that owned the
presentation of their key before anything was removed are handed back. -/
def removeMany (r : Registry) (roots : List Nat) : Registry × List Lease :=
  if roots.isEmpty then (r,[])
  else
    let tokens := (r.leases.filter (fun l => l.token ∈ roots || childOf roots l)).map (·.token)
    let wins (token : Nat) : Bool := (r.lookup token).any (fun l => r.winner l.key = some token)
    let winners := tokens.filter wins
    let rootLess (token : Nat) : Bool := (r.lookup token).any (fun l => l.parent.isNone)
    let ordered := tokens.insertionSort (fun a b => rootLess a ≤ rootLess b)
    let (rest,removed) := removeEach ordered r
    (rest,removed.filter (fun l => l.token ∈ winners))

def removeTree (r : Registry) (token : Nat) : Registry × List Lease := r.removeMany [token]

end Registry

/-- A lane taken: by a lease, by a pending retirement or by its recorded parent. -/
structure Place where
  token : Nat
  key : Key
  policy : Policy
  capacity : Nat
  deriving DecidableEq

def Record.place (r : Record) : Place := ⟨r.token,r.key,r.policy,r.capacity⟩

def Parent.place (p : Parent) : Place := ⟨p.token,p.key,p.policy,p.capacity⟩

def Registry.occupancy (r : Registry) : List Place :=
  r.leases.map (fun l => l.toRecord.place) ++
    r.pending.flatMap (fun l => l.toRecord.place :: (l.parent.map Parent.place).toList)

structure Failure where
  code : String
  message : String
  deriving DecidableEq

/-- A resolved engine call of the game package, as the adapters' checks read it. -/
structure InvokePlan where
  args : List String
  returnsVoid : Bool
  direct : Bool
  receiverless : Bool

/-- The game package's declared calls. -/
structure GameCalls where
  owner : Option String
  plan : String → String → Option InvokePlan
  status : String → String → String

def require (condition : Bool) (code message : String) : Except Failure Unit :=
  if condition then .ok () else .error ⟨code,message⟩

def bounded (s : String) : Bool := !s.isEmpty && s.utf8ByteSize ≤ 256 && !s.toList.contains '\x00'

def suspensionPlan (calls : GameCalls) (game : String) (action : Suspend) :
    Except String InvokePlan :=
  match calls.plan game action.call with
  | none => .error s!"unavailable: {action.call}: {calls.status game action.call}"
  | some plan =>
    if plan.receiverless || !plan.direct || !plan.returnsVoid || plan.args.head? ≠ some "int" ||
        8 < plan.args.length ||
        (plan.args.drop 1).any (fun kind => kind ∉ ["int","bool","string","utlstring"]) then
      .error "surface suspension needs entity void(int, scalar/string...) binding without via"
    else .ok plan

def argumentMatches (kind : String) (arg : Json) : Bool :=
  match kind, arg with
  | "int", .integer value => -2 ^ 31 ≤ value && value < 2 ^ 31
  | "bool", .boolean _ => true
  | "string", .text value => bounded value
  | "utlstring", .text value => bounded value
  | _, _ => false

def suspensionArgs (plan : InvokePlan) (action : Suspend) : Except Failure Unit := do
  require (plan.args.length = action.args.length + 1) "InvalidArgument"
    "surface suspension argument count does not match binding"
  require (((plan.args.drop 1).zip action.args).all (fun pair => argumentMatches pair.1 pair.2))
    "InvalidArgument" "surface suspension argument does not match binding"

def validateCapture (calls : GameCalls) (game : String) (c : Capture) : Except Failure Unit := do
  require (bounded c.call && bounded c.token) "InvalidArgument" "invalid capture binding/token"
  match calls.plan game c.call with
  | none => .error ⟨"Unavailable","capture binding unavailable"⟩
  | some plan =>
    require (!plan.receiverless && plan.direct && plan.returnsVoid && plan.args = ["int","bool"])
      "InvalidArgument" "capture needs entity void(int,bool) binding without via"

def validateSuspend (calls : GameCalls) (game : String) (s : Suspend) : Except Failure Unit := do
  require (bounded s.call && s.args.length ≤ 7) "InvalidArgument"
    "invalid suspension binding/arguments"
  match suspensionPlan calls game s with
  | .error message => .error ⟨"Unavailable",message⟩
  | .ok plan => suspensionArgs plan s

def validateAdapter (calls : GameCalls) (adapter : Adapter) : Except Failure Unit :=
  if adapter.capture.isNone && adapter.suspend.isNone then .ok ()
  else match calls.owner with
    | none => .error ⟨"Unavailable","surface binding needs a game package"⟩
    | some game => do
      match adapter.capture with
      | some c => validateCapture calls game c
      | none => .ok ()
      match adapter.suspend with
      | some s => validateSuspend calls game s
      | none => .ok ()

def validateAdapters (calls : GameCalls) : List Adapter → Except Failure Unit
  | [] => .ok ()
  | adapter :: adapters => do
    validateAdapter calls adapter
    validateAdapters calls adapters

/-- The registry with the books it consults. `painted` records, for the presentations
on screen, the token that activated and its key, until its retirement succeeds. -/
structure World where
  registry : Registry
  nextToken : Nat
  transition : Bool
  clients : LiveTable Int Unit
  entities : EntityBooks
  plugins : LiveTable String Unit
  calls : GameCalls
  painted : List (Nat × Key)

def initial : World :=
  ⟨⟨[],[],0⟩,1,false,.new 1,.new 1,.new 1,⟨none,fun _ _ => none,fun _ _ => ""⟩,[]⟩

/-- What a reservation has settled before it retires anything. -/
structure Reservation where
  owner : String
  generation : Nat
  key : Key
  priority : Int
  game : Option String
  adapter : Adapter
  policy : Policy
  capacity : Nat
  parent : Option Parent

/-- Which pending records a sweep keeps when its retirements are done. -/
inductive Retain where
  | all
  | live
  | otherClient (slot : Int) (client : Nat)
  | otherEntity (index : Int) (entity : Nat)

/-- What an operation does after `retire_all`. A sweep holds the transition only
when no other operation did. -/
inductive After where
  | reserve (reservation : Reservation)
  | release
  | clearLegacy (owner : String) (generation : Nat) (key : Key)
  | sweep (entered : Bool) (retain : Retain)
  | advanceFrame

/-- Which engine call of `retire_presentation` is under way. -/
inductive Stage where
  | hiding
  | capturing (hidden : Except String Unit)

/-- An operation inside the retirement of `lease`, with `rest` still to retire. -/
structure Frame where
  lease : Lease
  stage : Stage
  rest : List Lease
  failure : Option String
  after : After

inductive Outcome where
  | reserved (token lane : Nat)
  | failed (failure : Failure)
  | flag (answer : Bool)
  | done

namespace World

def clientMatches (w : World) (slot : Int) (client : Nat) : Bool :=
  client ≠ 0 && w.clients.isLive slot client

def keyLive (w : World) (key : Key) : Bool :=
  w.clientMatches key.slot key.client && w.entities.live key.index key.entity

def ownerIsLive (w : World) (owner : String) (generation : Nat) : Bool :=
  w.plugins.isLive owner generation

def pluginGeneration (w : World) (owner : String) : Nat := (w.plugins.idOf owner).getD 0

def identityLive (w : World) (l : Lease) : Bool := w.keyLive l.key

def live (w : World) (l : Lease) : Bool :=
  w.identityLive l && w.ownerIsLive l.owner l.generation

/-- The presentation of `token` is gone. -/
def unpaint (w : World) (token : Nat) : World :=
  { w with painted := w.painted.filter (fun entry => entry.1 ≠ token) }

/-- The two ends of `retire_or_queue`, and the frame loop's step after a success. -/
def retired (w : World) (l : Lease) (result : Except String Unit) (after : After) : World :=
  match result with
  | .ok _ =>
    let w := w.unpaint l.token
    match after with
    | .advanceFrame => { w with registry := w.registry.suspendWinner l.key }
    | _ => w
  | .error _ =>
    if w.identityLive l && !w.registry.pending.any (fun p => p.token = l.token) then
      { w with registry := { w.registry with pending := w.registry.pending ++ [l] } }
    else w

def leave (w : World) : World := { w with transition := false }

/-- The end of a reservation: the token is minted, the lifetimes are read again and
the lease goes in. -/
def finishReserve (w : World) (r : Reservation) : World × Outcome :=
  let token := w.nextToken
  let w := { w with nextToken := token + 1 }
  let l : Lease :=
    { token, owner := r.owner, generation := r.generation, key := r.key, priority := r.priority,
      game := r.game, adapter := r.adapter, policy := r.policy, capacity := r.capacity,
      parent := r.parent, activated := false, activatedIn := none, readyAfter := 0 }
  if !w.live l || r.parent.any (fun p => (w.registry.lookup p.token).isNone) then
    (w.leave,.failed ⟨"Released","surface lifetime changed during reservation"⟩)
  else
    ({ w with registry := { w.registry with leases := w.registry.leases ++ [l] } }.leave,
      .reserved token r.key.lane)

def Retain.keeps (w : World) (l : Lease) : Retain → Bool
  | .all => true
  | .live => w.identityLive l
  | .otherClient slot client => l.key.slot ≠ slot || l.key.client ≠ client
  | .otherEntity index entity => l.key.index ≠ index || l.key.entity ≠ entity

def finishSweep (w : World) (entered : Bool) (retain : Retain) : World :=
  let w := if entered then w.leave else w
  { w with registry :=
      { w.registry with pending := w.registry.pending.filter (fun l => Retain.keeps w l retain) } }

/-- What follows `retire_all`, with the first failure it met. -/
def finish (w : World) (failure : Option String) : After → World × Outcome
  | .reserve r => match failure with
    | some message => (w.leave,.failed ⟨"Unavailable",message⟩)
    | none => w.finishReserve r
  | .release => (w.leave,.flag true)
  | .clearLegacy owner generation key => match failure with
    | some message => (w.leave,.failed ⟨"Unavailable",message⟩)
    | none =>
      if !w.keyLive key || !w.ownerIsLive owner generation then
        (w.leave,.failed ⟨"Released","surface lifetime changed during clear"⟩)
      else (w.leave,.done)
  | .sweep entered retain => (w.finishSweep entered retain,.done)
  | .advanceFrame => (w.leave,.done)

def captures (l : Lease) : Bool := l.adapter.capture.isSome && l.game.isSome

/-- `retire_all` up to the next engine call: a presentation whose identity is gone, or
without effects, is retired at once. -/
def retireAll : List Lease → Option String → After → World → World × Flow Frame Outcome
  | [], failure, after, w =>
    let (w,outcome) := w.finish failure after
    (w,.returned outcome)
  | l :: rest, failure, after, w =>
    if !w.identityLive l then retireAll rest failure after (w.retired l (.ok ()) after)
    else if l.adapter.suspend.isSome then (w,.calls ⟨l,.hiding,rest,failure,after⟩)
    else if captures l then (w,.calls ⟨l,.capturing (.ok ()),rest,failure,after⟩)
    else retireAll rest failure after (w.retired l (.ok ()) after)

/-- `failure.get_or_insert`. -/
def firstFailure (failure : Option String) : Except String Unit → Option String
  | .ok _ => failure
  | .error message => some (failure.getD message)

/-- The rest of the loop once `retire_presentation` has its result. -/
def settled (w : World) (f : Frame) (result : Except String Unit) : World × Flow Frame Outcome :=
  retireAll f.rest (firstFailure f.failure result) f.after (w.retired f.lease result f.after)

/-- Hiding can fail; the capture is released all the same. -/
def answered (w : World) (f : Frame) (answer : Except String Unit) : World × Flow Frame Outcome :=
  match f.stage with
  | .hiding =>
    if captures f.lease then (w,.calls { f with stage := .capturing answer })
    else w.settled f answer
  | .capturing hidden => w.settled f (match hidden with
    | .error message => .error message
    | .ok _ => answer)

/-- A linked reservation's parent: live, of the same owner and identity, without
effects of its own and without a child. -/
def checkParent (w : World) (owner : String) (generation : Nat) (key : Key) (policy : Policy)
    (token : Nat) : Except Failure Parent :=
  match (w.registry.lookup token).filter
      (fun p => p.owner = owner && p.generation = generation && w.live p) with
  | none => .error ⟨"Released","surface parent expired or unavailable"⟩
  | some p => do
    require (policy = .focus && p.policy ≠ .focus && p.key.index = key.index &&
      p.key.entity = key.entity && p.key.slot = key.slot && p.key.client = key.client &&
      p.adapter.capture.isNone && p.adapter.suspend.isNone) "InvalidArgument"
      "surface parent must be matching occupancy-only lease"
    require ((w.registry.leases ++ w.registry.pending).all
      (fun l => !l.parent.any (fun q => q.token = token))) "Busy"
      "surface parent already has a live or pending focus child"
    .ok ⟨token,p.key,p.policy,p.capacity⟩

/-- The lane of a reservation and the token it retires to get it. -/
def chooseLane (r : Registry) (owner : String) (key : Key) (priority : Int) (policy : Policy)
    (capacity : Nat) : Except Failure (Nat × Option Nat) := do
  require (r.leases.countP (fun l => l.owner = owner) < 1024 &&
    r.leases.length + r.pending.length < 16384) "PoolExhausted" "surface lease limit reached"
  let group := r.occupancy.filter (fun p => p.key.sameGroup key)
  require (group.all (fun p => p.capacity = capacity && (p.policy = .focus ↔ policy = .focus)))
    "Busy" "surface occupancy policy or capacity differs"
  if policy = .focus then do
    require (!r.pendingKey key) "Busy" "surface retirement pending"
    .ok (0,(winnerOf r.records key).bind
      (fun w => if w.priority ≤ priority then some w.token else none))
  else match (List.range capacity).find? (fun lane => group.all (fun p => p.key.lane ≠ lane)) with
    | some lane => .ok (lane,none)
    | none =>
      let replaceable := r.leases.filter (fun l => l.key.sameGroup key && l.policy = .legacy &&
        !r.pendingKey l.key)
      match (if policy = .legacy then replaceable.argmin (fun l => l.token) else none) with
      | some old => .ok (old.key.lane,some old.token)
      | none => .error ⟨"Busy","surface lanes occupied"⟩

def checkReservation (w : World) (owner : String) (key : Key) (priority : Int) (policy : Policy)
    (adapters : List Adapter) (parentToken : Option Nat) :
    Except Failure (Reservation × Option Nat) := do
  let capacity := adapters.length
  require (0 < capacity && capacity ≤ 64) "InvalidArgument"
    "surface capacity must be between 1 and 64"
  require (w.clientMatches key.slot key.client) "StaleClient" "surface client expired"
  require (w.entities.live key.index key.entity) "NotReady" "surface entity unavailable"
  validateAdapters w.calls adapters
  let generation := w.pluginGeneration owner
  require (w.ownerIsLive owner generation) "Released" "surface owner expired"
  let parent ← match parentToken with
    | none => .ok none
    | some token => (w.checkParent owner generation key policy token).map some
  let (lane,old) ← chooseLane w.registry owner key priority policy capacity
  .ok (⟨owner,generation,{ key with lane },priority,w.calls.owner,adapters.getD lane {},policy,
    capacity,parent⟩,old)

/-- Take the outgoing presentation: a focus takeover suspends it, a legacy
replacement removes its tree. -/
def outgoing (r : Registry) (policy : Policy) (old : Nat) : Registry × List Lease :=
  if policy = .focus then
    let (r,suspended) := r.suspend old
    (r,suspended.toList)
  else r.removeTree old

def reserveWithParent (w : World) (owner : String) (key : Key) (priority : Int) (policy : Policy)
    (adapters : List Adapter) (parentToken : Option Nat) : World × Flow Frame Outcome :=
  if w.transition then (w,.returned (.failed ⟨"Busy","surface transition in progress"⟩))
  else match w.checkReservation owner key priority policy adapters parentToken with
    | .error failure => (w,.returned (.failed failure))
    | .ok (r,none) =>
      let (w,outcome) := { w with transition := true }.finishReserve r
      (w,.returned outcome)
    | .ok (r,some old) =>
      let (registry,leaving) := outgoing w.registry policy old
      retireAll leaving none (.reserve r) { w with transition := true, registry }

def state (w : World) (owner : String) (token : Nat) : LeaseState :=
  if (w.registry.lookup token).any w.live then w.registry.state token owner else .invalid

def activate (w : World) (owner : String) (token : Nat) (epoch : Option Nat) : World × Outcome :=
  if w.transition || w.state owner token ≠ .ready then (w,.flag false)
  else match w.registry.lookup token with
    | none => (w,.flag false)
    | some l =>
      if l.parent.any (fun p => w.registry.state p.token owner ≠ .active) then (w,.flag false)
      else
        let paint (other : Lease) : Lease :=
          if other.token = token then { other with activated := true, activatedIn := epoch } else other
        ({ w with
            registry := { w.registry with leases := w.registry.leases.map paint }
            painted := (token,l.key) :: w.painted },.flag true)

def release (w : World) (owner : String) (token : Nat) : World × Flow Frame Outcome :=
  if w.transition then (w,.returned (.flag false))
  else if (w.registry.lookup token).any (fun l => l.owner = owner) then
    let (registry,removed) := w.registry.removeTree token
    retireAll removed none .release { w with transition := true, registry }
  else (w,.returned (.flag false))

def removeWhere (w : World) (matching : Lease → Bool) (retain : Retain) :
    World × Flow Frame Outcome :=
  if w.registry.leases.isEmpty then (w.finishSweep false retain,.returned .done)
  else
    let tokens := (w.registry.leases.filter matching).map (·.token)
    let (registry,removed) := w.registry.removeMany tokens
    retireAll removed none (.sweep (!w.transition) retain) { w with transition := true, registry }

def clearClient (w : World) (slot : Int) (client : Nat) : World × Flow Frame Outcome :=
  w.removeWhere (fun l => l.key.slot = slot && l.key.client = client) (.otherClient slot client)

def pruneDead (w : World) : World × Flow Frame Outcome :=
  w.removeWhere (fun l => !w.identityLive l) .live

def retireEntity (w : World) (index : Int) (entity : Nat) : World × Flow Frame Outcome :=
  w.removeWhere (fun l => l.key.index = index && l.key.entity = entity)
    (.otherEntity index entity)

def advanceFrame (w : World) : World × Flow Frame Outcome :=
  if w.transition then (w,.returned .done)
  else
    let registry := { w.registry with frame := saturatingSucc w.registry.frame, pending := [] }
    retireAll w.registry.pending none .advanceFrame { w with transition := true, registry }

/-- The synthetic retirements of `clear_legacy`, one for each free lane. -/
def cleanups (w : World) (owner : String) (generation : Nat) (key : Key)
    (adapters : List Adapter) : List Nat → Nat → List Lease
  | [], _ => []
  | lane :: lanes, token =>
    { token, owner, generation, key := { key with lane }, priority := 0, game := w.calls.owner,
      adapter := adapters.getD lane {}, policy := .legacy, capacity := adapters.length,
      parent := none, activated := false, activatedIn := none, readyAfter := 0 } ::
      cleanups w owner generation key adapters lanes (token + 1)

/-- The legacy tokens to remove and the lanes free before anything is removed. -/
def checkClear (w : World) (owner : String) (key : Key) (adapters : List Adapter) :
    Except Failure (List Nat × List Nat) := do
  let capacity := adapters.length
  require (0 < capacity && capacity ≤ 64) "InvalidArgument"
    "surface capacity must be between 1 and 64"
  require (w.clientMatches key.slot key.client) "StaleClient" "surface client expired"
  require (w.entities.live key.index key.entity) "NotReady" "surface entity unavailable"
  require (w.ownerIsLive owner (w.pluginGeneration owner)) "Released" "surface owner expired"
  validateAdapters w.calls adapters
  require (!w.registry.pendingGroup key) "Busy" "surface retirement pending"
  let group := w.registry.leases.filter (fun l => l.key.sameGroup key)
  require (group.all (fun l => l.capacity = capacity && l.policy ≠ .focus)) "Busy"
    "surface occupancy policy or capacity differs"
  let free := (List.range capacity).filter (fun lane => group.all (fun l => l.key.lane ≠ lane))
  require (w.registry.leases.length + w.registry.pending.length + free.length ≤ 16384)
    "PoolExhausted" "surface retirement limit reached"
  .ok ((group.filter (fun l => l.policy = .legacy)).map (·.token),free)

def clearLegacy (w : World) (owner : String) (key : Key) (adapters : List Adapter) :
    World × Flow Frame Outcome :=
  if w.transition then (w,.returned (.failed ⟨"Busy","surface transition in progress"⟩))
  else match w.checkClear owner key adapters with
    | .error failure => (w,.returned (.failed failure))
    | .ok (tokens,free) =>
      let generation := w.pluginGeneration owner
      let (registry,removed) := w.registry.removeMany tokens
      let synthetic := w.cleanups owner generation key adapters free w.nextToken
      retireAll (removed ++ synthetic) none (.clearLegacy owner generation key)
        { w with transition := true, registry, nextToken := w.nextToken + free.length }

/-- A departing connection leaves the books before its leases are swept. -/
def clientEnd (w : World) (slot : Int) (client : Nat) : World × Flow Frame Outcome :=
  if w.clientMatches slot client then
    { w with clients := w.clients.remove slot }.clearClient slot client
  else (w,.returned .done)

/-- The allocation at the end of `client::begin`. -/
def clientConnect (w : World) (slot : Int) : World :=
  if 0 ≤ slot ∧ slot < 64 then { w with clients := (w.clients.insert slot ()).1 } else w

/-- An entity notification: the books first, then the identity it retired. -/
def notified (w : World) (index : Int) (change : EntityBooks × Option Nat) :
    World × Flow Frame Outcome :=
  match change.2 with
  | some entity => { w with entities := change.1 }.retireEntity index entity
  | none => ({ w with entities := change.1 },.returned .done)

end World

/-- The operations and the events of the books around them. A map iterates in no
particular order; `rehash` is any reordering of it. -/
inductive Op where
  | reserve (owner : String) (key : Key) (priority : Int) (policy : Policy)
      (adapters : List Adapter) (parent : Option Nat)
  | activate (owner : String) (token : Nat) (epoch : Option Nat)
  | release (owner : String) (token : Nat)
  | clearLegacy (owner : String) (key : Key) (adapters : List Adapter)
  | sweepOwner (owner : String)
  | advanceFrame
  | clientEnd (slot : Int) (client : Nat)
  | clientConnect (slot : Int)
  | created (index serial : Int)
  | spawned (index serial : Int)
  | deleted (index serial : Int)
  | repaired (slots : List (Int × Int))
  | load (plugin : String)
  | unload (plugin : String)
  | gamePackage (calls : GameCalls)
  | rehash (leases : List Lease)

def start : Op → World → World × Flow Frame Outcome
  | .reserve owner key priority policy adapters parent, w =>
    w.reserveWithParent owner { key with lane := 0 } priority policy adapters parent
  | .activate owner token epoch, w =>
    let (w,outcome) := w.activate owner token epoch
    (w,.returned outcome)
  | .release owner token, w => w.release owner token
  | .clearLegacy owner key adapters, w => w.clearLegacy owner { key with lane := 0 } adapters
  | .sweepOwner owner, w => w.removeWhere (fun l => l.owner = owner) .all
  | .advanceFrame, w => w.advanceFrame
  | .clientEnd slot client, w => w.clientEnd slot client
  | .clientConnect slot, w => (w.clientConnect slot,.returned .done)
  | .created index serial, w => w.notified index (w.entities.onCreated index serial)
  | .spawned index serial, w => w.notified index (w.entities.onSpawned index serial)
  | .deleted index serial, w => w.notified index (w.entities.onDeleted index serial)
  | .repaired slots, w => { w with entities := w.entities.repairReconcile slots }.pruneDead
  | .load plugin, w => ({ w with plugins := (w.plugins.insert plugin ()).1 },.returned .done)
  | .unload plugin, w => ({ w with plugins := w.plugins.remove plugin },.returned .done)
  | .gamePackage calls, w => ({ w with calls },.returned .done)
  | .rehash leases, w =>
    (if leases.isPerm w.registry.leases then { w with registry := { w.registry with leases } } else w,
      .returned .done)

def resume (f : Frame) (answer : Except String Unit) (w : World) : World × Flow Frame Outcome :=
  w.answered f answer

/-- The registry as a re-entrant process; an answer is the result of the engine
call under way. -/
def process : Process World Op Frame (Except String Unit) Outcome := ⟨start,resume⟩

end S2Script.SurfaceLeases
