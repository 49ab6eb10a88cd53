import S2Script.Table

/-! The bounded loader worker: what the game thread may submit, what the worker
thread takes and answers, and the config baselines it owns. Every lock section
is one step; between them the two threads interleave freely. -/
namespace S2Script.LoaderWorker

/-- A path is its byte string. -/
abbrev Path := List UInt8

def usizeMax : Nat := 2 ^ 64 - 1

def saturatingAdd (a b : Nat) : Nat := min (a + b) usizeMax

def saturatingMul (a b : Nat) : Nat := min (a * b) usizeMax

structure ParseLimits where
  zipEntries : Nat := 256
  memberNameBytes : Nat := 64 * 2 ^ 10
  manifestBytes : Nat := 2 ^ 20
  pluginJsBytes : Nat := 16 * 2 ^ 20
  gamedataBytes : Nat := 8 * 2 ^ 20
  engineFunctionsBytes : Nat := 4 * 2 ^ 20

structure LoaderPolicy where
  requestItems : Nat := 128
  requestBytes : Nat := 32 * 2 ^ 20
  resultItems : Nat := 128
  resultBytes : Nat := 64 * 2 ^ 20
  preparedItems : Nat := 32
  preparedBytes : Nat := 64 * 2 ^ 20
  scanEntries : Nat := 4096
  scanCandidates : Nat := 1024
  pathBytes : Nat := 256 * 2 ^ 10
  archiveBytes : Nat := 32 * 2 ^ 20
  configBytes : Nat := 2 ^ 20
  configBaselineItems : Nat := 128
  configBaselineBytes : Nat := 32 * 2 ^ 20
  parse : ParseLimits := {}
  drainItems : Nat := 8
  drainBytes : Nat := 16 * 2 ^ 20
  drainMicros : Nat := 1000

namespace LoaderPolicy

def sizedFields (policy : LoaderPolicy) : List Nat :=
  [policy.requestItems,policy.requestBytes,policy.resultItems,policy.resultBytes,
    policy.preparedItems,policy.preparedBytes,policy.scanEntries,policy.scanCandidates,
    policy.pathBytes,policy.archiveBytes,policy.configBytes,policy.configBaselineItems,
    policy.configBaselineBytes,policy.parse.zipEntries,policy.parse.memberNameBytes,
    policy.parse.manifestBytes,policy.parse.pluginJsBytes,policy.parse.gamedataBytes,
    policy.parse.engineFunctionsBytes,policy.drainItems,policy.drainBytes]

def scanResultReservation (policy : LoaderPolicy) : Nat :=
  saturatingAdd policy.pathBytes (saturatingMul policy.scanCandidates 96)

/-- The largest parsed archive a policy admits, with the row that holds it. -/
def parsedArchive (policy : LoaderPolicy) : Nat :=
  saturatingAdd (saturatingAdd (saturatingAdd (saturatingAdd policy.parse.manifestBytes
    policy.parse.pluginJsBytes) policy.parse.gamedataBytes) policy.parse.engineFunctionsBytes) 64

/-- `isize::MAX / 16`. -/
def safeSize : Nat := (2 ^ 63 - 1) / 16

def validate (policy : LoaderPolicy) : Except String Unit :=
  if policy.sizedFields.any (fun value => value == 0 || safeSize < value) || policy.drainMicros == 0 then
    .error "loader policy: all count, byte, and time limits must be nonzero and safely sized"
  else if policy.resultItems < policy.requestItems then
    .error "loader policy: result_items must cover every request_items obligation"
  else if policy.resultBytes < policy.archiveBytes then
    .error "loader policy: archive_bytes exceeds result_bytes; an item could never complete"
  else if policy.resultBytes < saturatingAdd (saturatingMul policy.configBytes 3) 256 then
    .error "loader policy: worst-case lossy config text exceeds result_bytes; an item could never complete"
  else if policy.configBaselineBytes < saturatingMul policy.configBytes 6 then
    .error "loader policy: config baseline cannot retain one committed and one proposed worst-case lossy config"
  else if policy.resultBytes < policy.scanResultReservation then
    .error "loader policy: scan result envelope exceeds result_bytes"
  else if policy.resultBytes < policy.parsedArchive then
    .error "loader policy: parsed archive members exceed result_bytes"
  else if policy.preparedBytes < saturatingAdd policy.parsedArchive (saturatingMul policy.configBytes 3) then
    .error "loader policy: prepared_bytes cannot hold one maximum parsed archive and decoded config"
  else .ok ()

end LoaderPolicy

structure FileStamp where
  len : Nat
  modifiedNs : Nat
  createdNs : Nat
  device : Nat
  inode : Nat
  changedNs : Int
  deriving DecidableEq

/-- What the loader reads of a manifest; the maps are given by their entries. -/
structure Manifest where
  id : String
  apiVersion : String
  pluginDependencies : List String
  extensions : List (String × String)
  publishes : List (String × String)
  compiledAgainst : List (String × String)
  config : List String
  deriving DecidableEq

structure PreparedPlugin where
  manifest : Manifest
  stamp : FileStamp
  residentBytes : Nat
  deriving DecidableEq

inductive WatchDelta where
  | notRequested | seed | unchanged | changed | pressure
  deriving DecidableEq

structure ConfigSnapshot where
  content : Option String
  stamp : Option FileStamp
  watch : WatchDelta
  deriving DecidableEq

inductive WorkerResult where
  | scan (epoch revision : Nat) (entries : Except String (List (Path × FileStamp)))
  | plugin (epoch revision : Nat) (path : Path) (prepared : Except String PreparedPlugin)
  | config (epoch revision : Nat) (path : Path) (watchGeneration : Option Nat)
      (snapshot : Except String ConfigSnapshot)

/-- The epoch and revision a result answers. -/
def WorkerResult.answers : WorkerResult → Nat × Nat
  | .scan epoch revision _ | .plugin epoch revision _ _ | .config epoch revision _ _ _ =>
    (epoch,revision)

inductive Request where
  | scan (epoch revision : Nat) (dir : Path)
  | plugin (epoch revision : Nat) (path : Path)
  | config (epoch revision : Nat) (path : Path) (watchGeneration : Option Nat)
  deriving DecidableEq

inductive WorkKey where
  | scan (dir : Path)
  | plugin (path : Path)
  | config (path : Path)
  deriving DecidableEq

/-- `Option::max`: nothing is below every generation. -/
def laterGeneration : Option Nat → Option Nat → Option Nat
  | none, older => older
  | latest, none => latest
  | some latest, some older => some (max latest older)

def configWatchWeight (path : Path) : Nat := saturatingAdd (saturatingMul path.length 2) 64

namespace Request

def coalesceWith : Request → Request → Request
  | .config epoch revision path watchGeneration, .config _ _ _ olderGeneration =>
    .config epoch revision path (laterGeneration watchGeneration olderGeneration)
  | latest, _ => latest

def key : Request → WorkKey
  | .scan _ _ dir => .scan dir
  | .plugin _ _ path => .plugin path
  | .config _ _ path _ => .config path

/-- The epoch and revision a request was submitted with. -/
def submitted : Request → Nat × Nat
  | .scan epoch revision _ | .plugin epoch revision _ | .config epoch revision _ _ => (epoch,revision)

def requestWeight : Request → Nat
  | .scan _ _ dir => dir.length + 64
  | .plugin _ _ path | .config _ _ path _ => path.length + 64

def resultReservation (policy : LoaderPolicy) : Request → Nat
  | .scan _ _ _ => policy.scanResultReservation
  | .plugin _ _ path =>
    saturatingAdd (saturatingAdd (saturatingAdd (saturatingAdd (saturatingAdd path.length
      policy.parse.manifestBytes) policy.parse.pluginJsBytes) policy.parse.gamedataBytes)
      policy.parse.engineFunctionsBytes) 2048
  | .config _ _ path _ =>
    saturatingAdd (saturatingAdd path.length (saturatingMul policy.configBytes 3)) 256

/-- The config generation a request would register. -/
def watch : Request → Option (Path × Nat)
  | .config _ _ path (some generation) => some (path,generation)
  | _ => none

end Request

inductive Submit where
  | accepted | coalesced | full | oversized
  deriving DecidableEq

/-- A submit the worker now owes an answer for. -/
def Submit.admitted : Submit → Bool
  | .accepted | .coalesced => true
  | .full | .oversized => false

structure WorkerRejections where
  requestItems : Nat := 0
  requestBytes : Nat := 0
  resultItems : Nat := 0
  resultBytes : Nat := 0
  controlItems : Nat := 0
  controlBytes : Nat := 0
  configPaths : Nat := 0
  configBytes : Nat := 0
  deriving DecidableEq

/-- Add one to each counter whose limit was hit. -/
def WorkerRejections.count (rejected hit : WorkerRejections) : WorkerRejections where
  requestItems := saturatingAdd rejected.requestItems hit.requestItems
  requestBytes := saturatingAdd rejected.requestBytes hit.requestBytes
  resultItems := saturatingAdd rejected.resultItems hit.resultItems
  resultBytes := saturatingAdd rejected.resultBytes hit.resultBytes
  controlItems := saturatingAdd rejected.controlItems hit.controlItems
  controlBytes := saturatingAdd rejected.controlBytes hit.controlBytes
  configPaths := saturatingAdd rejected.configPaths hit.configPaths
  configBytes := saturatingAdd rejected.configBytes hit.configBytes

structure ConfigControl where
  resolution : Option (Nat × Nat × Bool) := none
  retireGeneration : Option Nat := none
  deriving DecidableEq

def ConfigControl.isEmpty (control : ConfigControl) : Bool :=
  control.resolution.isNone && control.retireGeneration.isNone

structure ConfigWatchState where
  registeredGeneration : Option Nat := none
  control : ConfigControl := {}
  deriving DecidableEq

/-- What the mutex guards. -/
structure State where
  order : List WorkKey := []
  pending : Table WorkKey Request := ∅
  rerun : Table WorkKey Request := ∅
  inFlight : Finset WorkKey := ∅
  results : List (WorkKey × WorkerResult) := []
  obligations : Table WorkKey (Nat × Nat) := ∅
  requestBytes : Nat := 0
  reservedResultBytes : Nat := 0
  configWatches : Table Path ConfigWatchState := ∅
  configWatchBytes : Nat := 0
  rejected : WorkerRejections := {}

namespace State

def reject (state : State) (hit : WorkerRejections) : State :=
  { state with rejected := state.rejected.count hit }

def newWatch (state : State) (request : Request) : Bool :=
  request.watch.any fun (path,_) => decide (path ∉ state.configWatches)

/-- The later of the registered generation and the one requested. -/
def registerWatch (state : State) : Option (Path × Nat) → State
  | none => state
  | some (path,generation) =>
    let watch := (state.configWatches.lookup path).getD {}
    let registered := (watch.registeredGeneration.map (max · generation)).getD generation
    let bytes :=
      if path ∈ state.configWatches then state.configWatchBytes
      else saturatingAdd state.configWatchBytes (configWatchWeight path)
    { state with
      configWatches :=
        state.configWatches.insert path { watch with registeredGeneration := some registered }
      configWatchBytes := bytes }

/-- A submit for a key the worker already owes: it replaces the queued request,
asks for a rerun of the running one, or takes back an undelivered result. -/
def coalesce (state : State) (request : Request) : State :=
  let key := request.key
  if key ∈ state.inFlight then
    let latest := ((state.rerun.lookup key).map request.coalesceWith).getD request
    { state with rerun := (state.rerun.erase key).insert key latest }
  else match state.pending.lookup key with
    | some old =>
      { state with
        requestBytes := saturatingAdd (state.requestBytes - old.requestWeight) request.requestWeight
        pending := (state.pending.erase key).insert key (request.coalesceWith old) }
    | none =>
      { state with
        results := state.results.filter fun entry => entry.1 ≠ key
        pending := state.pending.insert key request
        order := state.order ++ [key] }

/-- A new obligation, charged for its request and its largest result. -/
def accept (policy : LoaderPolicy) (state : State) (request : Request) : State :=
  let key := request.key
  { state with
    requestBytes := state.requestBytes + request.requestWeight
    reservedResultBytes := state.reservedResultBytes + request.resultReservation policy
    obligations := state.obligations.insert key (request.requestWeight,request.resultReservation policy)
    pending := state.pending.insert key request
    order := state.order ++ [key] }

end State

/-- The limits a request alone exceeds. -/
def oversizedBy (policy : LoaderPolicy) (request : Request) : WorkerRejections where
  requestBytes := if policy.requestBytes < request.requestWeight then 1 else 0
  resultBytes := if policy.resultBytes < request.resultReservation policy then 1 else 0

/-- The control limits a first watch of a path exceeds. -/
def watchPressure (policy : LoaderPolicy) (state : State) (weight : Nat) : WorkerRejections where
  controlItems := if policy.requestItems ≤ state.configWatches.size then 1 else 0
  controlBytes := if policy.requestBytes < saturatingAdd state.configWatchBytes weight then 1 else 0

/-- The limits one more obligation exceeds. -/
def queuePressure (policy : LoaderPolicy) (state : State) (request : Request) : WorkerRejections where
  requestItems := if policy.requestItems ≤ state.obligations.size then 1 else 0
  requestBytes := if policy.requestBytes < saturatingAdd state.requestBytes request.requestWeight then 1 else 0
  resultItems := if policy.resultItems ≤ state.obligations.size then 1 else 0
  resultBytes :=
    if policy.resultBytes < saturatingAdd state.reservedResultBytes (request.resultReservation policy) then 1
    else 0

def trySubmit (policy : LoaderPolicy) (state : State) (request : Request) : Submit × State :=
  let watchWeight := (request.watch.map fun watch => configWatchWeight watch.1).getD 0
  if oversizedBy policy request ≠ {} then
    (.oversized,state.reject (oversizedBy policy request))
  else if state.newWatch request ∧ policy.requestBytes < watchWeight then
    (.oversized,state.reject { controlBytes := 1 })
  else if state.newWatch request ∧ watchPressure policy state watchWeight ≠ {} then
    (.full,state.reject (watchPressure policy state watchWeight))
  else if request.key ∈ state.obligations then
    (.coalesced,(state.registerWatch request.watch).coalesce request)
  else if queuePressure policy state request ≠ {} then
    (.full,state.reject (queuePressure policy state request))
  else (.accepted,(state.registerWatch request.watch).accept policy request)

def tryResult (state : State) : Option (WorkKey × WorkerResult) × State :=
  match state.results with
  | [] => (none,state)
  | (key,result) :: results =>
    let popped := { state with results := results }
    match state.obligations.lookup key with
    | none => (some (key,result),popped)
    | some (request,reserved) =>
      (some (key,result),{ popped with
        obligations := state.obligations.erase key
        requestBytes := state.requestBytes - request
        reservedResultBytes := state.reservedResultBytes - reserved })

/-- `(generation, revision)` pairs compare lexicographically. -/
def notBefore (generation revision : Nat) : Option (Nat × Nat × Bool) → Bool
  | none => true
  | some (oldGeneration,oldRevision,_) =>
    oldGeneration < generation || (oldGeneration == generation && oldRevision ≤ revision)

def resolveConfigWatch (state : State) (path : Path) (generation revision : Nat) (applied : Bool) : State :=
  match state.configWatches.lookup path with
  | none => state
  | some watch =>
    let resolution :=
      if notBefore generation revision watch.control.resolution then some (generation,revision,applied)
      else watch.control.resolution
    { state with
      configWatches := state.configWatches.insert path
        { watch with control := { watch.control with resolution := resolution } } }

def retireConfigWatch (state : State) (path : Path) (generation : Nat) : State :=
  match state.configWatches.lookup path with
  | none => state
  | some watch =>
    let registered :=
      if watch.registeredGeneration = some generation then none else watch.registeredGeneration
    let retired := (watch.control.retireGeneration.map (max · generation)).getD generation
    { state with
      configWatches := state.configWatches.insert path
        { registeredGeneration := registered
          control := { watch.control with retireGeneration := some retired } } }

structure ConfigBaseline where
  generation : Nat
  content : Option String
  deriving DecidableEq

structure ConfigProposal where
  generation : Nat
  revision : Nat
  content : Option String
  deriving DecidableEq

/-- Worker-owned config contents: the committed ones and those proposed since. -/
structure ConfigBaselines where
  values : Table Path ConfigBaseline := ∅
  proposals : Table Path ConfigProposal := ∅
  bytes : Nat := 0
  rejected : WorkerRejections := {}

def entryBytes (path : Path) (content : Option String) : Nat :=
  saturatingAdd path.length ((content.map String.utf8ByteSize).getD 0)

namespace ConfigBaselines

def pathCount (baselines : ConfigBaselines) : Nat :=
  baselines.values.size + (baselines.proposals.keys.filter (· ∉ baselines.values)).length

def dropProposal (baselines : ConfigBaselines) (path : Path) : ConfigBaselines :=
  match baselines.proposals.lookup path with
  | none => baselines
  | some proposal =>
    { baselines with
      proposals := baselines.proposals.erase path
      bytes := baselines.bytes - entryBytes path proposal.content }

def discardSuperseded (baselines : ConfigBaselines) (path : Path) (generation revision : Nat) :
    ConfigBaselines :=
  match baselines.proposals.lookup path with
  | some proposal =>
    if proposal.generation < generation ∨
        (proposal.generation = generation ∧ proposal.revision < revision) then
      baselines.dropProposal path
    else baselines
  | none => baselines

/-- Hold the new content as a proposal, if the table has room for it. -/
def propose (policy : LoaderPolicy) (baselines : ConfigBaselines) (path : Path)
    (generation revision : Nat) (content : Option String) (decision : WatchDelta) :
    WatchDelta × ConfigBaselines :=
  let newPath := path ∉ baselines.values ∧ path ∉ baselines.proposals
  let newBytes := entryBytes path content
  let pathsRejected := newPath ∧ policy.configBaselineItems ≤ baselines.pathCount
  let bytesRejected := policy.configBaselineBytes < saturatingAdd baselines.bytes newBytes
  if pathsRejected ∨ bytesRejected then
    (.pressure,{ baselines with
      rejected := baselines.rejected.count
        { configPaths := if pathsRejected then 1 else 0
          configBytes := if bytesRejected then 1 else 0 } })
  else
    (decision,{ baselines with
      bytes := saturatingAdd baselines.bytes newBytes
      proposals := baselines.proposals.insert path ⟨generation,revision,content⟩ })

def compareAndPropose (policy : LoaderPolicy) (baselines : ConfigBaselines) (path : Path)
    (generation revision : Nat) (content : Option String) : WatchDelta × ConfigBaselines :=
  match baselines.values.lookup path with
  | none => (baselines.dropProposal path).propose policy path generation revision content .seed
  | some old =>
    if old.generation ≠ generation then
      (baselines.dropProposal path).propose policy path generation revision content .seed
    else if old.content = content then (.unchanged,baselines.dropProposal path)
    else (baselines.dropProposal path).propose policy path generation revision content .changed

/-- Make the proposal the committed content. -/
def commit (baselines : ConfigBaselines) (path : Path) (proposal : ConfigProposal) : ConfigBaselines :=
  let released := ((baselines.values.lookup path).map fun old => entryBytes path old.content).getD 0
  { baselines with
    bytes := saturatingAdd (baselines.bytes - released) (entryBytes path proposal.content)
    values := (baselines.values.erase path).insert path ⟨proposal.generation,proposal.content⟩ }

def resolve (baselines : ConfigBaselines) (path : Path) (generation revision : Nat) (applied : Bool) :
    ConfigBaselines :=
  match baselines.proposals.lookup path with
  | none => baselines
  | some proposal =>
    if proposal.generation ≠ generation ∨ proposal.revision ≠ revision then baselines
    else if applied then (baselines.dropProposal path).commit path proposal
    else baselines.dropProposal path

def dropValue (baselines : ConfigBaselines) (path : Path) : ConfigBaselines :=
  match baselines.values.lookup path with
  | none => baselines
  | some old =>
    { baselines with
      values := baselines.values.erase path
      bytes := baselines.bytes - entryBytes path old.content }

def retire (baselines : ConfigBaselines) (path : Path) (generation : Nat) : ConfigBaselines :=
  let kept :=
    if (baselines.values.lookup path).any (·.generation ≤ generation) then baselines.dropValue path
    else baselines
  if (kept.proposals.lookup path).any (·.generation ≤ generation) then kept.dropProposal path else kept

/-- One control of a path: its resolution first, then its retirement. -/
def control (baselines : ConfigBaselines) (path : Path) (control : ConfigControl) : ConfigBaselines :=
  let resolved := match control.resolution with
    | some (generation,revision,applied) => baselines.resolve path generation revision applied
    | none => baselines
  match control.retireGeneration with
  | some generation => resolved.retire path generation
  | none => resolved

end ConfigBaselines

/-- What the filesystem answers while a request runs. -/
structure Disk where
  scanPlugins : Path → Except String (List (Path × FileStamp))
  prepare : Path → Except String PreparedPlugin
  stableRead : Path → Except String (String × FileStamp)

/-- `stable_read`'s way of saying the file is not there. -/
def missing (reason : String) : Bool := "missing:".toList.isPrefixOf reason.toList

/-- A config content that was read, compared when a generation asked for it. -/
def snapshot (policy : LoaderPolicy) (baselines : ConfigBaselines) (path : Path) (revision : Nat)
    (watchGeneration : Option Nat) (content : Option String) (stamp : Option FileStamp) :
    ConfigSnapshot × ConfigBaselines :=
  match watchGeneration with
  | none => (⟨content,stamp,.notRequested⟩,baselines)
  | some generation =>
    let compared := baselines.compareAndPropose policy path generation revision content
    (⟨content,stamp,compared.1⟩,compared.2)

def readConfig (policy : LoaderPolicy) (disk : Disk) (baselines : ConfigBaselines) (path : Path)
    (revision : Nat) (watchGeneration : Option Nat) : Except String ConfigSnapshot × ConfigBaselines :=
  match disk.stableRead path with
  | .ok (content,stamp) =>
    let read := snapshot policy baselines path revision watchGeneration (some content) (some stamp)
    (.ok read.1,read.2)
  | .error reason =>
    if missing reason then
      let read := snapshot policy baselines path revision watchGeneration none none
      (.ok read.1,read.2)
    else (.error reason,baselines)

def runRequest (policy : LoaderPolicy) (disk : Disk) (baselines : ConfigBaselines) :
    Request → WorkerResult × ConfigBaselines
  | .scan epoch revision dir => (.scan epoch revision (disk.scanPlugins dir),baselines)
  | .plugin epoch revision path => (.plugin epoch revision path (disk.prepare path),baselines)
  | .config epoch revision path watchGeneration =>
    let kept := match watchGeneration with
      | some generation => baselines.discardSuperseded path generation revision
      | none => baselines
    let read := readConfig policy disk kept path revision watchGeneration
    (.config epoch revision path watchGeneration read.1,read.2)

inductive WorkerTurn where
  | controls (controls : List (Path × ConfigControl))
  | request (key : WorkKey) (request : Request)

/-- The shared state, and what the worker thread holds outside the lock. -/
structure Worker where
  state : State := {}
  baselines : ConfigBaselines := {}
  turn : Option WorkerTurn := none

/-- The controls waiting in the watch table. -/
def State.controls (state : State) : List (Path × ConfigControl) :=
  (state.configWatches.entries.filter fun entry => !entry.2.control.isEmpty).map
    fun entry => (entry.1,entry.2.control)

/-- Only the registered generation may create baseline ownership. -/
def State.current (state : State) : Request → Request
  | .config epoch revision path watchGeneration =>
    let registered := (state.configWatches.lookup path).bind ConfigWatchState.registeredGeneration
    .config epoch revision path (if watchGeneration = registered then watchGeneration else none)
  | request => request

/-- The worker's first lock section: take every control, else the oldest request,
else wait. A busy thread takes nothing. -/
def Worker.take (worker : Worker) : Worker :=
  match worker.turn with
  | some _ => worker
  | none =>
    let state := worker.state
    if state.controls ≠ [] then
      { worker with
        state := { state with
          configWatches := state.configWatches.mapValues fun _ watch => { watch with control := {} } }
        turn := some (.controls state.controls) }
    else match state.order with
      | [] => worker
      | key :: order =>
        match state.pending.lookup key with
        | none => { worker with state := { state with order := order } }
        | some request =>
          { worker with
            state := { state with
              order := order
              pending := state.pending.erase key
              inFlight := insert key state.inFlight }
            turn := some (.request key (state.current request)) }

/-- The counters the worker publishes with every lock section. -/
def State.syncConfigMetrics (state : State) (baselines : ConfigBaselines) : State :=
  { state with rejected := { state.rejected with
      configPaths := baselines.rejected.configPaths
      configBytes := baselines.rejected.configBytes } }

def State.pruneWatches (state : State) : State :=
  let kept := state.configWatches.retain fun _ watch =>
    watch.registeredGeneration.isSome || !watch.control.isEmpty
  { state with
    configWatches := kept
    configWatchBytes := kept.keys.foldl (fun bytes path => saturatingAdd bytes (configWatchWeight path)) 0 }

/-- The answered request leaves the worker: queued again if a rerun was asked
for, else its result waits for the game thread. -/
def State.answer (state : State) (key : WorkKey) (result : WorkerResult) : State :=
  let landed := { state with inFlight := state.inFlight.erase key }
  match state.rerun.lookup key with
  | some next =>
    { landed with
      rerun := state.rerun.erase key
      pending := state.pending.insert key next
      order := state.order ++ [key] }
  | none => { landed with results := state.results ++ [(key,result)] }

/-- The worker's second lock section, with the work done before it. -/
def Worker.finish (policy : LoaderPolicy) (disk : Disk) (worker : Worker) : Worker :=
  match worker.turn with
  | none => worker
  | some (.controls controls) =>
    let baselines := controls.foldl (fun baselines entry => baselines.control entry.1 entry.2)
      worker.baselines
    { state := (worker.state.pruneWatches).syncConfigMetrics baselines
      baselines := baselines
      turn := none }
  | some (.request key request) =>
    let ran := runRequest policy disk worker.baselines request
    { state := (worker.state.syncConfigMetrics ran.2).answer key ran.1
      baselines := ran.2
      turn := none }

end S2Script.LoaderWorker
