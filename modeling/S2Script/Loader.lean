import S2Script.LoaderWorkerQueue

/-! The plugin loader's game-thread half: what it remembers of every file, and
what it does with a result, a command and a config watch. The host it drives
(contexts, interfaces, the filesystem) is what the environment answers; the
worker thread may run between any two of the loader's locks. -/
namespace S2Script.Loader

open LoaderWorker

scoped instance : LawfulBEq Path := List.instLawfulBEq

inductive ConfigConsumer where
  | plugin (path : Path) (revision : Nat)
  | watch (id : String) (generation : Nat)
  deriving DecidableEq

structure PendingConfig where
  revision : Nat
  consumers : List ConfigConsumer
  bytes : Nat

structure PreparedLoad where
  path : Path
  oldId : Option String
  /-- The stamp accepted before this candidate parks. -/
  baselineStamp : Option FileStamp
  prepared : PreparedPlugin
  config : Option ConfigSnapshot
  deriving DecidableEq

structure ActiveBatch where
  pending : Table Path Nat := ∅
  prepared : Table Path PreparedLoad := ∅

structure ApplyItem where
  row : PreparedLoad
  allowUnmetDependencies : Bool

structure WaitingLoad where
  row : PreparedLoad
  sinceFrame : Nat

inductive PendingOp where
  | unload | reload | load
  deriving DecidableEq

/-- Why a running plugin was unloaded. -/
inductive Cause where
  | vanished | replaced | command
  deriving DecidableEq

/-- One call of `unload_plugin`, with what was loaded and watched at that moment. -/
structure UnloadCall where
  cause : Cause
  path : Path
  id : String
  loadedFrom : Table Path (String × FileStamp)
  watchState : Table Path String

/-- One config content handed to a plugin: reconciled with its initial values, or
re-materialized as a change. -/
structure Delivery where
  id : String
  generation : Nat
  initial : Bool
  content : Option String
  deriving DecidableEq

/-- What the worker thread may do between two locks of the game thread. -/
inductive Turn where
  | take
  | finish (disk : Disk)

def Turn.event : Turn → LoaderWorker.Event
  | .take => .take
  | .finish disk => .finish disk

/-- Fixed while the loader runs. -/
structure Settings where
  policy : LoaderPolicy
  epoch : Nat
  pluginsDir : Path
  /-- Length of a path's lossy text. -/
  lossyLength : Path → Nat

structure Main where
  sys : System := {}
  /-- What the worker does before each of the game thread's next locks. -/
  turns : List (List Turn) := []
  watchState : Table Path String := ∅
  fileStamps : Table Path FileStamp := ∅
  suppressed : Table Path String := ∅
  sessionLoads : List Path := []
  waiting : Table String WaitingLoad := ∅
  readyApply : List ApplyItem := []
  activeBatch : Option ActiveBatch := none
  configPending : Table Path PendingConfig := ∅
  configPaths : Table String Path := ∅
  configWatchGenerations : Table Path Nat := ∅
  nextConfigWatchGeneration : Nat := 0
  configSeeded : Finset String := ∅
  scanRevision : Nat := 0
  scanInFlight : Bool := false
  nextPathRevision : Nat := 0
  pendingOps : Table String PendingOp := ∅
  /-- The host's loads in flight, and whether a reload waits behind each. -/
  loading : Table String Bool := ∅
  /-- The candidate last loaded from a file and not unloaded since. -/
  loadedFrom : Table Path (String × FileStamp) := ∅
  /-- Candidates refused or rejected as duplicates, each with a warning. -/
  refused : List (Path × FileStamp) := []
  unloads : List UnloadCall := []
  deliveries : List Delivery := []

/-- Hash maps are visited in an order the environment chooses. -/
def arrange [DecidableEq α] (visit keys : List α) : List α :=
  visit.dedup.filter (· ∈ keys) ++ keys.filter (· ∉ visit)

theorem mem_arrange [DecidableEq α] (visit keys : List α) (key : α) : key ∈ arrange visit keys ↔ key ∈ keys := by
  simp only [arrange,List.mem_append,List.mem_filter,List.mem_dedup,decide_eq_true_eq]
  tauto

theorem nodup_arrange [DecidableEq α] (visit : List α) {keys : List α} (distinct : keys.Nodup) :
    (arrange visit keys).Nodup := by
  rw [arrange,List.nodup_append]
  refine ⟨visit.nodup_dedup.filter _,distinct.filter _,?_⟩
  intro first visited second unvisited
  simp only [List.mem_filter,List.mem_dedup,decide_eq_true_eq] at visited unvisited
  rintro rfl
  exact unvisited.2 visited.1

/-! ### The worker, from the game thread -/

namespace Main

/-- The worker thread's turns before the game thread gets the lock. -/
def overtaken (s : Settings) (main : Main) : Main :=
  match main.turns with
  | [] => main
  | now :: later =>
    let sys := System.execute s.policy (now.map Turn.event) main.sys
    { main with sys := sys, turns := later }

def trySubmit (s : Settings) (main : Main) (request : Request) : Submit × Main :=
  let here := main.overtaken s
  let answer := (LoaderWorker.trySubmit s.policy here.sys.worker.state request).1
  (answer,{ here with sys := here.sys.submit s.policy request })

def tryResult (s : Settings) (main : Main) : Option WorkerResult × Main :=
  let here := main.overtaken s
  let popped := (LoaderWorker.tryResult here.sys.worker.state).1
  (popped.map Prod.snd,{ here with sys := here.sys.advance s.policy .tryResult })

def resolveConfigWatch (s : Settings) (main : Main) (path : Path) (generation revision : Nat)
    (applied : Bool) : Main :=
  let here := main.overtaken s
  { here with sys := here.sys.advance s.policy (.resolveConfigWatch path generation revision applied) }

def retireConfigWatch (s : Settings) (main : Main) (path : Path) (generation : Nat) : Main :=
  let here := main.overtaken s
  { here with sys := here.sys.advance s.policy (.retireConfigWatch path generation) }

end Main

/-! ### Config reads and watches -/

def ConfigConsumer.same : ConfigConsumer → ConfigConsumer → Bool
  | .watch a _, .watch b _ => a == b
  | .plugin a _, .plugin b _ => a == b
  | _, _ => false

def ConfigConsumer.bytes (s : Settings) : ConfigConsumer → Nat
  | .watch id _ => saturatingAdd id.utf8ByteSize 72
  | .plugin path _ => saturatingAdd (s.lossyLength path) 64

/-- The row after `consumer` joined it at `revision`, replacing its older self. -/
def PendingConfig.joined (s : Settings) (row : PendingConfig) (revision : Nat) (consumer : ConfigConsumer) :
    PendingConfig where
  revision := revision
  consumers := row.consumers.eraseP (·.same consumer) ++ [consumer]
  bytes := saturatingAdd (row.bytes - ((row.consumers.find? (·.same consumer)).map
    (ConfigConsumer.bytes s)).getD 0) (consumer.bytes s)

namespace Main

/-- A watch consumer that still names the generation its path is watched at. -/
def currentWatchGeneration (main : Main) (path : Path) : ConfigConsumer → Option Nat
  | .watch id generation =>
    if main.configPaths.lookup id = some path ∧
        main.configWatchGenerations.lookup path = some generation then some generation
    else none
  | .plugin _ _ => none

/-- Whether the bounded consumer table admits one more consumer of `path`. -/
def admitsConsumer (s : Settings) (main : Main) (path : Path) (consumer : ConfigConsumer) : Bool :=
  let usedItems := main.configPending.weight fun _ row => row.consumers.length
  let usedBytes := main.configPending.weight fun _ row => row.bytes
  let existing := (main.configPending.lookup path).bind fun row => row.consumers.find? (·.same consumer)
  let duplicateBytes := (existing.map (ConfigConsumer.bytes s)).getD 0
  let itemsRejected := duplicateBytes = 0 ∧ s.policy.requestItems ≤ usedItems
  let bytesRejected :=
    s.policy.requestBytes < saturatingAdd (usedBytes - duplicateBytes) (consumer.bytes s)
  decide (¬itemsRejected ∧ ¬bytesRejected)

/-- The newest generation the consumers of a path still watch it at. -/
def requestedGeneration (main : Main) (path : Path) (consumer : ConfigConsumer) : Option Nat :=
  let existing := ((main.configPending.lookup path).map PendingConfig.consumers).getD []
  existing.foldl (fun newest other => laterGeneration newest (main.currentWatchGeneration path other))
    (main.currentWatchGeneration path consumer)

def nextConfigRevision (main : Main) (path : Path) : Nat :=
  ((main.configPending.lookup path).map fun row => (row.revision + 1) % 2 ^ 64).getD 1

def queueConfig (s : Settings) (main : Main) (path : Path) (consumer : ConfigConsumer) : Bool × Main :=
  if main.admitsConsumer s path consumer then
    let revision := main.nextConfigRevision path
    let request := .config s.epoch revision path (main.requestedGeneration path consumer)
    let submitted := main.trySubmit s request
    if submitted.1.admitted then
      let row := (submitted.2.configPending.lookup path).getD ⟨revision,[],0⟩
      let pending := submitted.2.configPending.insert path (row.joined s revision consumer)
      (true,{ submitted.2 with configPending := pending })
    else (false,submitted.2)
  else (false,main)

def watchConfigFor (s : Settings) (resolved : Except String Path) (main : Main) (id : String) : Main :=
  if id ∈ main.configPaths then main
  else match resolved with
    | .error _ => main
    | .ok path =>
      let fresh := (main.nextConfigWatchGeneration + 1) % 2 ^ 64
      let generation := (main.configWatchGenerations.lookup path).getD fresh
      let minted :=
        if path ∈ main.configWatchGenerations then main
        else { main with
          nextConfigWatchGeneration := fresh
          configWatchGenerations := main.configWatchGenerations.insert path fresh }
      let watching := { minted with configPaths := minted.configPaths.insert id path }
      (watching.queueConfig s path (.watch id generation)).2

def unwatchConfigFor (s : Settings) (main : Main) (id : String) : Main :=
  let unseeded := { main with configSeeded := main.configSeeded.erase id }
  match main.configPaths.lookup id with
  | none => unseeded
  | some path =>
    let unwatched := { unseeded with configPaths := main.configPaths.erase id }
    if unwatched.configPaths.entries.any (·.2 == path) then unwatched
    else match main.configWatchGenerations.lookup path with
      | none => unwatched
      | some generation =>
        let retired := { unwatched with
          configWatchGenerations := main.configWatchGenerations.erase path }
        retired.retireConfigWatch s path generation

end Main

/-! ### Command intents -/

/-- The bytes an intent is charged for. -/
def intentBytes (id : String) : Nat := saturatingAdd id.utf8ByteSize 32

namespace Main

def enqueueIntent (s : Settings) (main : Main) (id : String) (op : PendingOp) : Main :=
  let oldBytes := if id ∈ main.pendingOps then intentBytes id else 0
  let usedBytes := main.pendingOps.weight fun key _ => intentBytes key
  let grown := saturatingAdd (saturatingAdd (usedBytes - oldBytes) id.utf8ByteSize) 32
  if id ∉ main.pendingOps ∧ s.policy.requestItems ≤ main.pendingOps.size then main
  else if s.policy.requestBytes < grown then main
  else { main with pendingOps := main.pendingOps.insert id op }

/-- A watched path that carries this id. -/
def pathOfLoaded (visit : List Path) (main : Main) (id : String) : Option Path :=
  (arrange visit main.watchState.keys).find? fun path => main.watchState.lookup path = some id

def suppressedPath (visit : List Path) (main : Main) (id : String) : Option Path :=
  (arrange visit main.suppressed.keys).find? fun path => main.suppressed.lookup path = some id

def requestUnload (s : Settings) (main : Main) (id : String) : Main :=
  if (main.pathOfLoaded [] id).isSome then main.enqueueIntent s id .unload else main

def requestReload (s : Settings) (main : Main) (id : String) : Main :=
  if (main.pathOfLoaded [] id).isSome || (main.suppressedPath [] id).isSome then
    main.enqueueIntent s id .reload
  else main

/-- `found` is the file a folder spec names, if it does. -/
def requestLoad (s : Settings) (found : Option Path) (main : Main) (id : String) : Main :=
  if (main.suppressedPath [] id).isSome then main.enqueueIntent s id .load
  else match found with
    | none => main
    | some path =>
      if path ∈ main.sessionLoads then main
      else { main with sessionLoads := main.sessionLoads ++ [path] }

/-- `LOAD_TIMEOUT_FRAMES`. -/
def loadTimeoutFrames : Nat := 1920

/-- A parked load whose dependencies are published or whose wait expired. -/
def unblocked (published : String → Bool) (frame : Nat) (load : WaitingLoad) : Option Bool :=
  let expired := decide (loadTimeoutFrames < frame - load.sinceFrame)
  if load.row.prepared.manifest.pluginDependencies.all published || expired then some expired else none

/-- Move one parked load to the queue that applies it. -/
def unpark (published : String → Bool) (frame : Nat) (main : Main) (id : String) : Main :=
  match main.waiting.lookup id with
  | none => main
  | some load =>
    match unblocked published frame load with
    | none => main
    | some expired => { main with
        waiting := main.waiting.erase id
        readyApply := main.readyApply ++ [⟨load.row,expired⟩] }

def startUnblockedWaiters (visit : List String) (published : String → Bool) (frame : Nat) (main : Main) :
    Main :=
  (arrange visit main.waiting.keys).foldl (unpark published frame) main

/-- The host finished a load; a reload queued behind it is requested now. -/
def settle (s : Settings) (main : Main) (id : String) : Main :=
  match main.loading.lookup id with
  | none => main
  | some pendingReload =>
    let settled := { main with loading := main.loading.erase id }
    if pendingReload then settled.requestReload s id else settled

def queuePendingReload (main : Main) (id : String) : Main :=
  if id ∈ main.loading then { main with loading := main.loading.insert id true } else main

end Main

/-- What the host's own code asks of the loader while it unloads, loads or
configures a plugin, or on its own. -/
inductive Callback where
  | watchConfigFor (id : String) (resolved : Except String Path)
  | unwatchConfigFor (id : String)
  | startUnblockedWaiters (visit : List String) (published : String → Bool) (frame : Nat)
  | settle (id : String)
  | requestUnload (id : String)
  | requestReload (id : String)
  | requestLoad (id : String) (found : Option Path)

def Callback.run (s : Settings) (main : Main) : Callback → Main
  | .watchConfigFor id resolved => main.watchConfigFor s resolved id
  | .unwatchConfigFor id => main.unwatchConfigFor s id
  | .startUnblockedWaiters visit published frame => main.startUnblockedWaiters visit published frame
  | .settle id => main.settle s id
  | .requestUnload id => main.requestUnload s id
  | .requestReload id => main.requestReload s id
  | .requestLoad id found => main.requestLoad s found id

/-- How preparing a candidate's engine functions ends. -/
inductive EngineAnswer where
  | ready | pressure | refused (reason : String)

/-- What the host answers during one step of the loader. -/
structure Host where
  turns : List (List Turn)
  visit : List Path
  visitIds : List String
  resolveConfigPath : String → Except String Path
  checkManifest : List (String × String) → Except String Unit
  published : String → Bool
  publishedTypes : String → Option String
  acquires : Nat → Bool
  grows : Path → Nat → Bool
  frame : Nat
  metadata : Path → Option FileStamp
  engine : PreparedPlugin → EngineAnswer
  starts : String → Bool
  unloading : String → List Callback
  loading : String → List Callback
  delivering : String → List Callback

end S2Script.Loader
