import S2Script.Loader

/-! What the loader does with files: scans, prepared archives, config snapshots,
the batch they form and the queue that applies them. -/
namespace S2Script.Loader

open LoaderWorker

/-! ### Refusal gates -/

/-- The leading integer of an API version, past any range operator. -/
def parseApiMajor (apiVersion : String) : Option Nat :=
  let digits := (apiVersion.toList.dropWhile (!·.isDigit)).takeWhile (·.isDigit)
  let value := digits.foldl (fun value digit => 10 * value + (digit.toNat - 48)) 0
  if digits.isEmpty || 2 ^ 32 ≤ value then none else some value

def apiVersionCompatible (apiVersion : String) : Bool :=
  parseApiMajor apiVersion == some 2 || parseApiMajor apiVersion == some 3

/-- The gate both a prepared archive and a ready candidate pass. -/
def gate (host : Host) (manifest : Manifest) : Bool :=
  apiVersionCompatible manifest.apiVersion && (host.checkManifest manifest.extensions).isOk

/-- Every contract the manifest compiled against is the one published, if any is. -/
def verifyCompiledAgainst (manifest : Manifest) (batchHashes liveHash : String → Option String) : Bool :=
  manifest.compiledAgainst.all fun (iface,built) =>
    built.isEmpty || match (batchHashes iface).or (liveHash iface) with
      | none => true
      | some published => published.isEmpty || published == built

/-- Paths order by their components. -/
def pathComponents (path : Path) : List Path := path.splitOn 47

def pathBefore (a b : Path) : Prop := pathComponents a ≤ pathComponents b

instance : DecidableRel pathBefore := fun a b => inferInstanceAs (Decidable (pathComponents a ≤ pathComponents b))

/-- The hashes the accepted providers would publish; a later provider wins. -/
def providedHashes (ordered : List (Path × Manifest)) (accepted : List Path) (iface : String) : Option String :=
  (ordered.filter (·.1 ∈ accepted)).reverse.findSome? fun entry => entry.2.publishes.lookup iface

/-- Stabilize the providers: those that a stable set cannot hold are rejected as
a cycle. Returns the accepted providers and the rejected ones. -/
def settleProviders (ordered : List (Path × Manifest)) (liveHash : String → Option String) :
    Nat → List Path → List Path → List (List Path) → List Path → List Path × List Path
  | 0, _, accepted, _, cycle => (accepted,cycle)
  | fuel + 1, eligible, accepted, history, cycle =>
    let seen := history ++ [accepted]
    let hashes := providedHashes ordered accepted
    let next := (ordered.filter fun entry =>
      entry.1 ∈ eligible && verifyCompiledAgainst entry.2 hashes liveHash).map Prod.fst
    if next = accepted then (accepted,cycle)
    else match seen.findIdx? (· == next) with
      | some start =>
        let states := seen.drop start ++ [next]
        let toggling := (ordered.map Prod.fst).filter fun path =>
          states.any (path ∈ ·) && !(path ∈ eligible && states.all (path ∈ ·))
        let kept := eligible.filter (· ∉ toggling)
        settleProviders ordered liveHash fuel kept kept [] (cycle ++ toggling)
      | none => settleProviders ordered liveHash fuel eligible next seen cycle

/-- Enough rounds: at most every set of providers is seen before one is dropped. -/
def settleRounds (candidates : Nat) : Nat := (candidates + 1) * (2 ^ candidates + 1)

/-- The candidates whose contracts would drift. -/
def resolveContractRejections (candidates : List (Path × Manifest)) (initiallyRejected : List Path)
    (liveHash : String → Option String) : List Path :=
  let ordered := candidates.insertionSort fun a b => pathBefore a.1 b.1
  let eligible := (ordered.filter fun entry =>
    entry.1 ∉ initiallyRejected && !entry.2.publishes.isEmpty).map Prod.fst
  let settled := settleProviders ordered liveHash (settleRounds ordered.length) eligible eligible [] []
  let hashes := providedHashes ordered settled.1
  settled.2 ++ (ordered.filter fun entry =>
    entry.1 ∉ initiallyRejected && entry.1 ∉ settled.2 &&
      !verifyCompiledAgainst entry.2 hashes liveHash).map Prod.fst

/-! ### Load order -/

/-- One plugin of a batch: its id, the interfaces it needs and those it publishes. -/
abbrev BatchEntry := String × List String × List String

/-- Producer to consumer, once per interface; a plugin needs nothing of itself. -/
def dependencyEdges (batch : List BatchEntry) : List (String × String) :=
  batch.flatMap fun (id,deps,_) => deps.filterMap fun dep =>
    match batch.reverse.find? (fun entry => dep ∈ entry.2.2) with
    | some (producer,_) => if producer = id then none else some (producer,id)
    | none => none

/-- Release the consumers of an emitted producer. -/
def releaseConsumers : List String → (String → Nat) → List String × (String → Nat)
  | [], indegree => ([],indegree)
  | consumer :: rest, indegree =>
    let left := indegree consumer - 1
    let released := releaseConsumers rest (Function.update indegree consumer left)
    (if left = 0 then consumer :: released.1 else released.1,released.2)

def emitReady (edges : List (String × String)) : Nat → List String → (String → Nat) → List String
  | 0, _, _ => []
  | _, [], _ => []
  | fuel + 1, next :: ready, indegree =>
    let consumers := (edges.filter (·.1 = next)).map Prod.snd
    let released := releaseConsumers consumers indegree
    next :: emitReady edges fuel ((ready ++ released.1).insertionSort (· ≤ ·)) released.2

/-- Producers before their consumers, ties by id; a cycle falls back to id order. -/
def topoOrder (batch : List BatchEntry) : List String :=
  let edges := dependencyEdges batch
  let indegree := fun id => (edges.filter (·.2 = id)).length
  let ready := ((batch.map Prod.fst).filter (indegree · = 0)).insertionSort (· ≤ ·)
  let order := emitReady edges batch.length ready indegree
  if order.length ≠ batch.length then
    order ++ ((batch.map Prod.fst).filter (· ∉ order)).insertionSort (· ≤ ·)
  else order

/-- The loads in the order their ids are named, each at most once. -/
def takeLoads : List String → Table String PreparedLoad → List PreparedLoad
  | [], _ => []
  | id :: ids, loads =>
    match loads.lookup id with
    | none => takeLoads ids loads
    | some row => row :: takeLoads ids (loads.erase id)

/-- The bytes a snapshot retains. -/
def snapshotBytes (snapshot : ConfigSnapshot) : Nat := (snapshot.content.map String.utf8ByteSize).getD 0

/-! ### Rows -/

namespace Main

def unloadPlugin (s : Settings) (host : Host) (cause : Cause) (main : Main) (path : Path) (id : String) : Main :=
  let unloaded := { main with
    unloads := main.unloads ++ [⟨cause,path,id,main.loadedFrom,main.watchState⟩]
    loadedFrom := main.loadedFrom.retain fun _ loaded => loaded.1 ≠ id
    loading := main.loading.erase id }
  (host.unloading id).foldl (Callback.run s) unloaded

def commitPath (main : Main) (path : Path) (stamp : FileStamp) (id : String) : Main :=
  { main with
    fileStamps := main.fileStamps.insert path stamp
    watchState := main.watchState.insert path id }

def refusePrepared (main : Main) (path : Path) (prepared : PreparedPlugin) (oldId : Option String) : Main :=
  let warned := { main with refused := main.refused ++ [(path,prepared.stamp)] }
  warned.commitPath path prepared.stamp (oldId.getD prepared.manifest.id)

/-- Pressure is retryable: the accepted stamp comes back. -/
def deferPrepared (main : Main) (row : PreparedLoad) : Main :=
  match row.baselineStamp with
  | some stamp => main.commitPath row.path stamp (row.oldId.getD row.prepared.manifest.id)
  | none =>
    { main with
      fileStamps := main.fileStamps.erase row.path
      watchState := if row.oldId.isNone then main.watchState.erase row.path else main.watchState }

def duplicateManifestId (main : Main) (path : Path) (id : String) : Bool :=
  main.watchState.entries.any fun entry => entry.1 != path && entry.2 == id

/-- Two candidates with one id, or an id that another watched file carries. -/
def duplicateInBatch (main : Main) (rows : List PreparedLoad) (row : PreparedLoad) : Bool :=
  let paths := (rows.filter (·.prepared.manifest.id = row.prepared.manifest.id)).map PreparedLoad.path
  1 < paths.length || main.watchState.entries.any fun entry =>
    entry.2 == row.prepared.manifest.id && entry.1 ∉ paths

/-- A row rejected with its batch keeps its stamp, so it is not read again. -/
def rejectRow (main : Main) (row : PreparedLoad) : Main :=
  { main with
    fileStamps := main.fileStamps.insert row.path row.prepared.stamp
    refused := main.refused ++ [(row.path,row.prepared.stamp)] }

def finishBatch (host : Host) (main : Main) (batch : ActiveBatch) : Main :=
  let rows := (arrange host.visit batch.prepared.keys).filterMap batch.prepared.lookup
  let duplicates := (rows.filter (main.duplicateInBatch rows)).map PreparedLoad.path
  let drifting := resolveContractRejections (rows.map fun row => (row.path,row.prepared.manifest)) duplicates
    host.publishedTypes
  let refusing := (rows.filter (·.path ∈ drifting)).foldl
    (fun main row => main.refusePrepared row.path row.prepared row.oldId) main
  let rejected := duplicates ++ drifting
  let remembering := (rows.filter (·.path ∈ rejected)).foldl rejectRow refusing
  let loads := rows.filter (·.path ∉ rejected)
  let order := topoOrder (loads.map fun row =>
    (row.prepared.manifest.id,row.prepared.manifest.pluginDependencies,
      row.prepared.manifest.publishes.map Prod.fst))
  let byId := loads.foldl (fun byId row => byId.insert row.prepared.manifest.id row) (∅ : Table String PreparedLoad)
  { remembering with readyApply := main.readyApply ++ (takeLoads order byId).map (⟨·,false⟩) }

def finishBatchIfReady (host : Host) (main : Main) : Main :=
  match main.activeBatch with
  | none => main
  | some batch =>
    if batch.pending.keys = [] then { main with activeBatch := none }.finishBatch host batch else main

/-- Take `path` out of the batch, its prepared row with it. -/
def removeBatchPath (main : Main) (path : Path) : Main :=
  { main with activeBatch := main.activeBatch.map fun batch =>
      { pending := batch.pending.erase path, prepared := batch.prepared.erase path } }

/-- Take `path` off the reads the batch waits for. -/
def settleBatchPath (main : Main) (path : Path) : Main :=
  { main with activeBatch := main.activeBatch.map fun batch =>
      { batch with pending := batch.pending.erase path } }

/-- The batch keeps the candidate while its config is read. -/
def holdRow (main : Main) (row : PreparedLoad) : Main :=
  { main with activeBatch := main.activeBatch.map fun batch =>
      { batch with prepared := batch.prepared.insert row.path row } }

def cancelPathWork (host : Host) (main : Main) (path : Path) : Main :=
  let removed := main.removeBatchPath path
  let cancelled := { removed with
    readyApply := removed.readyApply.filter (·.row.path ≠ path)
    waiting := removed.waiting.retain fun _ load => load.row.path ≠ path }
  cancelled.finishBatchIfReady host

/-! ### Command intents, drained -/

def drainUnload (s : Settings) (host : Host) (main : Main) (id : String) : Main :=
  let parked := main.waiting.lookup id
  let detached := { main with waiting := main.waiting.erase id }
  match detached.pathOfLoaded host.visit id with
  | none => detached
  | some path =>
    let cancelled := detached.cancelPathWork host path
    let unloaded :=
      if parked.all (·.row.oldId.isSome) then cancelled.unloadPlugin s host .command path id else cancelled
    let forgotten := { unloaded with
      watchState := unloaded.watchState.erase path
      fileStamps := unloaded.fileStamps.erase path
      sessionLoads := unloaded.sessionLoads.filter (· ≠ path) }
    if path ∈ unloaded.sessionLoads then forgotten
    else { forgotten with suppressed := forgotten.suppressed.insert path id }

def drainReload (host : Host) (main : Main) (id : String) : Main :=
  if id ∈ main.loading then main.queuePendingReload id
  else match (main.pathOfLoaded host.visit id).or (main.suppressedPath host.visit id) with
    | none => main
    | some path =>
      let cancelled := main.cancelPathWork host path
      { cancelled with
        suppressed := cancelled.suppressed.erase path
        fileStamps := cancelled.fileStamps.erase path }

def drainLoad (host : Host) (main : Main) (id : String) : Main :=
  let cancelled := match main.suppressedPath host.visit id with
    | none => main
    | some path => main.cancelPathWork host path
  { cancelled with suppressed := cancelled.suppressed.retain fun _ other => other ≠ id }

def drainIntent (s : Settings) (host : Host) (main : Main) (id : String) : Main :=
  let drained := { main with pendingOps := main.pendingOps.erase id }
  match main.pendingOps.lookup id with
  | none => main
  | some .unload => drained.drainUnload s host id
  | some .reload => drained.drainReload host id
  | some .load => drained.drainLoad host id

/-! ### Results -/

/-- Whether the candidate waiting for a file replaces a running version. -/
def retainedOld (main : Main) (path : Path) : Option Bool :=
  ((main.waiting.entries.find? (·.2.row.path = path)).map (·.2.row.oldId.isSome)).or
    ((main.readyApply.find? (·.row.path = path)).map (·.row.oldId.isSome))

def vanish (s : Settings) (host : Host) (main : Main) (gone : Path × String) : Main :=
  let retained := main.retainedOld gone.1
  let cancelled := main.cancelPathWork host gone.1
  let unloaded :=
    if retained ≠ some false then cancelled.unloadPlugin s host .vanished gone.1 gone.2 else cancelled
  { unloaded with
    watchState := unloaded.watchState.erase gone.1
    fileStamps := unloaded.fileStamps.erase gone.1 }

/-- One file of a scan: skip it, or submit it for reading at a fresh revision. -/
def prepareFile (s : Settings) (building : Main × ActiveBatch) (file : Path × FileStamp) : Main × ActiveBatch :=
  let main := building.1
  let batch := building.2
  if file.1 ∈ main.suppressed ∨ main.fileStamps.lookup file.1 = some file.2 then building
  else
    let revision := main.nextPathRevision + 1
    let dropped := { main with
      waiting := main.waiting.retain fun _ load => load.row.path ≠ file.1
      readyApply := main.readyApply.filter (·.row.path ≠ file.1)
      nextPathRevision := revision }
    let submitted := dropped.trySubmit s (.plugin s.epoch revision file.1)
    (submitted.2,if submitted.1.admitted then { batch with pending := batch.pending.insert file.1 revision }
      else batch)

/-- What the scan found, with the files loaded for this run. -/
def scanned (host : Host) (sessions : List Path) (entries : List (Path × FileStamp)) : Table Path FileStamp :=
  (entries ++ sessions.filterMap fun path => (host.metadata path).map (path,·)).foldl
    (fun current file => current.insert file.1 file.2) ∅

def handleScan (s : Settings) (host : Host) (main : Main) (revision : Nat)
    (entries : Except String (List (Path × FileStamp))) : Main :=
  let landed := { main with scanInFlight := false }
  if revision ≠ landed.scanRevision then landed
  else match entries with
    | .error _ => landed
    | .ok entries =>
      let sessions := landed.sessionLoads.filter fun path => (host.metadata path).isSome
      let current := scanned host sessions entries
      let retained := { landed with
        sessionLoads := sessions
        fileStamps := landed.fileStamps.retain fun path _ => decide (path ∈ current) }
      let vanished := (arrange host.visit retained.watchState.keys).filterMap fun path =>
        if path ∈ current then none else (retained.watchState.lookup path).map (path,·)
      let swept := vanished.foldl (vanish s host) retained
      let files := (arrange host.visit current.keys).filterMap fun path =>
        (current.lookup path).map (path,·)
      let built := files.foldl (prepareFile s) (swept,{})
      if built.2.pending.keys = [] then built.1 else { built.1 with activeBatch := some built.2 }

def handlePlugin (s : Settings) (host : Host) (main : Main) (revision : Nat) (path : Path)
    (result : Except String PreparedPlugin) : Main :=
  if main.activeBatch.bind (·.pending.lookup path) ≠ some revision then main
  else
    let oldId := main.watchState.lookup path
    match result with
    | .error _ => (main.settleBatchPath path).finishBatchIfReady host
    | .ok prepared =>
      if !gate host prepared.manifest then
        ((main.refusePrepared path prepared oldId).settleBatchPath path).finishBatchIfReady host
      else if !host.acquires prepared.residentBytes then
        (main.settleBatchPath path).finishBatchIfReady host
      else
        let row : PreparedLoad := ⟨path,oldId,main.fileStamps.lookup path,prepared,none⟩
        let held := main.holdRow row
        if prepared.manifest.config.isEmpty then (held.settleBatchPath path).finishBatchIfReady host
        else match host.resolveConfigPath prepared.manifest.id with
          | .error _ =>
            ((held.removeBatchPath path).refusePrepared path prepared oldId).finishBatchIfReady host
          | .ok configPath =>
            let queued := held.queueConfig s configPath (.plugin path revision)
            if queued.1 then queued.2 else (queued.2.removeBatchPath path).finishBatchIfReady host

/-- The batch still waits for this config read of the plugin at `path`. -/
def awaitsConfig (main : Main) (path : Path) (revision : Nat) : Bool :=
  main.activeBatch.bind (·.pending.lookup path) == some revision

/-- Attach the snapshot to the prepared row and stop waiting for it, if its
reservation can grow. -/
def attachConfig (host : Host) (main : Main) (path : Path) (snapshot : ConfigSnapshot) : Main :=
  match main.activeBatch.bind (·.prepared.lookup path) with
  | none => main.removeBatchPath path
  | some row =>
    if host.grows path (snapshotBytes snapshot) then
      (main.holdRow { row with config := some snapshot }).settleBatchPath path
    else main.removeBatchPath path

/-- Whether a watcher of `path` is the one this read was made for. -/
def currentWatcher (main : Main) (path : Path) (watchGeneration : Option Nat) (id : String)
    (generation : Nat) : Bool :=
  watchGeneration == some generation && main.configPaths.lookup id == some path &&
    main.configWatchGenerations.lookup path == some generation

/-- Hand the content to a watcher: the first time as its initial values, later
only when it changed. -/
def deliver (s : Settings) (host : Host) (main : Main) (id : String) (generation : Nat)
    (snapshot : ConfigSnapshot) : Main :=
  let seeded := decide (id ∈ main.configSeeded)
  let marked := { main with configSeeded := insert id main.configSeeded }
  if !seeded || snapshot.watch = .changed then
    let delivered := { marked with
      deliveries := marked.deliveries ++ [⟨id,generation,!seeded,snapshot.content⟩] }
    (host.delivering id).foldl (Callback.run s) delivered
  else marked

/-- One consumer of a config read; the count is of the watchers it was current for. -/
def consume (s : Settings) (host : Host) (path : Path) (watchGeneration : Option Nat)
    (result : Except String ConfigSnapshot) (state : Main × Nat) : ConfigConsumer → Main × Nat
  | .plugin pluginPath pluginRevision =>
    if !state.1.awaitsConfig pluginPath pluginRevision then state
    else match result with
      | .ok snapshot => (state.1.attachConfig host pluginPath snapshot,state.2)
      | .error _ => (state.1.removeBatchPath pluginPath,state.2)
  | .watch id generation =>
    match result with
    | .error _ => state
    | .ok snapshot =>
      if !state.1.currentWatcher path watchGeneration id generation then state
      else if snapshot.watch = .pressure then (state.1,state.2 + 1)
      else (state.1.deliver s host id generation snapshot,state.2 + 1)

/-- The worker holds a proposal that this result must resolve. -/
def hasProposal : Except String ConfigSnapshot → Bool
  | .ok snapshot => snapshot.watch = .seed || snapshot.watch = .changed
  | .error _ => false

def handleConfig (s : Settings) (host : Host) (main : Main) (path : Path) (revision : Nat)
    (watchGeneration : Option Nat) (result : Except String ConfigSnapshot) : Main :=
  let resolving := if hasProposal result then watchGeneration else none
  match (main.configPending.lookup path).filter (·.revision = revision) with
  | none => match resolving with
    | none => main
    | some generation => main.resolveConfigWatch s path generation revision false
  | some row =>
    let taken := { main with configPending := main.configPending.erase path }
    let consumed := row.consumers.foldl (consume s host path watchGeneration result) (taken,0)
    -- a proposal is never `pressure`, so a current watcher is enough to apply it
    let resolved := match resolving with
      | none => consumed.1
      | some generation => consumed.1.resolveConfigWatch s path generation revision (decide (0 < consumed.2))
    resolved.finishBatchIfReady host

/-- Pop one worker result and handle it; a result of another epoch only gives
back its proposal. -/
def popResult (s : Settings) (host : Host) (main : Main) : Main :=
  let popped := main.tryResult s
  match popped.1 with
  | none => popped.2
  | some (.scan epoch revision entries) =>
    if epoch = s.epoch then popped.2.handleScan s host revision entries else popped.2
  | some (.plugin epoch revision path prepared) =>
    if epoch = s.epoch then popped.2.handlePlugin s host revision path prepared else popped.2
  | some (.config epoch revision path watchGeneration snapshot) =>
    if epoch = s.epoch then popped.2.handleConfig s host path revision watchGeneration snapshot
    else match watchGeneration with
      | some generation =>
        if hasProposal snapshot then popped.2.resolveConfigWatch s path generation revision false
        else popped.2
      | none => popped.2

/-! ### Applying -/

def beginLoad (s : Settings) (host : Host) (main : Main) (row : PreparedLoad) : Main :=
  let id := row.prepared.manifest.id
  let started := { main with
    loadedFrom := (main.loadedFrom.retain fun _ loaded => loaded.1 ≠ id).insert row.path (id,row.prepared.stamp)
    loading := if host.starts id then main.loading.insert id false else main.loading }
  let ran := (host.loading id).foldl (Callback.run s) started
  ran.commitPath row.path row.prepared.stamp id

def applyPrepared (s : Settings) (host : Host) (main : Main) (item : ApplyItem) : Main :=
  let row := item.row
  let manifest := row.prepared.manifest
  if !gate host manifest then
    main.refusePrepared row.path row.prepared row.oldId
  else if main.duplicateManifestId row.path manifest.id then
    let remembered := main.rejectRow row
    match row.oldId with
    | none => remembered
    | some old =>
      if row.path ∈ main.watchState then { remembered with watchState := main.watchState.insert row.path old }
      else remembered
  else if !verifyCompiledAgainst manifest (fun _ => none) host.publishedTypes then
    main.refusePrepared row.path row.prepared row.oldId
  else if !manifest.pluginDependencies.all host.published && !item.allowUnmetDependencies then
    let committed := main.commitPath row.path row.prepared.stamp (row.oldId.getD manifest.id)
    { committed with waiting := committed.waiting.insert manifest.id ⟨row,host.frame⟩ }
  else match row.oldId.filter (· ∈ main.loading) with
    | some old => (main.queuePendingReload old).commitPath row.path row.prepared.stamp old
    | none => match host.engine row.prepared with
      | .refused _ => main.refusePrepared row.path row.prepared row.oldId
      | .pressure => main.deferPrepared row
      | .ready =>
        let replaced := match row.oldId with
          | some old => main.unloadPlugin s host .replaced row.path old
          | none => main
        replaced.beginLoad s host row

/-- How applying a candidate ends. -/
inductive Applied (s : Settings) (host : Host) (main : Main) (item : ApplyItem) : Main → Prop where
  | ungated (refused : gate host item.row.prepared.manifest = false) :
      Applied s host main item (main.refusePrepared item.row.path item.row.prepared item.row.oldId)
  | duplicate (gated : gate host item.row.prepared.manifest = true)
      (taken : main.duplicateManifestId item.row.path item.row.prepared.manifest.id = true)
      (watched : Table Path String)
      (kept : watched = main.watchState ∨ ∃ old, item.row.oldId = some old ∧ item.row.path ∈ main.watchState ∧
        watched = main.watchState.insert item.row.path old) :
      Applied s host main item { main.rejectRow item.row with watchState := watched }
  | refused (gated : gate host item.row.prepared.manifest = true)
      (free : main.duplicateManifestId item.row.path item.row.prepared.manifest.id = false) :
      Applied s host main item (main.refusePrepared item.row.path item.row.prepared item.row.oldId)
  | parked (gated : gate host item.row.prepared.manifest = true)
      (free : main.duplicateManifestId item.row.path item.row.prepared.manifest.id = false)
      (compiled : verifyCompiledAgainst item.row.prepared.manifest (fun _ => none) host.publishedTypes = true)
      (unmet : item.row.prepared.manifest.pluginDependencies.all host.published = false)
      (strict : item.allowUnmetDependencies = false)
      (frame : Nat) :
      Applied s host main item
        { main.commitPath item.row.path item.row.prepared.stamp
            (item.row.oldId.getD item.row.prepared.manifest.id) with
          waiting := main.waiting.insert item.row.prepared.manifest.id ⟨item.row,frame⟩ }
  | behind (old : String) (running : item.row.oldId = some old) (flying : old ∈ main.loading) :
      Applied s host main item ((main.queuePendingReload old).commitPath item.row.path item.row.prepared.stamp old)
  | deferred (gated : gate host item.row.prepared.manifest = true)
      (free : main.duplicateManifestId item.row.path item.row.prepared.manifest.id = false) :
      Applied s host main item (main.deferPrepared item.row)
  | loaded (gated : gate host item.row.prepared.manifest = true)
      (free : main.duplicateManifestId item.row.path item.row.prepared.manifest.id = false)
      (replaced : Main)
      (settled : ∀ old, item.row.oldId = some old → old ∉ main.loading)
      (retired : item.row.oldId = none ∧ replaced = main ∨ ∃ old, item.row.oldId = some old ∧
        replaced = main.unloadPlugin s host .replaced item.row.path old) :
      Applied s host main item (replaced.beginLoad s host item.row)

theorem applied (s : Settings) (host : Host) (main : Main) (item : ApplyItem) :
    Applied s host main item (main.applyPrepared s host item) := by
  unfold applyPrepared
  extract_lets row manifest remembered committed replaced
  split
  next closed => exact .ungated (by simpa using closed)
  next opened =>
    have gated : gate host item.row.prepared.manifest = true := by simpa using opened
    split
    next taken =>
      split
      next first => exact .duplicate gated taken main.watchState (.inl rfl)
      next old running =>
        split
        next watched =>
          exact .duplicate gated taken _ (.inr ⟨old,running,watched,rfl⟩)
        · exact .duplicate gated taken main.watchState (.inl rfl)
    next free =>
      have free : main.duplicateManifestId item.row.path item.row.prepared.manifest.id = false := by
        simpa using free
      split
      · exact .refused gated free
      next compiled =>
      split
      next unmet =>
        rw [Bool.and_eq_true_iff,Bool.not_eq_true',Bool.not_eq_true'] at unmet
        exact .parked gated free (by simpa using compiled) unmet.1 unmet.2 host.frame
      split
      next old behind =>
        obtain ⟨running,flying⟩ := Option.filter_eq_some_iff.mp behind
        exact .behind old running (by simpa using flying)
      next clear =>
        split
        · exact .refused gated free
        · exact .deferred gated free
        · refine .loaded gated free replaced ?_ ?_
          · intro old running flying
            have running : row.oldId = some old := running
            simp [running,Option.filter_some,flying] at clear
          · simp only [replaced]
            split
            next old running => exact .inr ⟨old,running,rfl⟩
            next none => exact .inl ⟨none,rfl⟩

/-- Apply the oldest ready candidate, if there is one. -/
def applyReady (s : Settings) (host : Host) (main : Main) : Main :=
  match main.readyApply with
  | [] => main
  | item :: ready => { main with readyApply := ready }.applyPrepared s host item

def scheduleScan (s : Settings) (host : Host) (main : Main) : Main :=
  if main.scanInFlight || main.activeBatch.isSome || !main.readyApply.isEmpty then main
  else
    let watched := (arrange host.visitIds main.configPaths.keys).filterMap fun id =>
      (main.configPaths.lookup id).bind fun path =>
        (main.configWatchGenerations.lookup path).map fun generation => (id,path,generation)
    let queued := watched.foldl
      (fun main (id,path,generation) => (main.queueConfig s path (.watch id generation)).2) main
    let revision := (queued.scanRevision + 1) % 2 ^ 64
    let submitted := { queued with scanRevision := revision }.trySubmit s (.scan s.epoch revision s.pluginsDir)
    if submitted.1.admitted then { submitted.2 with scanInFlight := true } else submitted.2

end Main

/-- The loader's steps. `poll_plugins` drains some intents, pops some results,
applies some ready candidates and may schedule a scan; the host and the worker
thread act in between. -/
inductive Event where
  | turn (turn : Turn)
  | callback (callback : Callback) (turns : List (List Turn))
  | drainIntent (id : String) (host : Host)
  | popResult (host : Host)
  | applyReady (host : Host)
  | scheduleScan (host : Host)

def Main.advance (s : Settings) (main : Main) : Event → Main
  | .turn turn => { main with sys := main.sys.advance s.policy turn.event }
  | .callback callback turns => callback.run s { main with turns := turns }
  | .drainIntent id host => { main with turns := host.turns }.drainIntent s host id
  | .popResult host => { main with turns := host.turns }.popResult s host
  | .applyReady host => { main with turns := host.turns }.applyReady s host
  | .scheduleScan host => { main with turns := host.turns }.scheduleScan s host

def Main.execute (s : Settings) : List Event → Main → Main
  | [], main => main
  | event :: events, main => execute s events (main.advance s event)

/-- A host that refuses nothing and publishes nothing. -/
def Host.plain : Host where
  turns := []
  visit := []
  visitIds := []
  resolveConfigPath := fun _ => .error "config: no resolver"
  checkManifest := fun _ => .ok ()
  published := fun _ => false
  publishedTypes := fun _ => none
  acquires := fun _ => true
  grows := fun _ _ => true
  frame := 0
  metadata := fun _ => none
  engine := fun _ => .ready
  starts := fun _ => false
  unloading := fun _ => []
  loading := fun _ => []
  delivering := fun _ => []

end S2Script.Loader
