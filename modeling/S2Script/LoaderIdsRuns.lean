import S2Script.LoaderIds

/-! Watch rows over whole runs of the loader: what every result, scan and applied
candidate does to them, and the run in which a refused file takes another's id. -/
namespace S2Script.Loader

open LoaderWorker

/-! ### Results -/

/-- A prepared archive is refused before any other file with its id is looked for. -/
def refusedUnchecked (host : Host) (prepared : PreparedPlugin) : Bool :=
  !gate host prepared.manifest || host.acquires prepared.residentBytes && !prepared.manifest.config.isEmpty &&
    !(host.resolveConfigPath prepared.manifest.id).isOk

theorem ids_refuseResult {main : Main} (ids : Ids main) {path : Path} {prepared : PreparedPlugin}
    (free : main.watchState.lookup path = none → main.Free path prepared.manifest.id) :
    Ids (main.refusePrepared path prepared (main.watchState.lookup path)) := by
  apply ids.refusePrepared
  cases watched : main.watchState.lookup path with
  | none => exact .unwatched ids (free watched) watched
  | some old => exact .rewrite ids watched

/-- A prepared archive replaces what its file is watched at. -/
theorem candidate_prepared {main : Main} (ids : Ids main) (path : Path) (prepared : PreparedPlugin) :
    Candidate main ⟨path,main.watchState.lookup path,main.fileStamps.lookup path,prepared,none⟩ := by
  refine ⟨fun running => running,?_⟩
  intro fresh
  apply Option.eq_none_iff_forall_ne_some.mpr
  rintro ⟨id,stamp⟩ found
  have := ids.loaded found
  rw [show main.watchState.lookup path = none from fresh] at this
  contradiction

theorem ids_handlePlugin {s : Settings} {main : Main} (ids : Ids main) (one : OneRow main) (host : Host)
    (revision : Nat) (path : Path) (result : Except String PreparedPlugin)
    (safe : ∀ prepared, result = .ok prepared → main.activeBatch.bind (·.pending.lookup path) = some revision →
      main.watchState.lookup path = none → refusedUnchecked host prepared = true →
      main.duplicateManifestId path prepared.manifest.id = false) :
    Ids (main.handlePlugin s host revision path result) := by
  unfold Main.handlePlugin
  split
  · exact ids
  next expected =>
    rw [not_not] at expected
    obtain ⟨batch,active,pending⟩ := Option.bind_eq_some_iff.mp expected
    extract_lets oldId
    split
    · exact (ids.settleBatchPath path).finishBatchIfReady (one.settleBatchPath path) host
    next prepared =>
      extract_lets row held
      have heldIds : Ids held := ids.holdRow (candidate_prepared ids path prepared)
      have heldOne : OneRow held := one.holdRow active (Table.mem_of_lookup pending)
      split
      next ungated =>
        have refusedIds : Ids (main.refusePrepared path prepared oldId) := by
          apply ids_refuseResult ids
          intro unwatched
          exact free_of_unique (safe prepared rfl expected unwatched (by simp [refusedUnchecked,ungated]))
        have refusedOne : OneRow (main.refusePrepared path prepared oldId) := one.of_rows rfl rfl rfl
        exact (refusedIds.settleBatchPath path).finishBatchIfReady (refusedOne.settleBatchPath path) host
      split
      · exact (ids.settleBatchPath path).finishBatchIfReady (one.settleBatchPath path) host
      next acquired =>
        split
        · exact (heldIds.settleBatchPath path).finishBatchIfReady (heldOne.settleBatchPath path) host
        next configured =>
          split
          next reason unresolved =>
            have refusedIds : Ids ((held.removeBatchPath path).refusePrepared path prepared oldId) := by
              apply ids_refuseResult (heldIds.removeBatchPath path)
              intro unwatched
              refine free_of_unique (safe prepared rfl expected unwatched ?_)
              have empty : prepared.manifest.config.isEmpty = false := by simpa using configured
              have acquired : host.acquires prepared.residentBytes = true := by simpa using acquired
              simp [refusedUnchecked,unresolved,acquired,empty,Except.isOk,Except.toBool]
            have refusedOne : OneRow ((held.removeBatchPath path).refusePrepared path prepared oldId) :=
              (heldOne.removeBatchPath path).of_rows rfl rfl rfl
            exact refusedIds.finishBatchIfReady refusedOne host
          · extract_lets queued
            have moved : Rearranged held queued.2 := rearranged_queueConfig s held _ _
            split
            · exact heldIds.rearrange moved
            · exact ((heldIds.rearrange moved).removeBatchPath path).finishBatchIfReady
                ((heldOne.rearrange moved).removeBatchPath path) host

theorem ids_consume {s : Settings} {state : Main × Nat} (ids : Ids state.1) (host : Host) (path : Path)
    (watchGeneration : Option Nat) (result : Except String ConfigSnapshot) (consumer : ConfigConsumer) :
    Ids (Main.consume s host path watchGeneration result state consumer).1 := by
  cases consumer with
  | plugin plugin revision =>
    simp only [Main.consume]
    split
    · exact ids
    split
    · unfold Main.attachConfig
      split
      · exact ids.removeBatchPath plugin
      next row held =>
        obtain ⟨batch,active,found⟩ := Option.bind_eq_some_iff.mp held
        have member : row ∈ state.1.rows := by
          apply List.mem_append_left
          simp only [Main.batchRows,active,Option.map_some,Option.getD_some]
          exact (Table.mem_values _ row).mpr ⟨plugin,found⟩
        have candidate := ids.candidates row member
        split
        next snapshot _ _ =>
          have attached : Candidate state.1 { row with config := some snapshot } :=
            ⟨candidate.replaces,candidate.first⟩
          exact (ids.holdRow attached).settleBatchPath plugin
        · exact ids.removeBatchPath plugin
    · exact ids.removeBatchPath plugin
  | watch id generation =>
    simp only [Main.consume]
    split
    · exact ids
    split
    · exact ids
    split
    · exact ids
    · unfold Main.deliver
      extract_lets seeded marked delivered
      have same : Ids delivered := ids.of_same rfl rfl rfl rfl rfl rfl
      split
      · exact same.rearrange (rearranged_callbacks s _ delivered)
      · exact ids.of_same rfl rfl rfl rfl rfl rfl

theorem ids_consumers {s : Settings} (host : Host) (path : Path) (watchGeneration : Option Nat)
    (result : Except String ConfigSnapshot) (consumers : List ConfigConsumer) {state : Main × Nat}
    (ids : Ids state.1) : Ids (consumers.foldl (Main.consume s host path watchGeneration result) state).1 := by
  induction consumers generalizing state with
  | nil => exact ids
  | cons consumer consumers ih => exact ih (ids_consume ids host path watchGeneration result consumer)

theorem ids_handleConfig {s : Settings} {main : Main} (ids : Ids main) (one : OneRow main) (host : Host) (path : Path)
    (revision : Nat) (watchGeneration : Option Nat) (result : Except String ConfigSnapshot) :
    Ids (main.handleConfig s host path revision watchGeneration result) := by
  unfold Main.handleConfig
  extract_lets resolving taken
  clear_value resolving
  split
  · cases resolving with
    | none => exact ids
    | some generation => exact ids.rearrange (rearranged_resolveConfigWatch s main _ _ _ _)
  next row _ =>
    have takenIds : Ids taken := ids.of_same rfl rfl rfl rfl rfl rfl
    have takenOne : OneRow taken := one.of_rows rfl rfl rfl
    have consumedIds : Ids (row.consumers.foldl (Main.consume s host path watchGeneration result) (taken,0)).1 :=
      ids_consumers host path watchGeneration result row.consumers takenIds
    have consumedOne : OneRow (row.consumers.foldl (Main.consume s host path watchGeneration result) (taken,0)).1 :=
      oneRow_consumers host path watchGeneration result row.consumers takenOne
    cases resolving with
    | none => exact consumedIds.finishBatchIfReady consumedOne host
    | some generation =>
      have moved := rearranged_resolveConfigWatch s
        (row.consumers.foldl (Main.consume s host path watchGeneration result) (taken,0)).1 path generation revision
      exact (consumedIds.rearrange (moved _)).finishBatchIfReady (consumedOne.rearrange (moved _)) host

/-! ### Scans -/

theorem retainedOld_row {main : Main} {path : Path} (found : main.retainedOld path = some false) :
    ∃ row ∈ main.rows, row.path = path ∧ row.oldId = none := by
  unfold Main.retainedOld at found
  rw [Option.or_eq_some_iff] at found
  obtain waits | ⟨_,ready⟩ := found
  · obtain ⟨entry,here,first⟩ := Option.map_eq_some_iff.mp waits
    have member : main.waiting.lookup entry.1 = some entry.2 :=
      (Table.lookup_iff_entry _ _ _).mpr (List.mem_of_find?_eq_some here)
    exact ⟨entry.2.row,mem_rows_of_waiting member,by simpa using List.find?_some here,by simpa using first⟩
  · obtain ⟨item,here,first⟩ := Option.map_eq_some_iff.mp ready
    exact ⟨item.row,mem_rows_of_ready (List.mem_of_find?_eq_some here),by simpa using List.find?_some here,
      by simpa using first⟩

/-- The files a scan no longer finds, each under the id it is watched at. -/
structure Vanishing (main : Main) (gone : List (Path × String)) : Prop where
  ids : Ids main
  settled : Settled main
  once : (gone.map Prod.fst).Nodup
  watched : ∀ entry ∈ gone, main.watchState.lookup entry.1 = some entry.2

/-- The watched files that a scan does not find. -/
theorem vanishing_listed {main : Main} (ids : Ids main) (settled : Settled main) (host : Host)
    (current : Table Path FileStamp) :
    Vanishing main ((arrange host.visit main.watchState.keys).filterMap fun path =>
      if path ∈ current then none else (main.watchState.lookup path).map (path,·)) := by
  refine ⟨ids,settled,?_,?_⟩
  · apply nodup_named (nodup_arrange host.visit main.watchState.keys_nodup)
    intro path entry listed
    split at listed
    · contradiction
    · obtain ⟨id,_,rfl⟩ := Option.map_eq_some_iff.mp listed
      rfl
  · intro entry member
    obtain ⟨path,_,found⟩ := List.mem_filterMap.mp member
    split at found
    · contradiction
    · obtain ⟨id,watched,rfl⟩ := Option.map_eq_some_iff.mp found
      exact watched

theorem vanishing_vanish {s : Settings} {main : Main} {entry : Path × String} {gone : List (Path × String)}
    (vanishing : Vanishing main (entry :: gone)) (host : Host) : Vanishing (main.vanish s host entry) gone := by
  have settled : Settled (main.vanish s host entry) := settled_vanish vanishing.settled host entry
  have watched := vanishing.watched entry List.mem_cons_self
  have cancels := cancelled_cancelPathWork vanishing.ids vanishing.settled.one host entry.1
  obtain ⟨apart,once⟩ := List.nodup_cons.mp vanishing.once
  have others : (main.cancelPathWork host entry.1).watchState = main.watchState := by
    rw [cancelPathWork_noBatch vanishing.settled.noBatch]
  unfold Main.vanish
  extract_lets retained cancelled unloaded
  have still : cancelled.watchState.lookup entry.1 = some entry.2 := cancels.watched.trans watched
  have gone : Ids unloaded ∧ unloaded.loadedFrom.lookup entry.1 = none ∧
      (∀ row ∈ unloaded.rows, row.path ≠ entry.1) ∧ unloaded.watchState = main.watchState := by
    simp only [unloaded]
    split
    · refine ⟨cancels.ids.unloadPlugin host .vanished still,?_,?_,?_⟩
      · exact unloadPlugin_unloaded s host .vanished cancels.ids still
      · intro row member
        exact cancels.alone row ((unloadPlugin_rows s host .vanished cancelled entry.1 entry.2).mem_iff.mp member)
      · exact (unloadPlugin_watch s host .vanished cancelled entry.1 entry.2).trans others
    next kept =>
      refine ⟨cancels.ids,?_,cancels.alone,others⟩
      obtain ⟨row,member,same,first⟩ := retainedOld_row (not_not.mp kept)
      rw [cancels.loaded,← same]
      exact (vanishing.ids.candidates row member).first first
  refine ⟨(gone.1.forget gone.2.1 gone.2.2.1).of_same rfl rfl rfl rfl rfl rfl,settled,once,?_⟩
  intro other member
  simp only [gone.2.2.2,Table.lookup_erase_eq]
  split
  next same => exact absurd (same ▸ List.mem_map_of_mem member) apart
  · exact vanishing.watched other (List.mem_cons_of_mem _ member)

theorem ids_sweep {s : Settings} (host : Host) (gone : List (Path × String)) {main : Main}
    (vanishing : Vanishing main gone) : Ids (gone.foldl (Main.vanish s host) main) := by
  induction gone generalizing main with
  | nil => exact vanishing.ids
  | cons entry gone ih => exact ih (vanishing_vanish vanishing host)

theorem ids_prepareFile {s : Settings} {building : Main × ActiveBatch} (ids : Ids building.1)
    (file : Path × FileStamp) : Ids (Main.prepareFile s building file).1 := by
  unfold Main.prepareFile
  extract_lets main batch revision dropped submitted
  split
  · exact ids
  have droppedIds : Ids dropped := by
    refine Ids.shrink ids (fun _ => rfl) rfl rfl ?_ lookup_of_retained
    intro row member
    exact (List.Sublist.append (List.Sublist.refl _)
      (List.Sublist.append (List.filter_sublist.map _) ((Table.values_retain _ _).map _))).subset member
  have moved : Rearranged dropped submitted.2 := { rearranged_overtaken s dropped with }
  exact droppedIds.rearrange moved

theorem ids_files {s : Settings} (files : List (Path × FileStamp)) {building : Main × ActiveBatch}
    (ids : Ids building.1) : Ids (files.foldl (Main.prepareFile s) building).1 := by
  induction files generalizing building with
  | nil => exact ids
  | cons file files ih => exact ih (ids_prepareFile ids file)

theorem ids_handleScan {s : Settings} {main : Main} (ids : Ids main) (settled : Settled main) (host : Host)
    (revision : Nat) (entries : Except String (List (Path × FileStamp))) :
    Ids (main.handleScan s host revision entries) := by
  unfold Main.handleScan
  extract_lets landed sessions
  have landedIds : Ids landed := ids.of_same rfl rfl rfl rfl rfl rfl
  have landedOne : Settled landed := settled.of_rows rfl rfl rfl
  split
  · exact landedIds
  split
  · exact landedIds
  next entries =>
    extract_lets current retained vanished swept files built
    have retainedOne : Settled retained := landedOne.of_rows rfl rfl rfl
    have retainedIds : Ids retained := landedIds.of_same rfl rfl rfl rfl rfl rfl
    have vanishing : Vanishing retained vanished := vanishing_listed retainedIds retainedOne host current
    have sweptIds : Ids swept := ids_sweep host vanished vanishing
    have builtIds : Ids built.1 := ids_files files sweptIds
    split
    · exact builtIds
    · have finished : Reading built := reading_files files ⟨settled_sweep host vanished retainedOne,by simp,rfl⟩
      refine builtIds.shrink (fun _ => rfl) rfl rfl ?_ id
      intro row member
      simpa [Main.rows,Main.batchRows,finished.settled.noBatch,finished.empty,Main.parkedRows] using member

/-! ### Applying -/

theorem Ids.park {main : Main} (ids : Ids main) {row : PreparedLoad} (candidate : Candidate main row)
    (writes : Writes main row.path (row.oldId.getD row.prepared.manifest.id)) (frame : Nat) :
    Ids { main.commitPath row.path row.prepared.stamp (row.oldId.getD row.prepared.manifest.id) with
      waiting := main.waiting.insert row.prepared.manifest.id ⟨row,frame⟩ } := by
  have committed := ids.commitPath writes row.prepared.stamp
  have watched : (main.watchState.insert row.path (row.oldId.getD row.prepared.manifest.id)).lookup row.path =
      some (row.oldId.getD row.prepared.manifest.id) := AList.lookup_insert _
  refine ⟨committed.unique,committed.loaded,?_,?_,committed.own⟩
  · intro other member
    have among : other = row ∨ other ∈ main.rows := by
      obtain batch | parked := List.mem_append.mp member
      · exact .inr (List.mem_append_left _ batch)
      simp only [Main.parkedRows,Table.values_insert,List.map_cons,List.mem_append,List.mem_cons] at parked
      obtain ready | same | waiting := parked
      · exact .inr (List.mem_append_right _ (List.mem_append_left _ ready))
      · exact .inl same
      · exact .inr (List.mem_append_right _ (List.mem_append_right _
          (((Table.values_erase _ _).map _).subset waiting)))
    obtain rfl | old := among
    · refine ⟨?_,candidate.first⟩
      intro old running
      exact watched.trans (by simp [running])
    · exact ⟨(committed.candidates other old).replaces,(committed.candidates other old).first⟩
  · intro id load found first
    simp only [Table.lookup_insert_eq] at found
    split at found
    next same =>
      obtain rfl := Option.some.inj found
      have first : row.oldId = none := first
      subst same
      exact watched.trans (by simp [first])
    · exact committed.parked found first

/-- Loading a file's candidate under an id that no other file carries. -/
theorem ids_beginLoad {s : Settings} {main : Main} (ids : Ids main) {row : PreparedLoad} (host : Host)
    (free : main.Free row.path row.prepared.manifest.id) (alone : ∀ other ∈ main.rows, other.path ≠ row.path) :
    Ids (main.beginLoad s host row) := by
  unfold Main.beginLoad
  extract_lets id started ran
  have moved : Rearranged started ran := rearranged_callbacks s _ started
  have kept : ∀ {other plugin}, other ≠ row.path → ran.loadedFrom.lookup other = some plugin →
      main.loadedFrom.lookup other = some plugin := by
    intro other plugin apart found
    rw [moved.loadedFrom] at found
    rw [show started.loadedFrom.lookup other = _ from AList.lookup_insert_ne apart] at found
    exact lookup_of_retained found
  have watched : ran.watchState = main.watchState := moved.watchState
  have rows : ∀ other ∈ ran.rows, other ∈ main.rows := fun other member => moved.rows.mem_iff.mp member
  have same : ∀ other, other ≠ row.path →
      (ran.commitPath row.path row.prepared.stamp id).watchState.lookup other = main.watchState.lookup other := by
    intro other apart
    exact (AList.lookup_insert_ne apart).trans (by rw [watched])
  have here : (ran.commitPath row.path row.prepared.stamp id).watchState.lookup row.path = some id :=
    AList.lookup_insert _
  refine ⟨?_,?_,?_,?_,?_⟩
  · intro first second name found also
    by_cases atFirst : first = row.path
    · by_cases atSecond : second = row.path
      · exact atFirst.trans atSecond.symm
      · rw [atFirst,here] at found
        rw [same second atSecond] at also
        obtain rfl := Option.some.inj found
        exact atFirst.trans (free second also).symm
    · rw [same first atFirst] at found
      by_cases atSecond : second = row.path
      · rw [atSecond,here] at also
        obtain rfl := Option.some.inj also
        exact (free first found).trans atSecond.symm
      · rw [same second atSecond] at also
        exact ids.unique found also
  · intro other name stamp found
    by_cases there : other = row.path
    · subst there
      have loaded : ran.loadedFrom.lookup row.path = some (name,stamp) := found
      have own : started.loadedFrom.lookup row.path = some (id,row.prepared.stamp) := AList.lookup_insert _
      rw [moved.loadedFrom,own] at loaded
      rw [here,(Prod.mk.inj (Option.some.inj loaded)).1]
    · rw [same other there]
      exact ids.loaded (kept there found)
  · intro other member
    have apart := alone other (rows other member)
    exact (ids.candidates other (rows other member)).keep (same other.path apart) (fun _ found => kept apart found)
  · intro key load found first
    have found : main.waiting.lookup key = some load := moved.waiting found
    rw [same load.row.path (alone _ (mem_rows_of_waiting found))]
    exact ids.parked found first
  · intro call member
    have member : call ∈ ran.unloads := member
    rw [moved.unloads] at member
    exact ids.own call member

theorem ids_applyReady {s : Settings} {main : Main} (ids : Ids main) (one : OneRow main) (host : Host)
    (safe : ∀ item ready, main.readyApply = item :: ready → item.row.oldId = none →
      gate host item.row.prepared.manifest = false →
      main.duplicateManifestId item.row.path item.row.prepared.manifest.id = false) :
    Ids (main.applyReady s host) := by
  unfold Main.applyReady
  split
  · exact ids
  next item ready queued =>
    obtain ⟨popped,alone⟩ := popped_applyReady one queued
    have poppedIds : Ids { main with readyApply := ready } := by
      refine ids.shrink (fun _ => rfl) rfl rfl ?_ id
      exact fun row member => popped.subset (List.mem_cons_of_mem _ member)
    have before := ids.candidates item.row (mem_rows_of_ready (queued ▸ List.mem_cons_self))
    have candidate : Candidate { main with readyApply := ready } item.row := ⟨before.replaces,before.first⟩
    have writes := fun free => candidate.writes poppedIds free alone
    have outcome := Main.applied s host { main with readyApply := ready } item
    generalize Main.applyPrepared s host { main with readyApply := ready } item = after at outcome
    cases outcome with
    | ungated refused =>
      apply poppedIds.refusePrepared
      apply writes
      intro first
      exact free_of_unique (safe item ready queued first refused)
    | duplicate _ _ watched kept =>
      obtain rfl | ⟨old,running,_,rfl⟩ := kept
      · exact poppedIds.of_same rfl rfl rfl rfl rfl rfl
      · have rewrites := Writes.rewrite poppedIds (candidate.replaces running)
        exact (poppedIds.write rewrites).of_same rfl rfl rfl rfl rfl rfl
    | refused _ free => exact poppedIds.refusePrepared (writes fun _ => free_of_unique free)
    | parked _ free _ _ _ frame => exact poppedIds.park candidate (writes fun _ => free_of_unique free) frame
    | behind old running _ =>
      have queuedIds : Ids (Main.queuePendingReload { main with readyApply := ready } old) := by
        unfold Main.queuePendingReload
        split <;> exact poppedIds.of_same rfl rfl rfl rfl rfl rfl
      apply queuedIds.commitPath
      apply Writes.rewrite queuedIds
      unfold Main.queuePendingReload
      split <;> exact candidate.replaces running
    | deferred _ free =>
      unfold Main.deferPrepared
      split
      · exact poppedIds.commitPath (writes fun _ => free_of_unique free) _
      · split
        next first =>
          have unloaded := candidate.first (Option.isNone_iff_eq_none.mp first)
          exact (poppedIds.forget unloaded alone).of_same rfl rfl rfl rfl rfl rfl
        · exact poppedIds.of_same rfl rfl rfl rfl rfl rfl
    | loaded _ free replaced _ retired =>
      have free := free_of_unique free
      obtain ⟨_,rfl⟩ | ⟨old,running,rfl⟩ := retired
      · exact ids_beginLoad poppedIds host free alone
      · have unloaded := poppedIds.unloadPlugin (s := s) host .replaced (candidate.replaces running)
        refine ids_beginLoad unloaded host ?_ ?_
        · intro other found
          rw [unloadPlugin_watch] at found
          exact free other found
        · intro other member
          exact alone other ((unloadPlugin_rows s host .replaced _ item.row.path old).mem_iff.mp member)

/-! ### Whole runs -/

/-- The file and the id of a first candidate that this step refuses before it
looks for another file with that id. -/
def Event.refusesFirst (s : Settings) (main : Main) : Event → Option (Path × String)
  | .popResult host =>
    match (Main.tryResult s { main with turns := host.turns }).1 with
    | some (.plugin epoch revision path (.ok prepared)) =>
      if epoch = s.epoch ∧ main.activeBatch.bind (·.pending.lookup path) = some revision ∧
          main.watchState.lookup path = none ∧ refusedUnchecked host prepared = true then
        some (path,prepared.manifest.id)
      else none
    | _ => none
  | .applyReady host =>
    match main.readyApply with
    | item :: _ =>
      if item.row.oldId = none ∧ gate host item.row.prepared.manifest = false then
        some (item.row.path,item.row.prepared.manifest.id)
      else none
    | [] => none
  | _ => none

/-- No other watched file carries the id of a first candidate refused so early. -/
def Event.unclaimed (s : Settings) (main : Main) (event : Event) : Bool :=
  (event.refusesFirst s main).all fun (path,id) => !main.duplicateManifestId path id

/-- Every step of the run is unclaimed in the state it is taken from. -/
def unclaimedRun (s : Settings) : List Event → Main → Bool
  | [], _ => true
  | event :: events, main => event.unclaimed s main && unclaimedRun s events (main.advance s event)

theorem Event.free_of_unclaimed {s : Settings} {main : Main} {event : Event} (unclaimed : event.unclaimed s main = true)
    {path : Path} {id : String} (refuses : event.refusesFirst s main = some (path,id)) :
    main.duplicateManifestId path id = false := by
  simpa [Event.unclaimed,refuses] using unclaimed

theorem ids_popResult {s : Settings} (sized : s.policy.Sized) {main : Main} (orderly : Orderly s main)
    (ids : Ids main) (host : Host)
    (safe : ∀ revision path prepared, (main.tryResult s).1 = some (.plugin s.epoch revision path (.ok prepared)) →
      main.activeBatch.bind (·.pending.lookup path) = some revision → main.watchState.lookup path = none →
      refusedUnchecked host prepared = true → main.duplicateManifestId path prepared.manifest.id = false) :
    Ids (main.popResult s host) := by
  have moved := rearranged_tryResult s main
  have afterOne : OneRow (main.tryResult s).2 := orderly.one.rearrange moved
  have afterIds : Ids (main.tryResult s).2 := ids.rearrange moved
  unfold Main.popResult
  extract_lets popped
  split
  · exact afterIds
  next epoch revision entries scanned =>
    split
    · have noBatch := noBatch_of_scanned sized orderly.owed scanned
      exact ids_handleScan afterIds ⟨afterOne,moved.batch.trans noBatch⟩ host revision entries
    · exact afterIds
  next epoch revision path prepared answered =>
    split
    next current =>
      subst current
      apply ids_handlePlugin afterIds afterOne
      rintro archive rfl expected unwatched refused
      rw [moved.batch] at expected
      rw [moved.watchState] at unwatched
      have free := safe revision path archive answered expected unwatched refused
      unfold Main.duplicateManifestId at free ⊢
      rw [moved.watchState]
      exact free
    · exact afterIds
  next epoch revision path watchGeneration snapshot _ =>
    split
    · exact ids_handleConfig afterIds afterOne host path revision watchGeneration snapshot
    split
    · split
      · exact afterIds.rearrange (rearranged_resolveConfigWatch s _ _ _ _ _)
      · exact afterIds
    · exact afterIds

theorem ids_advance {s : Settings} (sized : s.policy.Sized) {main : Main} (orderly : Orderly s main)
    (ids : Ids main) {event : Event} (unclaimed : event.unclaimed s main = true) : Ids (main.advance s event) := by
  have ready : ∀ turns, Orderly s { main with turns := turns } := fun _ =>
    ⟨orderly.owed.of_traffic rfl,orderly.one.of_rows rfl rfl rfl⟩
  have readyIds : ∀ turns, Ids { main with turns := turns } := fun _ => ids.of_same rfl rfl rfl rfl rfl rfl
  cases event with
  | turn turn => exact ids.of_same rfl rfl rfl rfl rfl rfl
  | callback callback turns => exact (readyIds turns).rearrange (rearranged_callback s _ callback)
  | drainIntent id host => exact ids_drainIntent (readyIds host.turns) (ready host.turns).one host id
  | popResult host =>
    apply ids_popResult sized (ready host.turns) (readyIds host.turns) host
    intro revision path prepared answered expected unwatched refused
    apply Event.free_of_unclaimed unclaimed
    simp [Event.refusesFirst,answered,expected,unwatched,refused]
  | applyReady host =>
    apply ids_applyReady (readyIds host.turns) (ready host.turns).one host
    intro item later queued first ungated
    have queued : main.readyApply = item :: later := queued
    apply Event.free_of_unclaimed unclaimed
    simp [Event.refusesFirst,queued,first,ungated]
  | scheduleScan host => exact (readyIds host.turns).rearrange (rearranged_scheduleScan s host _)

theorem ids_start : Ids {} where
  unique := by simp
  loaded := by simp
  candidates := by simp [Main.rows,Main.batchRows,Main.parkedRows]
  parked := by simp
  own := by simp

theorem ids_execute {s : Settings} (sized : s.policy.Sized) (events : List Event) {main : Main}
    (orderly : Orderly s main) (ids : Ids main) (unclaimed : unclaimedRun s events main = true) :
    Ids (Main.execute s events main) := by
  induction events generalizing main with
  | nil => exact ids
  | cons event events ih =>
    obtain ⟨now,later⟩ := Bool.and_eq_true_iff.mp unclaimed
    exact ih (orderly_advance sized orderly event) (ids_advance sized orderly ids now) later

/-- No two watched files carry one id, and the loader unloads for a file that
vanished or changed no plugin loaded from another watched file. -/
structure OneFileOnePlugin (main : Main) : Prop where
  unique : ∀ path other id, main.watchState.lookup path = some id → main.watchState.lookup other = some id →
    path = other
  own : ∀ call ∈ main.unloads, call.cause ≠ .command → call.Own

/-- In every run that refuses no first candidate under a claimed id before the
duplicate check, one file stands for one plugin, in every state reached. -/
theorem one_file_one_plugin (s : Settings) (valid : s.policy.validate = .ok ()) (events : List Event)
    (unclaimed : unclaimedRun s events {} = true) : OneFileOnePlugin (Main.execute s events {}) := by
  have ids := ids_execute (LoaderPolicy.sized valid) events (orderly_start s) ids_start unclaimed
  exact ⟨fun _ _ _ here there => ids.unique here there,fun call member _ => ids.own call member⟩

/-! ### A file that takes another's id -/

/-- The archives a plugins directory holds. -/
abbrev Archives := List (Path × PreparedPlugin)

def Archives.disk (archives : Archives) : Disk where
  scanPlugins := fun _ => .ok (archives.map fun file => (file.1,file.2.stamp))
  prepare := fun path => (archives.lookup path).elim (.error "unread") .ok
  stableRead := fun _ => .error "missing: no config"

/-- A scan of the directory, a read of every file it asks for, and what is then
ready applied. -/
def Archives.poll (archives : Archives) : List Event :=
  [.scheduleScan .plain,.turn .take,.turn (.finish archives.disk),.popResult .plain] ++
    archives.flatMap (fun _ => [.turn .take,.turn (.finish archives.disk),.popResult .plain]) ++
    archives.map fun _ => .applyReady .plain

def plainArchive (id apiVersion : String) (written : Nat) : PreparedPlugin where
  manifest := ⟨id,apiVersion,[],[],[],[],[]⟩
  stamp := ⟨written,written,written,written,written,written⟩
  residentBytes := 1

def plainSettings : Settings := ⟨{},1,[47],List.length⟩

theorem plainSettings_valid : plainSettings.policy.validate = .ok () := by
  have defaults : ({} : LoaderPolicy).validate = .ok () := rfl
  exact defaults

def goodArchive : Path × PreparedPlugin := ([97],plainArchive "x" "3" 1)

def badArchive : Path × PreparedPlugin := ([98],plainArchive "x" "1" 2)

/-- A plugin loads; a file with its id and an API version the host refuses comes
and goes. -/
def badFileComesAndGoes : List Event :=
  Archives.poll [goodArchive] ++ Archives.poll [goodArchive,badArchive] ++ Archives.poll [goodArchive]

/-- Deleting the refused file unloads the good plugin, whose file is still there. -/
theorem refused_file_unloads_another :
    plainSettings.policy.validate = .ok () ∧
    ¬OneFileOnePlugin (Main.execute plainSettings badFileComesAndGoes {}) := by
  refine ⟨plainSettings_valid,?_⟩
  intro one
  have called : (Main.execute plainSettings badFileComesAndGoes {}).unloads.any (fun call =>
      decide (call.cause = .vanished ∧ call.path = [98] ∧ call.id = "x" ∧
        call.loadedFrom.lookup [97] = some ("x",goodArchive.2.stamp) ∧ [97] ∈ call.watchState)) = true := by
    decide +kernel
  obtain ⟨call,member,facts⟩ := List.any_eq_true.mp called
  obtain ⟨vanished,path,id,loaded,watched⟩ := of_decide_eq_true facts
  have own := one.own call member (by simp [vanished])
  exact own [97] _ (by simp [path]) (id ▸ loaded) watched

/-- A plugin loads and its file changes. -/
def fileChanges : List Event :=
  Archives.poll [goodArchive] ++ Archives.poll [([97],plainArchive "x" "3" 2)]

theorem one_file_one_plugin_changed :
    unclaimedRun plainSettings fileChanges {} = true ∧ OneFileOnePlugin (Main.execute plainSettings fileChanges {}) := by
  have unclaimed : unclaimedRun plainSettings fileChanges {} = true := by decide +kernel
  exact ⟨unclaimed,one_file_one_plugin plainSettings plainSettings_valid fileChanges unclaimed⟩

end S2Script.Loader
