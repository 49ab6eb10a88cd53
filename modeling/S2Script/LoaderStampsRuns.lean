import S2Script.LoaderStamps

/-! Committed stamps over whole runs of the loader: what every result, scan,
applied candidate and command does to them, and the run in which one parked
candidate takes the place of another. -/
namespace S2Script.Loader

open LoaderWorker

/-! ### Results -/

theorem apart_refusePrepared (main : Main) {path file : Path} (apart : file ≠ path) (prepared : PreparedPlugin)
    (oldId : Option String) : Apart main (main.refusePrepared path prepared oldId) file :=
  { Apart.refl main file with
    stamp := fun found => (AList.lookup_insert_ne apart).symm.trans found
    watched := AList.lookup_insert_ne apart
    refused := fun member => List.mem_append_left _ member }

theorem stampsAt_refusePrepared {main : Main} {path : Path} (stamps : StampsAt main path)
    (unsuppressed : path ∉ main.suppressed) (prepared : PreparedPlugin) (oldId : Option String) :
    StampsAt (main.refusePrepared path prepared oldId) path where
  kept := by
    intro stamp found
    have own : (main.fileStamps.insert path prepared.stamp).lookup path = some prepared.stamp := AList.lookup_insert _
    obtain rfl := Option.some.inj (own.symm.trans found)
    exact .inl (.inl (.inl (List.mem_append_right _ (List.mem_singleton_self _))))
  backed := by
    intro row stamp member same baseline
    refine (stamps.backed member same baseline).imp_left ?_
    exact Or.imp_left fun warned => List.mem_append_left _ warned
  suppressed := fun member => absurd member unsuppressed

theorem stamps_refusePrepared {main : Main} (stamps : Stamps main) (ids : Ids main) {path : Path}
    (unsuppressed : path ∉ main.suppressed) (prepared : PreparedPlugin) (oldId : Option String) :
    Stamps (main.refusePrepared path prepared oldId) := by
  intro file
  by_cases here : file = path
  · subst here
    exact stampsAt_refusePrepared (stamps file) unsuppressed prepared oldId
  · exact (stamps file).apart ids (apart_refusePrepared main here prepared oldId)

theorem stamps_finishBatchIfReady {main : Main} (stamps : Stamps main) (ids : Ids main) (one : OneRow main)
    (host : Host) : Stamps (main.finishBatchIfReady host) :=
  fun file => stampsAt_finishBatchIfReady (stamps file) ids one host

theorem stamps_removeBatchPath {main : Main} (stamps : Stamps main) (ids : Ids main) (path : Path) :
    Stamps (main.removeBatchPath path) :=
  fun file => (stamps file).apart ids (apart_removeBatchPath main path file)

theorem stamps_settleBatchPath {main : Main} (stamps : Stamps main) (ids : Ids main) (path : Path) :
    Stamps (main.settleBatchPath path) :=
  fun file => (stamps file).apart ids (apart_settleBatchPath main path file)

theorem stamps_calm {main after : Main} (stamps : Stamps main) (ids : Ids main) (calm : Calm main after) :
    Stamps after :=
  fun file => (stamps file).apart ids (calm.apart file)

/-- A file the batch reads is not suppressed. -/
theorem unsuppressed_of_pending {main : Main} (stamps : Stamps main) {batch : ActiveBatch} {path : Path}
    (active : main.activeBatch = some batch) (pending : path ∈ batch.pending) : path ∉ main.suppressed :=
  fun member => ((stamps path).suppressed member).2.2 active pending

/-- The batch holds a candidate whose earlier stamp is accounted for. -/
theorem stamps_holdRow {main : Main} (stamps : Stamps main) {row : PreparedLoad} {batch : ActiveBatch}
    (active : main.activeBatch = some batch) (pending : row.path ∈ batch.pending)
    (backed : ∀ {stamp}, row.baselineStamp = some stamp → main.Backed row stamp) : Stamps (main.holdRow row) := by
  intro file
  have before := stamps file
  refine ⟨fun found => before.kept found,?_,?_⟩
  · intro other stamp member same baseline
    obtain rfl | old := mem_rows_holdRow member
    · exact backed baseline
    · exact before.backed old same baseline
  · intro member
    obtain ⟨unstamped,alone,unread⟩ := before.suppressed member
    refine ⟨unstamped,?_,?_⟩
    · intro other there
      obtain rfl | old := mem_rows_holdRow there
      · rintro rfl
        exact unread active pending
      · exact alone other old
    · intro found now waits
      have held : main.activeBatch.map (fun batch =>
          { batch with prepared := batch.prepared.insert row.path row }) = some found := now
      obtain ⟨old,was,rfl⟩ := Option.map_eq_some_iff.mp held
      exact unread was waits

/-- A prepared archive's earlier stamp is accounted for: no row of its file is parked. -/
theorem backed_of_prepared {main : Main} (stamps : Stamps main) (one : OneRow main) {batch : ActiveBatch}
    {path : Path} (active : main.activeBatch = some batch) (pending : path ∈ batch.pending)
    (prepared : PreparedPlugin) {stamp : FileStamp} (baseline : main.fileStamps.lookup path = some stamp) :
    main.Backed ⟨path,main.watchState.lookup path,main.fileStamps.lookup path,prepared,none⟩ stamp := by
  obtain (answered | ⟨id,watched,queued⟩) | ⟨row,member,same,_⟩ := (stamps path).kept baseline
  · exact .inl answered
  · exact .inr ⟨id,watched,queued⟩
  · exact absurd same (one.unread active pending row member)

theorem stamps_handlePlugin {s : Settings} {main : Main} (stamps : Stamps main) (ids : Ids main) (one : OneRow main)
    (host : Host) (revision : Nat) (path : Path) (result : Except String PreparedPlugin)
    (safe : ∀ prepared, result = .ok prepared → main.activeBatch.bind (·.pending.lookup path) = some revision →
      main.watchState.lookup path = none → refusedUnchecked host prepared = true →
      main.duplicateManifestId path prepared.manifest.id = false) :
    Stamps (main.handlePlugin s host revision path result) := by
  unfold Main.handlePlugin
  split
  · exact stamps
  next expected =>
    rw [not_not] at expected
    obtain ⟨batch,active,waits⟩ := Option.bind_eq_some_iff.mp expected
    have pending : path ∈ batch.pending := Table.mem_of_lookup waits
    have unsuppressed := unsuppressed_of_pending stamps active pending
    extract_lets oldId
    split
    · exact stamps_finishBatchIfReady (stamps_settleBatchPath stamps ids path) (ids.settleBatchPath path)
        (one.settleBatchPath path) host
    next prepared =>
      extract_lets row held
      have heldIds : Ids held := ids.holdRow (candidate_prepared ids path prepared)
      have heldOne : OneRow held := one.holdRow active pending
      have heldStamps : Stamps held := stamps_holdRow stamps active pending
        fun baseline => backed_of_prepared stamps one active pending prepared baseline
      split
      next ungated =>
        have refusedIds : Ids (main.refusePrepared path prepared oldId) := by
          apply ids_refuseResult ids
          intro unwatched
          exact free_of_unique (safe prepared rfl expected unwatched (by simp [refusedUnchecked,ungated]))
        have refusedOne : OneRow (main.refusePrepared path prepared oldId) := one.of_rows rfl rfl rfl
        have refusedStamps : Stamps (main.refusePrepared path prepared oldId) :=
          stamps_refusePrepared stamps ids unsuppressed prepared oldId
        exact stamps_finishBatchIfReady (stamps_settleBatchPath refusedStamps refusedIds path)
          (refusedIds.settleBatchPath path) (refusedOne.settleBatchPath path) host
      split
      · exact stamps_finishBatchIfReady (stamps_settleBatchPath stamps ids path) (ids.settleBatchPath path)
          (one.settleBatchPath path) host
      next acquired =>
        split
        · exact stamps_finishBatchIfReady (stamps_settleBatchPath heldStamps heldIds path)
            (heldIds.settleBatchPath path) (heldOne.settleBatchPath path) host
        next configured =>
          split
          next reason unresolved =>
            have refusedIds : Ids ((held.removeBatchPath path).refusePrepared path prepared oldId) := by
              apply ids_refuseResult (heldIds.removeBatchPath path)
              intro unwatched
              refine free_of_unique (safe prepared rfl expected unwatched ?_)
              have empty : prepared.manifest.config.isEmpty = false := by simpa using configured
              have acquired : host.acquires prepared.residentBytes = true := by simpa using acquired
              simp [refusedUnchecked,unresolved,acquired,empty,Except.isOk,Except.toBool]
            have refusedOne : OneRow ((held.removeBatchPath path).refusePrepared path prepared oldId) :=
              (heldOne.removeBatchPath path).of_rows rfl rfl rfl
            have refusedStamps : Stamps ((held.removeBatchPath path).refusePrepared path prepared oldId) :=
              stamps_refusePrepared (stamps_removeBatchPath heldStamps heldIds path) (heldIds.removeBatchPath path)
                unsuppressed prepared oldId
            exact stamps_finishBatchIfReady refusedStamps refusedIds refusedOne host
          · extract_lets queued
            have calm : Calm held queued.2 := calm_queueConfig s held _ _
            have queuedIds : Ids queued.2 := heldIds.rearrange calm.moved
            have queuedStamps : Stamps queued.2 := stamps_calm heldStamps heldIds calm
            split
            · exact queuedStamps
            · exact stamps_finishBatchIfReady (stamps_removeBatchPath queuedStamps queuedIds path)
                (queuedIds.removeBatchPath path) ((heldOne.rearrange calm.moved).removeBatchPath path) host

/-- The invariants a step may rely on. -/
structure Sound (main : Main) : Prop where
  one : OneRow main
  ids : Ids main
  stamps : Stamps main

theorem Sound.calm {main after : Main} (sound : Sound main) (calm : Calm main after) : Sound after :=
  ⟨sound.one.rearrange calm.moved,sound.ids.rearrange calm.moved,stamps_calm sound.stamps sound.ids calm⟩

theorem Sound.removeBatchPath {main : Main} (sound : Sound main) (path : Path) : Sound (main.removeBatchPath path) :=
  ⟨sound.one.removeBatchPath path,sound.ids.removeBatchPath path,stamps_removeBatchPath sound.stamps sound.ids path⟩

theorem Sound.settleBatchPath {main : Main} (sound : Sound main) (path : Path) : Sound (main.settleBatchPath path) :=
  ⟨sound.one.settleBatchPath path,sound.ids.settleBatchPath path,stamps_settleBatchPath sound.stamps sound.ids path⟩

theorem Sound.finishBatchIfReady {main : Main} (sound : Sound main) (host : Host) :
    Sound (main.finishBatchIfReady host) :=
  ⟨sound.one.finishBatchIfReady host,sound.ids.finishBatchIfReady sound.one host,
    stamps_finishBatchIfReady sound.stamps sound.ids sound.one host⟩

/-- Fields that no invariant reads may change. -/
theorem Sound.of_same {main after : Main} (sound : Sound main) (calm : Calm main after)
    (ready : after.readyApply = main.readyApply) (waiting : after.waiting = main.waiting) : Sound after :=
  ⟨sound.one.of_rows calm.moved.batch ready waiting,sound.ids.rearrange calm.moved,stamps_calm sound.stamps sound.ids calm⟩

theorem sound_attachConfig {main : Main} (sound : Sound main) (host : Host) {path : Path} {revision : Nat}
    (awaited : main.awaitsConfig path revision = true) (snapshot : ConfigSnapshot) :
    Sound (main.attachConfig host path snapshot) := by
  unfold Main.attachConfig
  split
  · exact sound.removeBatchPath path
  next row held =>
    obtain ⟨batch,active,found⟩ := Option.bind_eq_some_iff.mp held
    have keyed : row.path = path := sound.one.prepared active found
    have pending : row.path ∈ batch.pending := by
      have waits : batch.pending.lookup path = some revision := by simpa [Main.awaitsConfig,active] using awaited
      exact keyed.symm ▸ Table.mem_of_lookup waits
    have member : row ∈ main.rows := by
      apply List.mem_append_left
      simp only [Main.batchRows,active,Option.map_some,Option.getD_some]
      exact (Table.mem_values _ row).mpr ⟨path,found⟩
    have candidate := sound.ids.candidates row member
    split
    · have attached : Candidate main { row with config := some snapshot } := ⟨candidate.replaces,candidate.first⟩
      have backed : ∀ {stamp}, row.baselineStamp = some stamp →
          main.Backed { row with config := some snapshot } stamp := by
        intro stamp baseline
        have before : main.Backed row stamp := (sound.stamps row.path).backed member rfl baseline
        exact before
      have held : Sound (main.holdRow { row with config := some snapshot }) :=
        ⟨sound.one.holdRow active pending,sound.ids.holdRow attached,stamps_holdRow sound.stamps active pending backed⟩
      exact held.settleBatchPath path
    · exact sound.removeBatchPath path

theorem sound_consume {s : Settings} {state : Main × Nat} (sound : Sound state.1) {host : Host} (calm : host.Calm)
    (path : Path) (watchGeneration : Option Nat) (result : Except String ConfigSnapshot) (consumer : ConfigConsumer) :
    Sound (Main.consume s host path watchGeneration result state consumer).1 := by
  cases consumer with
  | plugin plugin revision =>
    simp only [Main.consume]
    split
    · exact sound
    next awaited =>
      split
      · exact sound_attachConfig sound host (by simpa using awaited) _
      · exact sound.removeBatchPath plugin
  | watch id generation =>
    simp only [Main.consume]
    split
    · exact sound
    split
    · exact sound
    split
    · exact sound
    · unfold Main.deliver
      extract_lets seeded marked delivered
      have noted : Calm state.1 delivered := Rearranged.calm { Rearranged.refl state.1 with } rfl rfl
      split
      · exact sound.calm (noted.trans (calm_callbacks s (calm.delivering id) delivered))
      · exact sound.calm (Rearranged.calm { Rearranged.refl state.1 with } rfl rfl)

theorem sound_consumers {s : Settings} {host : Host} (calm : host.Calm) (path : Path) (watchGeneration : Option Nat)
    (result : Except String ConfigSnapshot) (consumers : List ConfigConsumer) {state : Main × Nat}
    (sound : Sound state.1) : Sound (consumers.foldl (Main.consume s host path watchGeneration result) state).1 := by
  induction consumers generalizing state with
  | nil => exact sound
  | cons consumer consumers ih => exact ih (sound_consume sound calm path watchGeneration result consumer)

theorem calm_resolveConfigWatch (s : Settings) (main : Main) (path : Path) (generation revision : Nat)
    (applied : Bool) : Calm main (main.resolveConfigWatch s path generation revision applied) :=
  ⟨rearranged_resolveConfigWatch s main path generation revision applied,(calm_overtaken s main).queued⟩

theorem sound_handleConfig {s : Settings} {main : Main} (sound : Sound main) {host : Host} (calm : host.Calm)
    (path : Path) (revision : Nat) (watchGeneration : Option Nat) (result : Except String ConfigSnapshot) :
    Sound (main.handleConfig s host path revision watchGeneration result) := by
  unfold Main.handleConfig
  extract_lets resolving taken
  clear_value resolving
  split
  · cases resolving with
    | none => exact sound
    | some generation => exact sound.calm (calm_resolveConfigWatch s main _ _ _ _)
  next row _ =>
    have takenSound : Sound taken := sound.calm (Rearranged.calm { Rearranged.refl main with } rfl rfl)
    have consumed : Sound (row.consumers.foldl (Main.consume s host path watchGeneration result) (taken,0)).1 :=
      sound_consumers calm path watchGeneration result row.consumers takenSound
    apply Sound.finishBatchIfReady
    cases resolving with
    | none => exact consumed
    | some generation => exact consumed.calm (calm_resolveConfigWatch s _ _ _ _ _)

/-! ### Scans -/

/-- Reading this file anew drops no parked candidate whose stamp is committed. -/
def Main.Rereadable (main : Main) (file : Path × FileStamp) : Prop :=
  file.1 ∈ main.suppressed ∨ main.fileStamps.lookup file.1 = some file.2 ∨
    ∀ row ∈ main.parkedRows, row.path = file.1 → main.fileStamps.lookup file.1 ≠ some row.prepared.stamp

/-- Stamps and parked rows only go. -/
structure Fewer (main after : Main) : Prop where
  stamps : ∀ {path stamp}, after.fileStamps.lookup path = some stamp → main.fileStamps.lookup path = some stamp
  parked : ∀ {row}, row ∈ after.parkedRows → row ∈ main.parkedRows
  suppressed : after.suppressed = main.suppressed

theorem Fewer.rereadable {main after : Main} (fewer : Fewer main after) {file : Path × FileStamp}
    (rereadable : main.Rereadable file) : after.Rereadable file := by
  obtain suppressed | same | unparked := rereadable
  · exact .inl (fewer.suppressed.symm ▸ suppressed)
  · cases found : after.fileStamps.lookup file.1 with
    | none => exact .inr (.inr (by simp [found]))
    | some stamp =>
      rw [fewer.stamps found] at same
      exact .inr (.inl (found.trans same))
  · refine .inr (.inr ?_)
    intro row member here committed
    exact unparked row (fewer.parked member) here (fewer.stamps committed)

theorem sound_vanish {s : Settings} {main : Main} (sound : Sound main) {host : Host} (calm : host.Calm)
    {entry : Path × String} {gone : List (Path × String)} (vanishing : Vanishing main (entry :: gone)) :
    Sound (main.vanish s host entry) ∧ Fewer main (main.vanish s host entry) := by
  have next := vanishing_vanish (s := s) vanishing host
  have noBatch := vanishing.settled.noBatch
  have cancels := cancelled_cancelPathWork sound.ids sound.one host entry.1
  have watched := vanishing.watched entry List.mem_cons_self
  suffices stamps : Stamps (main.vanish s host entry) ∧ Fewer main (main.vanish s host entry) from
    ⟨⟨next.settled.one,next.ids,stamps.1⟩,stamps.2⟩
  unfold Main.vanish
  extract_lets retained cancelled unloaded
  have still : cancelled.watchState.lookup entry.1 = some entry.2 := cancels.watched.trans watched
  have cancelledSame : cancelled = { main with
      readyApply := main.readyApply.filter (·.row.path ≠ entry.1)
      waiting := main.waiting.retain fun _ load => load.row.path ≠ entry.1 } := cancelPathWork_noBatch noBatch host entry.1
  have moved : (∀ {row}, row ∈ unloaded.parkedRows ↔ row ∈ cancelled.parkedRows) ∧
      (∀ {row}, row ∈ unloaded.rows ↔ row ∈ cancelled.rows) ∧ unloaded.fileStamps = cancelled.fileStamps ∧
      unloaded.suppressed = cancelled.suppressed ∧ unloaded.activeBatch = cancelled.activeBatch := by
    simp only [unloaded]
    split
    · have run := rearranged_callbacks s (host.unloading entry.2) { cancelled with
        unloads := cancelled.unloads ++ [⟨.vanished,entry.1,entry.2,cancelled.loadedFrom,cancelled.watchState⟩]
        loadedFrom := cancelled.loadedFrom.retain fun _ loaded => loaded.1 ≠ entry.2
        loading := cancelled.loading.erase entry.2 }
      exact ⟨run.parked.mem_iff,run.rows.mem_iff,run.fileStamps,run.suppressed,run.batch⟩
    · exact ⟨Iff.rfl,Iff.rfl,rfl,rfl,rfl⟩
  have stampsSame : cancelled.fileStamps = main.fileStamps := by rw [cancelledSame]
  refine ⟨?_,?_,?_,?_⟩
  · intro file
    by_cases here : file = entry.1
    · refine .cleared ?_ ?_ ?_
      · exact here ▸ AList.lookup_erase _ _
      · intro row member
        exact here ▸ cancels.alone row (moved.2.1.mp member)
      · intro batch active
        have active : unloaded.activeBatch = some batch := active
        rw [moved.2.2.2.2,cancelledSame] at active
        exact absurd (active.symm.trans noBatch) (by simp)
    · have cancelledStamps : StampsAt cancelled file :=
        stampsAt_cancelPathWork (sound.stamps file) sound.ids sound.one host here
      have unloadedApart : Apart cancelled unloaded file := by
        simp only [unloaded]
        split
        · exact apart_unloadPlugin calm .vanished cancels.ids still here
        · exact .refl _ _
      refine cancelledStamps.apart cancels.ids (unloadedApart.trans ?_)
      exact { Apart.refl unloaded file with
        stamp := lookup_of_erased
        watched := AList.lookup_erase_ne here }
  · intro path stamp found
    have found := lookup_of_erased found
    rw [moved.2.2.1,stampsSame] at found
    exact found
  · intro row member
    have member := moved.1.mp member
    rw [cancelledSame] at member
    exact ((@mem_parkedRows_dropped main _ _ rfl rfl _).mp member).1
  · exact moved.2.2.2.1.trans (by rw [cancelledSame])

theorem sound_sweep {s : Settings} {host : Host} (calm : host.Calm) (gone : List (Path × String)) {main : Main}
    (sound : Sound main) (vanishing : Vanishing main gone) :
    Sound (gone.foldl (Main.vanish s host) main) ∧ Fewer main (gone.foldl (Main.vanish s host) main) := by
  induction gone generalizing main with
  | nil => exact ⟨sound,id,id,rfl⟩
  | cons entry gone ih =>
    obtain ⟨nextSound,fewer⟩ := sound_vanish (s := s) sound calm vanishing
    obtain ⟨lastSound,rest⟩ := ih nextSound (vanishing_vanish vanishing host)
    exact ⟨lastSound,fun found => fewer.stamps (rest.stamps found),fun member => fewer.parked (rest.parked member),
      rest.suppressed.trans fewer.suppressed⟩

theorem calm_trySubmit (s : Settings) (main : Main) (request : Request) : Calm main (main.trySubmit s request).2 :=
  ⟨{ rearranged_overtaken s main with },(calm_overtaken s main).queued⟩

/-- A scan that reads files anew, and leaves suppressed ones alone. -/
structure Rereading (building : Main × ActiveBatch) : Prop where
  reading : Reading building
  sound : Sound building.1
  unsuppressed : ∀ {path}, path ∈ building.2.pending → path ∉ building.1.suppressed

theorem rereading_prepareFile {s : Settings} {building : Main × ActiveBatch} (rereading : Rereading building)
    {file : Path × FileStamp} (rereadable : building.1.Rereadable file) :
    Rereading (Main.prepareFile s building file) ∧ Fewer building.1 (Main.prepareFile s building file).1 := by
  have reading := reading_prepareFile (s := s) rereading.reading file
  have ids := ids_prepareFile (s := s) rereading.sound.ids file
  suffices rest : Stamps (Main.prepareFile s building file).1 ∧
      (∀ {path}, path ∈ (Main.prepareFile s building file).2.pending →
        path ∉ (Main.prepareFile s building file).1.suppressed) ∧
      Fewer building.1 (Main.prepareFile s building file).1 from
    ⟨⟨reading,⟨reading.settled.one,ids,rest.1⟩,rest.2.1⟩,rest.2.2⟩
  unfold Main.prepareFile
  extract_lets main batch revision dropped submitted
  split
  · exact ⟨rereading.sound.stamps,rereading.unsuppressed,⟨id,id,rfl⟩⟩
  next changed =>
    rw [not_or] at changed
    have parked : ∀ {row}, row ∈ dropped.parkedRows ↔ row ∈ main.parkedRows ∧ row.path ≠ file.1 :=
      mem_parkedRows_dropped rfl rfl
    have noBatch : main.activeBatch = none := rereading.reading.settled.noBatch
    have rows : ∀ {row}, row ∈ dropped.rows → row ∈ main.rows ∧ row.path ≠ file.1 := by
      intro row member
      have left : row ∈ dropped.parkedRows := by
        simpa [Main.rows,Main.batchRows,show dropped.activeBatch = none from noBatch] using member
      exact ⟨List.mem_append_right _ (parked.mp left).1,(parked.mp left).2⟩
    have droppedIds : Ids dropped :=
      rereading.sound.ids.shrink (fun _ => rfl) rfl rfl (fun _ member => (rows member).1) lookup_of_retained
    have droppedStamps : Stamps dropped := by
      intro path
      have before := rereading.sound.stamps path
      by_cases here : path = file.1
      · subst here
        refine ⟨?_,fun member same => absurd same (rows member).2,fun member => absurd member changed.1⟩
        intro stamp found
        obtain accounted | ⟨row,member,same,read⟩ := before.kept found
        · exact .inl accounted
        · obtain suppressed | unchanged | unparked := rereadable
          · exact absurd suppressed changed.1
          · exact absurd unchanged changed.2
          · exact absurd (found.trans (congrArg some read.symm)) (unparked row member same)
      · refine before.apart rereading.sound.ids { Apart.refl main path with
          parked := fun same member => parked.mpr ⟨member,fun also => here (same.symm.trans also)⟩
          rows := fun _ member => (rows member).1
          pending := ?_ }
        intro found active
        exact absurd (active.symm.trans noBatch) (by simp)
    have calm : Calm dropped submitted.2 := calm_trySubmit s dropped _
    refine ⟨stamps_calm droppedStamps droppedIds calm,?_,?_,?_,?_⟩
    · intro path pending member
      have member : path ∈ main.suppressed := by
        have member : path ∈ submitted.2.suppressed := member
        rw [calm.moved.suppressed] at member
        exact member
      simp only at pending
      split at pending
      · obtain rfl | before := (AList.mem_insert _).mp pending
        · exact changed.1 member
        · exact rereading.unsuppressed before member
      · exact rereading.unsuppressed pending member
    · intro path stamp found
      have found : submitted.2.fileStamps.lookup path = some stamp := found
      rw [calm.moved.fileStamps] at found
      exact found
    · intro row member
      exact (parked.mp (calm.moved.parked.mem_iff.mp member)).1
    · exact calm.moved.suppressed

theorem rereading_files {s : Settings} (files : List (Path × FileStamp)) {building : Main × ActiveBatch}
    (rereading : Rereading building) (rereadable : ∀ file ∈ files, building.1.Rereadable file) :
    Rereading (files.foldl (Main.prepareFile s) building) := by
  induction files generalizing building with
  | nil => exact rereading
  | cons file files ih =>
    obtain ⟨next,fewer⟩ := rereading_prepareFile (s := s) rereading (rereadable file List.mem_cons_self)
    exact ih next fun other member => fewer.rereadable (rereadable other (List.mem_cons_of_mem _ member))

/-- The files a scan goes through, with the session's own. -/
def Main.scanFiles (main : Main) (host : Host) (entries : List (Path × FileStamp)) : Table Path FileStamp :=
  scanned host (main.sessionLoads.filter fun path => (host.metadata path).isSome) entries

theorem sound_handleScan {s : Settings} {main : Main} (sound : Sound main) (noBatch : main.activeBatch = none)
    {host : Host} (calm : host.Calm) (revision : Nat) (entries : Except String (List (Path × FileStamp)))
    (rereadable : revision = main.scanRevision → ∀ found, entries = .ok found → ∀ path stamp,
      (main.scanFiles host found).lookup path = some stamp → main.Rereadable (path,stamp)) :
    Sound (main.handleScan s host revision entries) := by
  refine ⟨oneRow_handleScan ⟨sound.one,noBatch⟩ host revision entries,
    ids_handleScan sound.ids ⟨sound.one,noBatch⟩ host revision entries,?_⟩
  unfold Main.handleScan
  extract_lets landed sessions
  have landedSound : Sound landed := sound.calm (Rearranged.calm { Rearranged.refl main with } rfl rfl)
  split
  · exact landedSound.stamps
  next newest =>
  split
  · exact landedSound.stamps
  next found =>
    extract_lets current retained vanished swept files built
    have retainedSettled : Settled retained := (⟨landedSound.one,noBatch⟩ : Settled landed).of_rows rfl rfl rfl
    have retainedIds : Ids retained := landedSound.ids.of_same rfl rfl rfl rfl rfl rfl
    have retainedStamps : Stamps retained := fun file =>
      (landedSound.stamps file).apart landedSound.ids { Apart.refl landed file with stamp := lookup_of_retained }
    have retainedFewer : Fewer main retained := ⟨lookup_of_retained,id,rfl⟩
    have vanishing : Vanishing retained vanished := vanishing_listed retainedIds retainedSettled host current
    obtain ⟨sweptSound,sweptFewer⟩ := sound_sweep (s := s) calm vanished ⟨retainedSettled.one,retainedIds,retainedStamps⟩
      vanishing
    have start : Rereading (swept,{}) :=
      ⟨⟨settled_sweep host vanished retainedSettled,by simp,rfl⟩,sweptSound,by simp⟩
    have finished : Rereading built := by
      apply rereading_files files start
      intro file member
      obtain ⟨path,_,listed⟩ := List.mem_filterMap.mp member
      obtain ⟨stamp,here,rfl⟩ := Option.map_eq_some_iff.mp listed
      have first : main.Rereadable (path,stamp) := by
        apply rereadable (by simpa using newest) found rfl
        exact here
      exact sweptFewer.rereadable (retainedFewer.rereadable first)
    split
    · exact finished.sound.stamps
    · intro path
      have before := finished.sound.stamps path
      have noRows : ∀ {row}, row ∈ Main.rows { built.1 with activeBatch := some built.2 } → row ∈ built.1.rows := by
        intro row member
        simpa [Main.rows,Main.batchRows,finished.reading.settled.noBatch,finished.reading.empty,Main.parkedRows]
          using member
      refine ⟨fun found => before.kept found,fun member => before.backed (noRows member),?_⟩
      intro member
      obtain ⟨unstamped,alone,_⟩ := before.suppressed member
      refine ⟨unstamped,fun row there => alone row (noRows there),?_⟩
      intro batch active pending
      obtain rfl := Option.some.inj active
      exact finished.unsuppressed pending member

/-! ### Applying -/

/-- The row that applying this candidate would park takes no other row's place. -/
def parksAlone (host : Host) (main : Main) (item : ApplyItem) : Bool :=
  let manifest := item.row.prepared.manifest
  let parks := gate host manifest && !main.duplicateManifestId item.row.path manifest.id &&
    verifyCompiledAgainst manifest (fun _ => none) host.publishedTypes &&
    !manifest.pluginDependencies.all host.published && !item.allowUnmetDependencies
  !parks || (main.waiting.lookup manifest.id).isNone

/-- Commits for one file are nothing to the others. -/
theorem apart_commitPath (main : Main) {path file : Path} (apart : file ≠ path) (stamp : FileStamp) (id : String) :
    Apart main (main.commitPath path stamp id) file :=
  { Apart.refl main file with
    stamp := fun found => (AList.lookup_insert_ne apart).symm.trans found
    watched := AList.lookup_insert_ne apart }

theorem apart_queuePendingReload (main : Main) (id : String) (file : Path) :
    Apart main (main.queuePendingReload id) file := by
  unfold Main.queuePendingReload
  split
  · refine { Apart.refl main file with queued := ?_ }
    intro name _ reload
    refine reload.imp_left ?_
    intro flag
    simp only [Table.lookup_insert_eq]
    split
    · rfl
    · exact flag
  · exact .refl main file

/-- A file whose only candidate was answered. -/
theorem StampsAt.answered {main : Main} {path : Path} {stamp : FileStamp} (alone : ∀ row ∈ main.rows, row.path ≠ path)
    (unsuppressed : path ∉ main.suppressed) (stamped : main.fileStamps.lookup path = some stamp)
    (accounted : main.Accounted path stamp) : StampsAt main path where
  kept := by
    intro other found
    obtain rfl := Option.some.inj (stamped.symm.trans found)
    exact .inl accounted
  backed := fun member same => absurd same (alone _ member)
  suppressed := fun member => absurd member unsuppressed

/-- Beginning a load under a free id is nothing to the other files. -/
theorem apart_beginLoad {s : Settings} {host : Host} (calm : host.Calm) {main : Main} (ids : Ids main)
    {row : PreparedLoad} (free : main.Free row.path row.prepared.manifest.id) {file : Path} (apart : file ≠ row.path) :
    Apart main (main.beginLoad s host row) file := by
  unfold Main.beginLoad
  extract_lets id started ran
  have named : ∀ {name}, main.watchState.lookup file = some name → name ≠ id := by
    rintro name found rfl
    exact apart (free file found)
  have begun : Apart main started file :=
    { Apart.refl main file with
      loaded := by
        rintro ⟨name,stamp⟩ found
        refine (AList.lookup_insert_ne apart).trans ?_
        rw [Table.lookup_retain,found,Option.filter_some]
        simp [named (ids.loaded found)]
      queued := by
        intro name found queued
        refine queued.imp_left ?_
        intro flying
        simp only [started]
        split
        · exact (AList.lookup_insert_ne (named found)).trans flying
        · exact flying }
  exact (begun.trans ((calm_callbacks s (calm.loading id) started).apart file)).trans
    (apart_commitPath ran apart row.prepared.stamp id)

theorem beginLoad_loaded (s : Settings) (host : Host) (main : Main) (row : PreparedLoad) :
    (main.beginLoad s host row).fileStamps.lookup row.path = some row.prepared.stamp ∧
    (main.beginLoad s host row).Answered row.path row.prepared.stamp := by
  unfold Main.beginLoad
  extract_lets id started ran
  refine ⟨AList.lookup_insert _,.inr ⟨id,?_⟩⟩
  have same : ran.loadedFrom = started.loadedFrom := (rearranged_callbacks s _ started).loadedFrom
  exact (congrArg (·.lookup row.path) same).trans (AList.lookup_insert _)

theorem beginLoad_rows (s : Settings) (host : Host) (main : Main) (row : PreparedLoad) {other : PreparedLoad}
    (member : other ∈ (main.beginLoad s host row).rows) : other ∈ main.rows := by
  unfold Main.beginLoad at member
  extract_lets id started ran at member
  exact (rearranged_callbacks s _ started).rows.mem_iff.mp member

theorem beginLoad_suppressed (s : Settings) (host : Host) (main : Main) (row : PreparedLoad) :
    (main.beginLoad s host row).suppressed = main.suppressed := by
  unfold Main.beginLoad
  exact (rearranged_callbacks s _ _).suppressed

/-- What applying a candidate leaves of its own file. -/
structure Settles (main : Main) (path : Path) : Prop where
  alone : ∀ row ∈ main.rows, row.path ≠ path
  unsuppressed : path ∉ main.suppressed

/-- Parking a candidate over no other row keeps it for its file. -/
theorem stamps_park {main : Main} {row : PreparedLoad} {frame : Nat} (settles : Settles main row.path)
    (vacant : main.waiting.lookup row.prepared.manifest.id = none) (id : String)
    (backed : ∀ {stamp}, row.baselineStamp = some stamp → main.Backed row stamp) :
    let parked := { main.commitPath row.path row.prepared.stamp id with
      waiting := main.waiting.insert row.prepared.manifest.id ⟨row,frame⟩ }
    StampsAt parked row.path ∧ ∀ {file}, file ≠ row.path → Apart main parked file := by
  intro parked
  have parkedRows : ∀ {other}, other ∈ parked.parkedRows ↔ other ∈ main.parkedRows ∨ other = row := by
    intro other
    have erased : main.waiting.erase row.prepared.manifest.id = main.waiting :=
      Table.erase_of_absent (AList.lookup_eq_none.mp vacant)
    simp only [parked,Main.parkedRows,Main.commitPath,Table.values_insert,erased,List.map_cons,List.mem_append,
      List.mem_cons]
    tauto
  have rows : ∀ {other}, other ∈ parked.rows → other ∈ main.rows ∨ other = row := by
    intro other member
    obtain batch | left := List.mem_append.mp member
    · exact .inl (List.mem_append_left _ batch)
    · exact (parkedRows.mp left).imp_left (List.mem_append_right _)
  refine ⟨⟨?_,?_,fun member => absurd member settles.unsuppressed⟩,?_⟩
  · intro stamp found
    have own : (main.fileStamps.insert row.path row.prepared.stamp).lookup row.path = some row.prepared.stamp :=
      AList.lookup_insert _
    obtain rfl := Option.some.inj (own.symm.trans found)
    exact .inr ⟨row,parkedRows.mpr (.inr rfl),rfl,rfl⟩
  · intro other stamp member same baseline
    obtain old | rfl := rows member
    · exact absurd same (settles.alone other old)
    · exact backed baseline
  · intro file apart
    exact { apart_commitPath main apart row.prepared.stamp id with
      parked := fun _ member => parkedRows.mpr (.inl member)
      rows := fun same member => (rows member).resolve_right fun here => apart (here ▸ same.symm) }

theorem stamps_applyReady {s : Settings} {main : Main} (sound : Sound main) {host : Host} (calm : host.Calm)
    (alone : ∀ item ready, main.readyApply = item :: ready → parksAlone host main item = true) :
    Stamps (main.applyReady s host) := by
  unfold Main.applyReady
  split
  · exact sound.stamps
  next item ready queued =>
    obtain ⟨rows,single⟩ := popped_applyReady sound.one queued
    have vacates := alone item ready queued
    have among : item.row ∈ main.rows := mem_rows_of_ready (queued ▸ List.mem_cons_self)
    have unsuppressed : item.row.path ∉ main.suppressed := fun member =>
      ((sound.stamps _).suppressed member).2.1 _ among rfl
    have settles : Settles { main with readyApply := ready } item.row.path := ⟨single,unsuppressed⟩
    have poppedIds : Ids { main with readyApply := ready } := by
      refine sound.ids.shrink (fun _ => rfl) rfl rfl ?_ id
      exact fun row member => rows.subset (List.mem_cons_of_mem _ member)
    have before := sound.ids.candidates item.row among
    have backed : ∀ {stamp}, item.row.baselineStamp = some stamp →
        Main.Backed { main with readyApply := ready } item.row stamp := fun baseline =>
      (sound.stamps _).backed among rfl baseline
    -- the other files lose nothing with the popped candidate
    have others : ∀ {file}, file ≠ item.row.path → StampsAt { main with readyApply := ready } file := by
      intro file apart
      refine (sound.stamps file).apart sound.ids { Apart.refl main file with parked := ?_, rows := ?_ }
      · intro row same member
        obtain inReady | waits := List.mem_append.mp member
        · rw [queued,List.map_cons,List.mem_cons] at inReady
          refine List.mem_append_left _ (inReady.resolve_left ?_)
          rintro rfl
          exact apart same.symm
        · exact List.mem_append_right _ waits
      · exact fun _ member => rows.subset (List.mem_cons_of_mem _ member)
    have outcome := Main.applied s host { main with readyApply := ready } item
    generalize Main.applyPrepared s host { main with readyApply := ready } item = after at outcome
    intro file
    by_cases here : file = item.row.path
    · subst here
      have stamped : ∀ {table : Table Path FileStamp} {stamp}, (table.insert item.row.path stamp).lookup item.row.path =
          some stamp := AList.lookup_insert _
      have warned : ∀ {stamp}, (item.row.path,stamp) ∈ main.refused ++ [(item.row.path,stamp)] :=
        List.mem_append_right _ (List.mem_singleton_self _)
      cases outcome with
      | ungated => exact .answered single unsuppressed stamped (.inl (.inl warned))
      | duplicate => exact .answered single unsuppressed stamped (.inl (.inl warned))
      | refused => exact .answered single unsuppressed stamped (.inl (.inl warned))
      | parked gated free compiled unmet strict frame =>
        have free : main.duplicateManifestId item.row.path item.row.prepared.manifest.id = false := free
        have vacant : main.waiting.lookup item.row.prepared.manifest.id = none := by
          simpa [parksAlone,gated,free,compiled,unmet,strict] using vacates
        exact (stamps_park settles vacant _ backed).1
      | behind old running flying =>
        have flying : old ∈ main.loading := flying
        unfold Main.queuePendingReload
        rw [if_pos flying]
        refine .answered single unsuppressed stamped (.inr ⟨old,?_,.inl ?_⟩)
        · exact AList.lookup_insert _
        · exact AList.lookup_insert _
      | deferred =>
        unfold Main.deferPrepared
        split
        next stamp baseline =>
          refine .answered single unsuppressed stamped ?_
          obtain answered | ⟨old,running,queued⟩ := backed baseline
          · exact .inl answered
          · refine .inr ⟨old,?_,queued⟩
            exact (AList.lookup_insert _).trans (by simp [running])
        · exact .cleared (AList.lookup_erase _ _) single fun active =>
            sound.one.unread active |> fun unread pending =>
              unread pending item.row (by simp [Main.parkedRows,queued]) rfl
      | loaded _ _ replaced _ retired =>
        obtain ⟨stamped,answered⟩ := beginLoad_loaded s host replaced item.row
        have kept : replaced.suppressed = main.suppressed ∧ ∀ row ∈ replaced.rows, row.path ≠ item.row.path := by
          obtain ⟨_,rfl⟩ | ⟨old,_,rfl⟩ := retired
          · exact ⟨rfl,single⟩
          · refine ⟨(rearranged_callbacks s _ _).suppressed,?_⟩
            intro row member
            exact single row ((unloadPlugin_rows s host .replaced _ item.row.path old).mem_iff.mp member)
        refine .answered ?_ ?_ stamped (.inl answered)
        · exact fun row member => kept.2 row (beginLoad_rows s host replaced item.row member)
        · rw [beginLoad_suppressed,kept.1]
          exact unsuppressed
    · refine (others here).apart poppedIds ?_
      cases outcome with
      | ungated => exact apart_refusePrepared _ here _ _
      | duplicate _ _ watched kept =>
        refine { Apart.refl _ file with stamp := ?_, watched := ?_, refused := List.mem_append_left _ }
        · exact fun found => (AList.lookup_insert_ne here).symm.trans found
        · obtain rfl | ⟨old,_,_,rfl⟩ := kept
          · rfl
          · exact AList.lookup_insert_ne here
      | refused => exact apart_refusePrepared _ here _ _
      | parked gated free compiled unmet strict frame =>
        have free : main.duplicateManifestId item.row.path item.row.prepared.manifest.id = false := free
        have vacant : main.waiting.lookup item.row.prepared.manifest.id = none := by
          simpa [parksAlone,gated,free,compiled,unmet,strict] using vacates
        exact (stamps_park settles vacant _ backed).2 here
      | behind old running flying =>
        exact (apart_queuePendingReload _ old file).trans (apart_commitPath _ here _ _)
      | deferred =>
        unfold Main.deferPrepared
        split
        · exact apart_commitPath _ here _ _
        · refine { Apart.refl _ file with stamp := lookup_of_erased, watched := ?_ }
          split
          · exact AList.lookup_erase_ne here
          · rfl
      | loaded _ free replaced _ retired =>
        have free := free_of_unique free
        obtain ⟨_,rfl⟩ | ⟨old,running,rfl⟩ := retired
        · exact apart_beginLoad calm poppedIds free here
        · have watched := before.replaces running
          have unloaded := poppedIds.unloadPlugin (s := s) host .replaced watched
          refine (apart_unloadPlugin calm .replaced poppedIds watched here).trans (apart_beginLoad calm unloaded ?_ here)
          intro other found
          rw [unloadPlugin_watch] at found
          exact free other found

/-! ### Commands and settled loads -/

namespace Main

def answered (main : Main) (path : Path) (stamp : FileStamp) : Bool :=
  decide ((path,stamp) ∈ main.refused) || (main.loadedFrom.lookup path).any (·.2 == stamp)

/-- Only the queued reload of this plugin accounts for its file's stamp, or for one
that a candidate of the file would bring back. -/
def reliesOnReload (main : Main) (id : String) : Bool :=
  main.watchState.entries.any fun entry => entry.2 == id &&
    ((main.fileStamps.lookup entry.1).any (fun stamp => !main.answered entry.1 stamp &&
        !main.parkedRows.any fun row => row.path == entry.1 && row.prepared.stamp == stamp) ||
      main.rows.any fun row => row.path == entry.1 && row.baselineStamp.any fun stamp => !main.answered entry.1 stamp)

/-- The table of intents has room for one more on this plugin. -/
def admitsIntent (s : Settings) (main : Main) (id : String) : Bool :=
  let oldBytes := if id ∈ main.pendingOps then intentBytes id else 0
  let usedBytes := main.pendingOps.weight fun key _ => intentBytes key
  let grown := saturatingAdd (saturatingAdd (usedBytes - oldBytes) id.utf8ByteSize) 32
  !(decide (id ∉ main.pendingOps ∧ s.policy.requestItems ≤ main.pendingOps.size) || decide (s.policy.requestBytes < grown))

end Main

/-- The request discards no queued reload that a stamp relies on. -/
def Callback.keepsReload (s : Settings) (main : Main) : Callback → Bool
  | .settle id => !(main.loading.lookup id == some true && main.reliesOnReload id) || main.admitsIntent s id
  | .requestUnload id | .requestLoad id _ => !(main.pendingOps.lookup id == some .reload && main.reliesOnReload id)
  | _ => true

theorem answered_iff (main : Main) (path : Path) (stamp : FileStamp) :
    main.answered path stamp = true ↔ main.Answered path stamp := by
  simp only [Main.answered,Main.Answered,Bool.or_eq_true,decide_eq_true_eq,Option.any_eq_true_iff_get,beq_iff_eq]
  refine or_congr_right ?_
  constructor
  · rintro ⟨here,same⟩
    refine ⟨((main.loadedFrom.lookup path).get here).1,?_⟩
    rw [← same]
    exact (Option.some_get here).symm
  · rintro ⟨id,found⟩
    simp [found]

/-- A plugin whose queued reload no stamp relies on. -/
theorem reliesOnReload_false {main : Main} {id : String} (unrelied : main.reliesOnReload id = false) {path : Path}
    (watched : main.watchState.lookup path = some id) :
    (∀ {stamp}, main.fileStamps.lookup path = some stamp → main.Answered path stamp ∨
      ∃ row ∈ main.parkedRows, row.path = path ∧ row.prepared.stamp = stamp) ∧
    ∀ {row stamp}, row ∈ main.rows → row.path = path → row.baselineStamp = some stamp → main.Answered path stamp := by
  have here := List.any_eq_false.mp unrelied _ ((Table.lookup_iff_entry _ _ _).mp watched)
  simp only [beq_self_eq_true,Bool.true_and,Bool.or_eq_true,not_or,Bool.not_eq_true] at here
  refine ⟨?_,?_⟩
  · intro stamp found
    have settled := here.1
    rw [found,Option.any_some,Bool.and_eq_false_iff,Bool.not_eq_false',Bool.not_eq_false',answered_iff] at settled
    refine settled.imp_right ?_
    intro parked
    obtain ⟨row,member,same⟩ := List.any_eq_true.mp parked
    simp only [Bool.and_eq_true,beq_iff_eq] at same
    exact ⟨row,member,same⟩
  · intro row stamp member same baseline
    have settled := List.any_eq_false.mp here.2 row member
    simpa [same,baseline,answered_iff] using settled

/-- Discarding a queued reload that no stamp relies on. -/
theorem stamps_unqueue {main after : Main} (sound : Sound main) (moved : Rearranged main after) {id : String}
    (others : ∀ {name}, name ≠ id → main.ReloadQueued name → after.ReloadQueued name)
    (relied : main.ReloadQueued id → after.ReloadQueued id ∨ main.reliesOnReload id = false) : Stamps after := by
  by_cases kept : main.ReloadQueued id → after.ReloadQueued id
  · refine stamps_calm sound.stamps sound.ids ⟨moved,?_⟩
    intro name queued
    by_cases same : name = id
    · exact same ▸ kept (same ▸ queued)
    · exact others same queued
  · obtain ⟨queued,lost⟩ := Classical.not_imp.mp kept
    have unrelied := (relied queued).resolve_left lost
    intro file
    by_cases watched : main.watchState.lookup file = some id
    · obtain ⟨stamped,baselines⟩ := reliesOnReload_false unrelied watched
      have answers : ∀ {stamp}, main.Answered file stamp → after.Answered file stamp := by
        intro stamp answered
        unfold Main.Answered
        rw [moved.refused,moved.loadedFrom]
        exact answered
      refine ⟨?_,?_,?_⟩
      · intro stamp found
        rw [moved.fileStamps] at found
        obtain answered | ⟨row,member,same⟩ := stamped found
        · exact .inl (.inl (answers answered))
        · exact .inr ⟨row,moved.parked.mem_iff.mpr member,same⟩
      · intro row stamp member same baseline
        exact .inl (same ▸ answers (baselines (moved.rows.mem_iff.mp member) same baseline))
      · intro member
        rw [moved.suppressed] at member
        obtain ⟨unstamped,alone,unread⟩ := (sound.stamps file).suppressed member
        rw [moved.fileStamps,moved.batch]
        exact ⟨unstamped,fun row there => alone row (moved.rows.mem_iff.mp there),unread⟩
    · refine (sound.stamps file).apart sound.ids (moved.apart ?_)
      intro name found
      apply others
      rintro rfl
      exact watched found

theorem enqueueIntent_others (s : Settings) (main : Main) (id : String) (op : PendingOp) {name : String}
    (apart : name ≠ id) (queued : main.ReloadQueued name) : (main.enqueueIntent s id op).ReloadQueued name := by
  unfold Main.enqueueIntent
  extract_lets oldBytes usedBytes grown
  split
  · exact queued
  split
  · exact queued
  · exact queued.imp_right fun intent => (AList.lookup_insert_ne apart).trans intent

theorem enqueueIntent_loading (s : Settings) (main : Main) (id : String) (op : PendingOp) :
    (main.enqueueIntent s id op).loading = main.loading := by
  unfold Main.enqueueIntent
  extract_lets oldBytes usedBytes grown
  split
  · rfl
  split <;> rfl

theorem enqueueIntent_admitted {s : Settings} {main : Main} {id : String} (admits : main.admitsIntent s id = true)
    (op : PendingOp) : (main.enqueueIntent s id op).pendingOps.lookup id = some op := by
  simp only [Main.admitsIntent,Bool.not_eq_true',Bool.or_eq_false_iff,decide_eq_false_iff_not] at admits
  simp only [Main.enqueueIntent]
  rw [if_neg admits.1,if_neg admits.2]
  exact AList.lookup_insert _

/-- An intent that replaces a queued reload no stamp relies on. -/
theorem stamps_enqueueIntent {s : Settings} {main : Main} (sound : Sound main) (id : String) (op : PendingOp)
    (keeps : (main.pendingOps.lookup id == some .reload && main.reliesOnReload id) = false) :
    Stamps (main.enqueueIntent s id op) := by
  apply stamps_unqueue sound (rearranged_enqueueIntent s main id op) (enqueueIntent_others s main id op)
  rintro (flag | intent)
  · exact .inl (.inl ((congrArg (·.lookup id) (enqueueIntent_loading s main id op)).trans flag))
  · exact .inr (by simpa [intent] using keeps)

theorem stamps_settle {s : Settings} {main : Main} (sound : Sound main) {id : String}
    (keeps : (Callback.settle id).keepsReload s main = true) : Stamps (main.settle s id) := by
  have moved : Rearranged main (main.settle s id) := rearranged_callback s main (.settle id)
  unfold Main.settle at moved ⊢
  split
  · exact sound.stamps
  next pendingReload flying =>
    rw [flying] at moved
    simp only at moved ⊢
    have later : ∀ {name}, name ≠ id → main.ReloadQueued name →
        Main.ReloadQueued { main with loading := main.loading.erase id } name := by
      intro name apart queued
      exact queued.imp_left fun flag => (AList.lookup_erase_ne apart).trans flag
    cases pendingReload with
    | false =>
      refine stamps_unqueue sound moved later ?_
      rintro (flag | intent)
      · exact absurd (flying.symm.trans flag) (by simp)
      · exact .inl (.inr intent)
    | true =>
      refine stamps_unqueue sound moved
        (fun apart queued => (calm_requestReload s _ id).queued (later apart queued)) ?_
      intro queued
      cases relied : main.reliesOnReload id with
      | false => exact .inr rfl
      | true =>
        refine .inl (.inr ?_)
        -- the file that relies on the reload is watched, so the reload is requested
        have admits : main.admitsIntent s id = true := by
          simpa [Callback.keepsReload,flying,relied] using keeps
        have known : (Main.pathOfLoaded [] { main with loading := main.loading.erase id } id).isSome = true := by
          by_contra unknown
          obtain ⟨entry,member,facts⟩ := List.any_eq_true.mp relied
          rw [Bool.not_eq_true,Option.isSome_eq_false_iff,Option.isNone_iff_eq_none] at unknown
          apply pathOfLoaded_none unknown entry.1
          have same : entry.2 = id := by simpa using (Bool.and_eq_true_iff.mp facts).1
          exact (Table.lookup_iff_entry _ _ _).mpr (same ▸ member)
        simp only [Main.requestReload,known,Bool.true_or,if_true]
        have admits : Main.admitsIntent s { main with loading := main.loading.erase id } id = true := admits
        exact enqueueIntent_admitted admits .reload

theorem stamps_callback {s : Settings} {main : Main} (sound : Sound main) {callback : Callback}
    (keeps : callback.keepsReload s main = true) : Stamps (callback.run s main) := by
  cases callback with
  | settle id => exact stamps_settle sound keeps
  | requestUnload id =>
    simp only [Callback.run,Main.requestUnload]
    split
    · exact stamps_enqueueIntent sound id .unload (by simpa only [Callback.keepsReload,Bool.not_eq_true'] using keeps)
    · exact sound.stamps
  | requestLoad id found =>
    simp only [Callback.run,Main.requestLoad]
    split
    · exact stamps_enqueueIntent sound id .load (by simpa only [Callback.keepsReload,Bool.not_eq_true'] using keeps)
    split
    · exact sound.stamps
    split
    · exact sound.stamps
    · exact stamps_calm sound.stamps sound.ids (Rearranged.calm { Rearranged.refl main with } rfl rfl)
  | watchConfigFor id resolved => exact stamps_calm sound.stamps sound.ids (calm_callback s main rfl)
  | unwatchConfigFor id => exact stamps_calm sound.stamps sound.ids (calm_callback s main rfl)
  | startUnblockedWaiters visit published frame =>
    exact stamps_calm sound.stamps sound.ids (calm_callback s main rfl)
  | requestReload id => exact stamps_calm sound.stamps sound.ids (calm_callback s main rfl)

/-! ### Whole runs -/

instance (main : Main) (file : Path × FileStamp) : Decidable (main.Rereadable file) :=
  inferInstanceAs (Decidable (_ ∨ _ ∨ _))

/-- The step drops no row whose stamp stays committed, and no queued reload that a
stamp relies on: a scan rereads no file whose parked candidate is at the stamp
committed, a candidate parks in nobody's place, and an unload finds under its id
no candidate parked for another file. -/
def Event.keepsStamps (s : Settings) (main : Main) : Event → Bool
  | .callback request turns => request.keepsReload s { main with turns := turns }
  | .drainIntent id _ =>
    !(main.pendingOps.lookup id == some .unload) ||
      (main.waiting.lookup id).all fun load => main.watchState.lookup load.row.path == some id
  | .popResult host =>
    match (Main.tryResult s { main with turns := host.turns }).1 with
    | some (.scan epoch revision (.ok entries)) =>
      !(epoch == s.epoch && revision == main.scanRevision) ||
        (main.scanFiles host entries).entries.all fun file => decide (main.Rereadable (file.1,file.2))
    | _ => true
  | .applyReady host =>
    match main.readyApply with
    | item :: _ => parksAlone host main item
    | [] => true
  | _ => true

/-- Every step of the run keeps stamps and is unclaimed in the state it is taken from. -/
def keepsRun (s : Settings) : List Event → Main → Bool
  | [], _ => true
  | event :: events, main =>
    event.unclaimed s main && event.keepsStamps s main && keepsRun s events (main.advance s event)

/-- What the host runs of its own during the step discards no queued reload. -/
def Event.Calm : Event → Prop
  | .drainIntent _ host | .popResult host | .applyReady host => host.Calm
  | _ => True

theorem tryResult_frame (s : Settings) (main : Main) :
    ∃ sys turns, (main.tryResult s).2 = { main with sys := sys, turns := turns } := by
  unfold Main.tryResult Main.overtaken
  cases main.turns <;> exact ⟨_,_,rfl⟩

theorem calm_tryResult (s : Settings) (main : Main) : Calm main (main.tryResult s).2 :=
  ⟨rearranged_tryResult s main,(calm_overtaken s main).queued⟩

theorem stamps_popResult {s : Settings} (sized : s.policy.Sized) {main : Main} (orderly : Orderly s main)
    (sound : Sound main) {host : Host} (calm : host.Calm)
    (safe : ∀ revision path prepared, (main.tryResult s).1 = some (.plugin s.epoch revision path (.ok prepared)) →
      main.activeBatch.bind (·.pending.lookup path) = some revision → main.watchState.lookup path = none →
      refusedUnchecked host prepared = true → main.duplicateManifestId path prepared.manifest.id = false)
    (rereadable : ∀ entries, (main.tryResult s).1 = some (.scan s.epoch main.scanRevision (.ok entries)) →
      ∀ path stamp, (main.scanFiles host entries).lookup path = some stamp → main.Rereadable (path,stamp)) :
    Stamps (main.popResult s host) := by
  have popped := calm_tryResult s main
  have after : Sound (main.tryResult s).2 := sound.calm popped
  unfold Main.popResult
  extract_lets result
  split
  · exact after.stamps
  next epoch revision entries scanned =>
    split
    next sameEpoch =>
      subst sameEpoch
      obtain ⟨sys,turns,frame⟩ := tryResult_frame s main
      have noBatch := noBatch_of_scanned sized orderly.owed scanned
      refine (sound_handleScan after (popped.moved.batch.trans noBatch) calm revision entries ?_).stamps
      rintro newest found rfl path stamp listed
      rw [frame] at newest listed ⊢
      subst newest
      exact rereadable found scanned path stamp listed
    · exact after.stamps
  next epoch revision path prepared answered =>
    split
    next sameEpoch =>
      subst sameEpoch
      apply stamps_handlePlugin after.stamps after.ids after.one
      rintro archive rfl expected unwatched refused
      rw [popped.moved.batch] at expected
      rw [popped.moved.watchState] at unwatched
      have free := safe revision path archive answered expected unwatched refused
      unfold Main.duplicateManifestId at free ⊢
      rw [popped.moved.watchState]
      exact free
    · exact after.stamps
  next epoch revision path watchGeneration snapshot _ =>
    split
    · exact (sound_handleConfig after calm path revision watchGeneration snapshot).stamps
    split
    · split
      · exact (after.calm (calm_resolveConfigWatch s _ _ _ _ _)).stamps
      · exact after.stamps
    · exact after.stamps

theorem calm_queueWatched (s : Settings) (watched : List (String × Path × Nat)) (main : Main) :
    Calm main (watched.foldl (fun main (id,path,generation) =>
      (main.queueConfig s path (.watch id generation)).2) main) := by
  induction watched generalizing main with
  | nil => exact .refl main
  | cons watch watched ih => exact (calm_queueConfig s main _ _).trans (ih _)

theorem calm_scheduleScan (s : Settings) (host : Host) (main : Main) : Calm main (main.scheduleScan s host) := by
  unfold Main.scheduleScan
  split
  · exact .refl main
  · extract_lets watched queued revision submitted
    have first : Calm main queued := calm_queueWatched s watched main
    have revised : Calm queued { queued with scanRevision := revision } :=
      Rearranged.calm { Rearranged.refl queued with } rfl rfl
    have second : Calm { queued with scanRevision := revision } submitted.2 := calm_trySubmit s _ _
    have third : Calm main submitted.2 := first.trans (revised.trans second)
    split
    · exact third.trans (Rearranged.calm { Rearranged.refl submitted.2 with } rfl rfl)
    · exact third

theorem sound_advance {s : Settings} (sized : s.policy.Sized) {main : Main} (orderly : Orderly s main)
    (sound : Sound main) {event : Event} (calm : event.Calm) (unclaimed : event.unclaimed s main = true)
    (keeps : event.keepsStamps s main = true) : Sound (main.advance s event) := by
  refine ⟨(orderly_advance sized orderly event).one,ids_advance sized orderly sound.ids unclaimed,?_⟩
  have ready : ∀ turns, Orderly s { main with turns := turns } := fun _ =>
    ⟨orderly.owed.of_traffic rfl,orderly.one.of_rows rfl rfl rfl⟩
  have readySound : ∀ turns, Sound { main with turns := turns } := fun _ =>
    sound.calm (Rearranged.calm { Rearranged.refl main with } rfl rfl)
  cases event with
  | turn turn =>
    have moved : Calm main { main with sys := main.sys.advance s.policy turn.event } :=
      Rearranged.calm { Rearranged.refl main with } rfl rfl
    exact (sound.calm moved).stamps
  | callback callback turns => exact stamps_callback (readySound turns) keeps
  | drainIntent id host =>
    apply stamps_drainIntent (readySound host.turns).stamps (readySound host.turns).ids (readySound host.turns).one calm
    intro unload load waits
    have unload : main.pendingOps.lookup id = some .unload := unload
    have waits : main.waiting.lookup id = some load := waits
    simpa [Event.keepsStamps,unload,waits] using keeps
  | popResult host =>
    apply stamps_popResult sized (ready host.turns) (readySound host.turns) calm
    · intro revision path prepared answered expected unwatched refused
      apply Event.free_of_unclaimed unclaimed
      simp [Event.refusesFirst,answered,expected,unwatched,refused]
    · intro entries scanned path stamp listed
      have scanned : (Main.tryResult s { main with turns := host.turns }).1 =
          some (.scan s.epoch main.scanRevision (.ok entries)) := scanned
      have all : ((main.scanFiles host entries).entries.all fun file => decide (main.Rereadable (file.1,file.2))) = true := by
        simpa [Event.keepsStamps,scanned] using keeps
      have here := List.all_eq_true.mp all _ ((Table.lookup_iff_entry _ _ _).mp listed)
      have rereadable : main.Rereadable (path,stamp) := of_decide_eq_true here
      exact rereadable
  | applyReady host =>
    apply stamps_applyReady (readySound host.turns) calm
    intro item later queued
    have queued : main.readyApply = item :: later := queued
    have alone : parksAlone host main item = true := by simpa only [Event.keepsStamps,queued] using keeps
    exact alone
  | scheduleScan host => exact ((readySound host.turns).calm (calm_scheduleScan s host _)).stamps

theorem sound_start : Sound {} := by
  refine ⟨(orderly_start ⟨{},0,[],List.length⟩).one,ids_start,?_⟩
  intro path
  exact .cleared rfl (by simp [Main.rows,Main.batchRows,Main.parkedRows]) (by simp)

theorem sound_execute {s : Settings} (sized : s.policy.Sized) (events : List Event) {main : Main}
    (orderly : Orderly s main) (sound : Sound main) (calm : ∀ event ∈ events, event.Calm)
    (keeps : keepsRun s events main = true) : Sound (Main.execute s events main) := by
  induction events generalizing main with
  | nil => exact sound
  | cons event events ih =>
    obtain ⟨now,later⟩ := Bool.and_eq_true_iff.mp keeps
    obtain ⟨unclaimed,kept⟩ := Bool.and_eq_true_iff.mp now
    apply ih (orderly_advance sized orderly event)
    · exact sound_advance sized orderly sound (calm event List.mem_cons_self) unclaimed kept
    · exact fun other member => calm other (List.mem_cons_of_mem _ member)
    · exact later

/-- A remembered stamp's candidate is loaded, refused, parked or about to be read
again, and no file has two candidates. -/
structure NeverDropped (main : Main) : Prop where
  kept : ∀ path stamp, main.fileStamps.lookup path = some stamp → path ∉ main.suppressed → main.Kept path stamp
  once : (main.rows.map PreparedLoad.path).Nodup

/-- In every run whose steps keep stamps, no changed file is dropped, in every
state reached. -/
theorem changed_file_never_dropped (s : Settings) (valid : s.policy.validate = .ok ()) (events : List Event)
    (calm : ∀ event ∈ events, event.Calm) (keeps : keepsRun s events {} = true) :
    NeverDropped (Main.execute s events {}) := by
  have sound := sound_execute (LoaderPolicy.sized valid) events (orderly_start s) sound_start calm keeps
  exact ⟨fun path _ found _ => (sound.stamps path).kept found,sound.one.once⟩

/-! ### A parked candidate replaced by another -/

/-- An archive that depends on an interface nobody publishes. -/
def waitingArchive (id : String) (written : Nat) : PreparedPlugin where
  manifest := ⟨id,"3",["missing"],[],[],[],[]⟩
  stamp := ⟨written,written,written,written,written,written⟩
  residentBytes := 1

/-- A plugin loads, and its file then changes its id and waits for a dependency. -/
def fileWaits : List Event :=
  Archives.poll [goodArchive] ++ Archives.poll [([97],waitingArchive "y" 2)]

/-- Another file with the new id waits as well. -/
def anotherWaits : List Event :=
  fileWaits ++ Archives.poll [([97],waitingArchive "y" 2),([98],waitingArchive "y" 3)]

/-- The second file's candidate takes the first one's place: the first file's
change is forgotten, though its stamp is remembered. -/
theorem parked_candidate_replaced :
    plainSettings.policy.validate = .ok () ∧ ¬NeverDropped (Main.execute plainSettings anotherWaits {}) := by
  refine ⟨plainSettings_valid,?_⟩
  intro never
  have facts : (Main.execute plainSettings anotherWaits {}).fileStamps.lookup [97] = some (waitingArchive "y" 2).stamp ∧
      [97] ∉ (Main.execute plainSettings anotherWaits {}).suppressed ∧
      (Main.execute plainSettings anotherWaits {}).refused = [] ∧
      (Main.execute plainSettings anotherWaits {}).loadedFrom.lookup [97] = some ("x",goodArchive.2.stamp) ∧
      (Main.execute plainSettings anotherWaits {}).watchState.lookup [97] = some "x" ∧
      (Main.execute plainSettings anotherWaits {}).loading.lookup "x" = none ∧
      (Main.execute plainSettings anotherWaits {}).pendingOps.lookup "x" = none ∧
      (Main.execute plainSettings anotherWaits {}).parkedRows.map PreparedLoad.path = [[98]] := by
    decide +kernel
  obtain ⟨stamped,unsuppressed,unrefused,loaded,watched,settled,unasked,parked⟩ := facts
  obtain ((refused | ⟨id,here⟩) | ⟨id,here,queued⟩) | ⟨row,member,same,_⟩ := never.kept [97] _ stamped unsuppressed
  · simp [unrefused] at refused
  · have stamps : goodArchive.2.stamp = (waitingArchive "y" 2).stamp :=
      congrArg Prod.snd (Option.some.inj (loaded.symm.trans here))
    exact absurd stamps (by decide)
  · obtain rfl := Option.some.inj (watched.symm.trans here)
    simp [Main.ReloadQueued,settled,unasked] at queued
  · have listed := List.mem_map_of_mem (f := PreparedLoad.path) member
    rw [parked,same] at listed
    simp at listed

theorem poll_calm (archives : Archives) : ∀ event ∈ archives.poll, event.Calm := by
  have plain : Host.plain.Calm := ⟨by simp [Host.plain],by simp [Host.plain],by simp [Host.plain]⟩
  intro event member
  simp only [Archives.poll,List.mem_append,List.mem_cons,List.not_mem_nil,or_false,List.mem_flatMap,
    List.mem_map] at member
  obtain ((rfl | rfl | rfl | rfl) | ⟨_,_,rfl | rfl | rfl⟩) | ⟨_,_,rfl⟩ := member <;>
    first | exact plain | trivial

theorem changed_file_never_dropped_waiting :
    (∀ event ∈ fileWaits, event.Calm) ∧ keepsRun plainSettings fileWaits {} = true ∧
    NeverDropped (Main.execute plainSettings fileWaits {}) := by
  have calm : ∀ event ∈ fileWaits, event.Calm := by
    intro event member
    obtain first | second := List.mem_append.mp member
    · exact poll_calm _ event first
    · exact poll_calm _ event second
  have keeps : keepsRun plainSettings fileWaits {} = true := by decide +kernel
  exact ⟨calm,keeps,changed_file_never_dropped plainSettings plainSettings_valid fileWaits calm keeps⟩

end S2Script.Loader
