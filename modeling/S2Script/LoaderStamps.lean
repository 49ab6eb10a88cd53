import S2Script.LoaderIdsRuns

/-! Committed stamps. A file is read again only when its stamp changes, so a stamp
the loader remembers must be accounted for: its candidate is loaded, refused,
parked, or about to be read again by a queued reload. -/
namespace S2Script.Loader

open LoaderWorker

namespace Main

/-- A reload of this plugin waits behind its load, or for the intents to be drained. -/
def ReloadQueued (main : Main) (id : String) : Prop :=
  main.loading.lookup id = some true ∨ main.pendingOps.lookup id = some .reload

/-- The candidate read at this stamp was refused with a warning, or is the one loaded. -/
def Answered (main : Main) (path : Path) (stamp : FileStamp) : Prop :=
  (path,stamp) ∈ main.refused ∨ ∃ id, main.loadedFrom.lookup path = some (id,stamp)

/-- The candidate was answered, or a queued reload reads the file again. -/
def Accounted (main : Main) (path : Path) (stamp : FileStamp) : Prop :=
  main.Answered path stamp ∨ ∃ id, main.watchState.lookup path = some id ∧ main.ReloadQueued id

/-- The candidate is accounted for, or its row is ready or parked. -/
def Kept (main : Main) (path : Path) (stamp : FileStamp) : Prop :=
  main.Accounted path stamp ∨ ∃ row ∈ main.parkedRows, row.path = path ∧ row.prepared.stamp = stamp

/-- The stamp a deferred candidate would bring back is accounted for. -/
def Backed (main : Main) (row : PreparedLoad) (stamp : FileStamp) : Prop :=
  main.Answered row.path stamp ∨ ∃ old, row.oldId = some old ∧ main.ReloadQueued old

end Main

/-- What holds of one file. -/
structure StampsAt (main : Main) (path : Path) : Prop where
  kept : ∀ {stamp}, main.fileStamps.lookup path = some stamp → main.Kept path stamp
  backed : ∀ {row stamp}, row ∈ main.rows → row.path = path → row.baselineStamp = some stamp → main.Backed row stamp
  suppressed : path ∈ main.suppressed → main.fileStamps.lookup path = none ∧ (∀ row ∈ main.rows, row.path ≠ path) ∧
    ∀ {batch}, main.activeBatch = some batch → path ∉ batch.pending

/-- What a step for other files leaves of this one. -/
structure Apart (main after : Main) (path : Path) : Prop where
  stamp : ∀ {stamp}, after.fileStamps.lookup path = some stamp → main.fileStamps.lookup path = some stamp
  watched : after.watchState.lookup path = main.watchState.lookup path
  refused : ∀ {stamp}, (path,stamp) ∈ main.refused → (path,stamp) ∈ after.refused
  loaded : ∀ {plugin}, main.loadedFrom.lookup path = some plugin → after.loadedFrom.lookup path = some plugin
  queued : ∀ {id}, main.watchState.lookup path = some id → main.ReloadQueued id → after.ReloadQueued id
  parked : ∀ {row}, row.path = path → row ∈ main.parkedRows → row ∈ after.parkedRows
  rows : ∀ {row}, row.path = path → row ∈ after.rows → row ∈ main.rows
  suppressed : path ∈ after.suppressed → path ∈ main.suppressed
  pending : ∀ {batch}, after.activeBatch = some batch → path ∈ batch.pending →
    ∃ old, main.activeBatch = some old ∧ path ∈ old.pending

theorem Apart.refl (main : Main) (path : Path) : Apart main main path where
  stamp := id
  watched := rfl
  refused := id
  loaded := id
  queued := fun _ => id
  parked := fun _ => id
  rows := fun _ => id
  suppressed := id
  pending := fun active member => ⟨_,active,member⟩

theorem Apart.trans {main middle after : Main} {path : Path} (first : Apart main middle path)
    (second : Apart middle after path) : Apart main after path where
  stamp := fun found => first.stamp (second.stamp found)
  watched := second.watched.trans first.watched
  refused := fun member => second.refused (first.refused member)
  loaded := fun found => second.loaded (first.loaded found)
  queued := fun watched queued => second.queued (first.watched.trans watched) (first.queued watched queued)
  parked := fun same member => second.parked same (first.parked same member)
  rows := fun same member => first.rows same (second.rows same member)
  suppressed := fun member => first.suppressed (second.suppressed member)
  pending := by
    intro batch active member
    obtain ⟨old,was,waits⟩ := second.pending active member
    exact first.pending was waits

theorem Apart.answered {main after : Main} {path : Path} {stamp : FileStamp} (apart : Apart main after path)
    (answered : main.Answered path stamp) : after.Answered path stamp :=
  answered.imp apart.refused fun ⟨id,loaded⟩ => ⟨id,apart.loaded loaded⟩

theorem Apart.accounted {main after : Main} {path : Path} {stamp : FileStamp} (apart : Apart main after path)
    (accounted : main.Accounted path stamp) : after.Accounted path stamp :=
  accounted.imp apart.answered fun ⟨id,watched,queued⟩ =>
    ⟨id,apart.watched.trans watched,apart.queued watched queued⟩

theorem Apart.backed {main after : Main} {row : PreparedLoad} {stamp : FileStamp} (apart : Apart main after row.path)
    (candidate : Candidate main row) (backed : main.Backed row stamp) : after.Backed row stamp :=
  backed.imp apart.answered fun ⟨old,running,queued⟩ =>
    ⟨old,running,apart.queued (candidate.replaces running) queued⟩

theorem StampsAt.apart {main after : Main} {path : Path} (stamps : StampsAt main path) (ids : Ids main)
    (apart : Apart main after path) : StampsAt after path where
  kept := by
    intro stamp found
    obtain accounted | ⟨row,member,same,read⟩ := stamps.kept (apart.stamp found)
    · exact .inl (apart.accounted accounted)
    · exact .inr ⟨row,apart.parked same member,same,read⟩
  backed := by
    rintro row stamp member rfl baseline
    have before := apart.rows rfl member
    exact apart.backed (ids.candidates row before) (stamps.backed before rfl baseline)
  suppressed := by
    intro member
    obtain ⟨unstamped,alone,unread⟩ := stamps.suppressed (apart.suppressed member)
    refine ⟨?_,?_,?_⟩
    · apply Option.eq_none_iff_forall_ne_some.mpr
      intro stamp found
      have before := apart.stamp found
      rw [unstamped] at before
      contradiction
    · intro row there same
      exact alone row (apart.rows same there) same
    · intro batch active waits
      obtain ⟨old,was,before⟩ := apart.pending active waits
      exact unread was before

/-- A file without stamp and candidate, which the batch does not read. -/
theorem StampsAt.cleared {main : Main} {path : Path} (unstamped : main.fileStamps.lookup path = none)
    (alone : ∀ row ∈ main.rows, row.path ≠ path)
    (unread : ∀ {batch}, main.activeBatch = some batch → path ∉ batch.pending) : StampsAt main path where
  kept := fun found => absurd (unstamped.symm.trans found) (by simp)
  backed := fun member same => absurd same (alone _ member)
  suppressed := fun _ => ⟨unstamped,alone,unread⟩

/-! ### What the host asks of the loader -/

/-- A request that cannot discard a queued reload. -/
def Callback.calm : Callback → Bool
  | .settle _ | .requestUnload _ | .requestLoad _ _ => false
  | _ => true

/-- Rows move from parked to ready, and queued reloads stay queued. -/
structure Calm (main after : Main) : Prop where
  moved : Rearranged main after
  queued : ∀ {id}, main.ReloadQueued id → after.ReloadQueued id

theorem Calm.trans {main middle after : Main} (first : Calm main middle) (second : Calm middle after) :
    Calm main after :=
  ⟨first.moved.trans second.moved,fun queued => second.queued (first.queued queued)⟩

/-- The intents and the loads are as before. -/
theorem Rearranged.calm {main after : Main} (moved : Rearranged main after)
    (loading : after.loading = main.loading) (intents : after.pendingOps = main.pendingOps) : Calm main after :=
  ⟨moved,by simp [Main.ReloadQueued,loading,intents]⟩

theorem Calm.refl (main : Main) : Calm main main := (Rearranged.refl main).calm rfl rfl

theorem Rearranged.apart {main after : Main} (moved : Rearranged main after) {path : Path}
    (queued : ∀ {id}, main.watchState.lookup path = some id → main.ReloadQueued id → after.ReloadQueued id) :
    Apart main after path where
  stamp := by
    intro stamp found
    rw [moved.fileStamps] at found
    exact found
  watched := by rw [moved.watchState]
  refused := by
    intro stamp member
    rw [moved.refused]
    exact member
  loaded := by
    intro plugin found
    rw [moved.loadedFrom]
    exact found
  queued := queued
  parked := fun _ member => moved.parked.mem_iff.mpr member
  rows := fun _ member => moved.rows.mem_iff.mp member
  suppressed := fun member => moved.suppressed ▸ member
  pending := fun active member => ⟨_,moved.batch.symm.trans active,member⟩

theorem Calm.apart {main after : Main} (calm : Calm main after) (path : Path) : Apart main after path :=
  calm.moved.apart fun _ => calm.queued

theorem calm_overtaken (s : Settings) (main : Main) : Calm main (main.overtaken s) := by
  apply (rearranged_overtaken s main).calm <;> unfold Main.overtaken <;> split <;> rfl

theorem calm_queueConfig (s : Settings) (main : Main) (path : Path) (consumer : ConfigConsumer) :
    Calm main (main.queueConfig s path consumer).2 := by
  have moved := rearranged_queueConfig s main path consumer
  have here := calm_overtaken s main
  obtain outcome | ⟨request,_,_,⟨_,outcome⟩ | ⟨_,outcome⟩⟩ := queueConfig_cases s main path consumer
  · rw [outcome]
    exact .refl main
  · rw [outcome] at moved ⊢
    exact ⟨moved,here.queued⟩
  · rw [outcome] at moved ⊢
    exact ⟨moved,here.queued⟩

theorem reloadQueued_enqueue (s : Settings) {main : Main} {id : String} (queued : main.ReloadQueued id) (other : String) :
    (main.enqueueIntent s other .reload).ReloadQueued id := by
  unfold Main.enqueueIntent
  extract_lets oldBytes usedBytes grown
  split
  · exact queued
  split
  · exact queued
  · refine queued.imp_right ?_
    intro intent
    simp only [Table.lookup_insert_eq]
    split
    · rfl
    · exact intent

theorem calm_requestReload (s : Settings) (main : Main) (id : String) : Calm main (main.requestReload s id) := by
  refine ⟨rearranged_requestReload s main id,?_⟩
  intro other queued
  unfold Main.requestReload
  split
  · exact reloadQueued_enqueue s queued id
  · exact queued

theorem unpark_loads (published : String → Bool) (frame : Nat) (main : Main) (id : String) :
    (main.unpark published frame id).loading = main.loading ∧
      (main.unpark published frame id).pendingOps = main.pendingOps := by
  unfold Main.unpark
  split
  · exact ⟨rfl,rfl⟩
  split <;> exact ⟨rfl,rfl⟩

theorem calm_callback (s : Settings) (main : Main) {callback : Callback} (calm : callback.calm = true) :
    Calm main (callback.run s main) := by
  have moved := rearranged_callback s main callback
  cases callback with
  | watchConfigFor id resolved =>
    refine ⟨moved,?_⟩
    simp only [Callback.run,Main.watchConfigFor]
    split
    · exact fun queued => queued
    split
    · exact fun queued => queued
    · intro other queued
      apply (calm_queueConfig s _ _ _).queued
      split <;> exact queued
  | unwatchConfigFor id =>
    have same : ((Callback.unwatchConfigFor id).run s main).loading = main.loading ∧
        ((Callback.unwatchConfigFor id).run s main).pendingOps = main.pendingOps := by
      simp only [Callback.run,Main.unwatchConfigFor]
      split
      · exact ⟨rfl,rfl⟩
      split
      · exact ⟨rfl,rfl⟩
      split
      · exact ⟨rfl,rfl⟩
      · simp only [Main.retireConfigWatch,Main.overtaken]
        split <;> exact ⟨rfl,rfl⟩
    exact moved.calm same.1 same.2
  | startUnblockedWaiters visit published frame =>
    simp only [Callback.run,Main.startUnblockedWaiters]
    clear moved
    generalize arrange visit main.waiting.keys = ids
    induction ids generalizing main with
    | nil => exact .refl main
    | cons id ids ih =>
      obtain ⟨loading,intents⟩ := unpark_loads published frame main id
      exact ((rearranged_unpark published frame main id).calm loading intents).trans (ih _)
  | settle id => contradiction
  | requestUnload id => contradiction
  | requestReload id => exact calm_requestReload s main id
  | requestLoad id found => contradiction

theorem calm_callbacks (s : Settings) {callbacks : List Callback} (calm : ∀ callback ∈ callbacks, callback.calm = true)
    (main : Main) : Calm main (callbacks.foldl (Callback.run s) main) := by
  induction callbacks generalizing main with
  | nil => exact .refl main
  | cons callback callbacks ih =>
    exact (calm_callback s main (calm callback List.mem_cons_self)).trans
      (ih (fun other member => calm other (List.mem_cons_of_mem _ member)) _)

/-! ### The batch -/

theorem apart_removeBatchPath (main : Main) (gone path : Path) : Apart main (main.removeBatchPath gone) path :=
  { Apart.refl main path with
    rows := fun _ member => (removeBatchPath_rows main gone).1.subset member
    pending := by
      intro batch active member
      obtain ⟨old,found,rfl⟩ := Option.map_eq_some_iff.mp active
      exact ⟨old,found,(AList.mem_erase.mp member).2⟩ }

theorem apart_settleBatchPath (main : Main) (read path : Path) : Apart main (main.settleBatchPath read) path :=
  { Apart.refl main path with
    rows := fun _ member => settleBatchPath_rows main read ▸ member
    pending := by
      intro batch active member
      obtain ⟨old,found,rfl⟩ := Option.map_eq_some_iff.mp active
      exact ⟨old,found,(AList.mem_erase.mp member).2⟩ }

theorem refused_rejectRows (rejected : List PreparedLoad) {main : Main} {entry : Path × FileStamp}
    (member : entry ∈ main.refused) : entry ∈ (rejected.foldl Main.rejectRow main).refused :=
  List.foldlRecOn (motive := fun main : Main => entry ∈ main.refused) rejected Main.rejectRow member
    fun _ before _ _ => List.mem_append_left _ before

theorem stamp_rejectRows {rejected : List PreparedLoad} {path : Path} (apart : ∀ row ∈ rejected, row.path ≠ path)
    (main : Main) : (rejected.foldl Main.rejectRow main).fileStamps.lookup path = main.fileStamps.lookup path :=
  List.foldlRecOn (motive := fun after : Main => after.fileStamps.lookup path = main.fileStamps.lookup path) rejected
    Main.rejectRow rfl fun _ before row member => (AList.lookup_insert_ne (apart row member).symm).trans before

/-- A rejected row leaves its stamp, and the warning is on record. -/
theorem stamped_rejectRows (rejected : List PreparedLoad) (main : Main) {row : PreparedLoad} (member : row ∈ rejected) :
    ∃ stamp, (rejected.foldl Main.rejectRow main).fileStamps.lookup row.path = some stamp ∧
      (row.path,stamp) ∈ (rejected.foldl Main.rejectRow main).refused := by
  induction rejected generalizing main row with
  | nil => simp at member
  | cons first rest ih =>
    by_cases again : ∃ other ∈ rest, other.path = row.path
    · obtain ⟨other,later,same⟩ := again
      exact same ▸ ih (main.rejectRow first) later
    · have last : row = first := by
        obtain rfl | later := List.mem_cons.mp member
        · rfl
        · exact absurd ⟨row,later,rfl⟩ again
      subst last
      refine ⟨row.prepared.stamp,?_,?_⟩
      · have apart : ∀ other ∈ rest, other.path ≠ row.path := fun other there same => again ⟨other,there,same⟩
        exact (stamp_rejectRows apart _).trans (AList.lookup_insert _)
      · exact refused_rejectRows rest (List.mem_append_right _ (List.mem_singleton_self _))

theorem refused_refuseRows (refused : List PreparedLoad) {main : Main} {entry : Path × FileStamp}
    (member : entry ∈ main.refused) : entry ∈ (refuseRows main refused).refused :=
  List.foldlRecOn (motive := fun main : Main => entry ∈ main.refused) refused _ member
    fun _ before _ _ => List.mem_append_left _ before

theorem stamp_refuseRows {refused : List PreparedLoad} {path : Path} (apart : ∀ row ∈ refused, row.path ≠ path)
    (main : Main) : (refuseRows main refused).fileStamps.lookup path = main.fileStamps.lookup path :=
  List.foldlRecOn (motive := fun after : Main => after.fileStamps.lookup path = main.fileStamps.lookup path) refused
    _ rfl fun _ before row member => (AList.lookup_insert_ne (apart row member).symm).trans before

/-- What finishing a batch does: some of its rows are rejected, each leaving its
stamp and a warning, and the rest may be released. -/
structure Finished (main after : Main) (batch : ActiveBatch) (rejected : List PreparedLoad) : Prop where
  listed : ∀ row ∈ rejected, row ∈ batch.prepared.values
  stamp : ∀ {path}, (∀ row ∈ rejected, row.path ≠ path) →
    after.fileStamps.lookup path = main.fileStamps.lookup path
  watched : ∀ {path}, (∀ row ∈ rejected, row.path ≠ path) →
    after.watchState.lookup path = main.watchState.lookup path
  stamped : ∀ row ∈ rejected, ∃ stamp, after.fileStamps.lookup row.path = some stamp ∧
    (row.path,stamp) ∈ after.refused
  refused : ∀ {entry}, entry ∈ main.refused → entry ∈ after.refused
  released : ∀ {row}, row ∈ after.parkedRows → row ∈ main.parkedRows ∨
    row ∈ batch.prepared.values ∧ ∀ other ∈ rejected, other.path ≠ row.path
  parked : ∀ {row}, row ∈ main.parkedRows → row ∈ after.parkedRows

theorem finished_finishBatch (host : Host) (main : Main) (batch : ActiveBatch) :
    ∃ rejected, Finished main (main.finishBatch host batch) batch rejected := by
  have waits := finishBatch_waiting host main batch
  unfold Main.finishBatch at waits ⊢
  extract_lets rows duplicates drifting refusing rejected remembering loads order byId
  have perm : rows.Perm batch.prepared.values := arranged_perm host.visit batch.prepared
  have sub : ∀ row ∈ rows.filter (·.path ∈ drifting), row ∈ rows.filter (·.path ∈ rejected) := by
    intro row member
    obtain ⟨listed,drifts⟩ := List.mem_filter.mp member
    refine List.mem_filter.mpr ⟨listed,?_⟩
    simp only [decide_eq_true_eq] at drifts ⊢
    exact List.mem_append_right _ drifts
  have taken : ∀ row ∈ takeLoads order byId, row ∈ loads := by
    intro row member
    have first : (takeLoads order byId).Subperm byId.values := takeLoads_subperm order byId
    have second : byId.values.Subperm loads := by simpa using loads_subperm loads ∅
    exact second.subset (first.subset member)
  have parked : ∀ {row}, row ∈ Main.parkedRows { remembering with
        readyApply := main.readyApply ++ (takeLoads order byId).map (⟨·,false⟩) } ↔
      row ∈ main.parkedRows ∨ row ∈ takeLoads order byId := by
    intro row
    simp only [Main.parkedRows]
    rw [show remembering.waiting = main.waiting from waits]
    simp only [List.map_append,List.mem_append,List.map_map,Function.comp_def,List.map_id']
    tauto
  refine ⟨rows.filter (·.path ∈ rejected),?_,?_,?_,?_,?_,?_,?_⟩
  · exact fun row member => perm.mem_iff.mp (List.mem_filter.mp member).1
  · intro path apart
    have refused : refusing.fileStamps.lookup path = main.fileStamps.lookup path :=
      stamp_refuseRows (fun row member => apart row (sub row member)) main
    exact (stamp_rejectRows apart refusing).trans refused
  · intro path apart
    have same : remembering.watchState = refusing.watchState :=
      foldl_same Main.watchState Main.rejectRow (fun _ _ => rfl) _ _
    rw [same]
    exact (refusing_refuseRows main _).watched fun row member => apart row (sub row member)
  · exact fun row member => stamped_rejectRows _ refusing member
  · intro entry member
    exact refused_rejectRows _ (refused_refuseRows _ member)
  · intro row member
    refine (parked.mp member).imp_right ?_
    intro released
    obtain ⟨listed,accepted⟩ := List.mem_filter.mp (taken row released)
    refine ⟨perm.mem_iff.mp listed,?_⟩
    intro other there same
    have rejects := (List.mem_filter.mp there).2
    simp only [decide_eq_true_eq] at rejects accepted
    exact accepted (same ▸ rejects)
  · exact fun member => parked.mpr (.inl member)

theorem stampsAt_finishBatchIfReady {main : Main} {path : Path} (stamps : StampsAt main path) (ids : Ids main)
    (one : OneRow main) (host : Host) : StampsAt (main.finishBatchIfReady host) path := by
  unfold Main.finishBatchIfReady
  split
  · exact stamps
  next batch active =>
    split
    · obtain ⟨rejected,finished⟩ := finished_finishBatch host { main with activeBatch := none } batch
      have noBatch := finishBatch_same Main.activeBatch (fun _ _ => rfl) (fun _ _ => rfl) (fun _ _ => rfl) host
        { main with activeBatch := none } batch
      have suppressed := finishBatch_same Main.suppressed (fun _ _ => rfl) (fun _ _ => rfl) (fun _ _ => rfl) host
        { main with activeBatch := none } batch
      have loaded := finishBatch_same Main.loadedFrom (fun _ _ => rfl) (fun _ _ => rfl) (fun _ _ => rfl) host
        { main with activeBatch := none } batch
      have loading := finishBatch_same Main.loading (fun _ _ => rfl) (fun _ _ => rfl) (fun _ _ => rfl) host
        { main with activeBatch := none } batch
      have intents := finishBatch_same Main.pendingOps (fun _ _ => rfl) (fun _ _ => rfl) (fun _ _ => rfl) host
        { main with activeBatch := none } batch
      generalize Main.finishBatch host { main with activeBatch := none } batch = after at *
      have before : main.rows = batch.prepared.values ++ main.parkedRows := by
        simp [Main.rows,Main.batchRows,active]
      have rows : after.rows = after.parkedRows := by simp [Main.rows,Main.batchRows,noBatch]
      by_cases hit : ∃ row ∈ rejected, row.path = path
      · obtain ⟨row,member,rfl⟩ := hit
        have among : row ∈ main.rows := before ▸ List.mem_append_left _ (finished.listed row member)
        obtain ⟨stamp,found,warned⟩ := finished.stamped row member
        refine ⟨?_,?_,?_⟩
        · intro other stamped
          obtain rfl := Option.some.inj (found.symm.trans stamped)
          exact .inl (.inl (.inl warned))
        · intro other baseline there sameFile
          obtain parked | ⟨_,apart⟩ := finished.released (rows ▸ there)
          · have once := List.nodup_append.mp (List.map_append ▸ before ▸ one.once)
            exact absurd sameFile.symm (once.2.2 _ (List.mem_map_of_mem (finished.listed row member)) _
              (List.mem_map_of_mem parked))
          · exact absurd sameFile.symm (apart row member)
        · intro there
          rw [suppressed] at there
          exact absurd rfl ((stamps.suppressed there).2.1 row among)
      · have apart : ∀ row ∈ rejected, row.path ≠ path := fun row member sameFile => hit ⟨row,member,sameFile⟩
        apply stamps.apart ids
        refine ⟨?_,finished.watched apart,finished.refused,?_,?_,fun _ => finished.parked,?_,?_,?_⟩
        · intro stamp found
          exact (finished.stamp apart).symm.trans found
        · intro plugin found
          rw [loaded]
          exact found
        · intro id _ queued
          unfold Main.ReloadQueued
          rw [loading,intents]
          exact queued
        · intro row _ member
          rw [before]
          obtain parked | ⟨released,_⟩ := finished.released (rows ▸ member)
          · exact List.mem_append_right _ parked
          · exact List.mem_append_left _ released
        · intro member
          rw [suppressed] at member
          exact member
        · intro found now
          simp [noBatch] at now
    · exact stamps

/-- Cancelling a file's work is nothing to the other files. -/
theorem stampsAt_cancelPathWork {main : Main} {path other : Path} (stamps : StampsAt main other) (ids : Ids main)
    (one : OneRow main) (host : Host) (apart : other ≠ path) : StampsAt (main.cancelPathWork host path) other := by
  rw [cancelPathWork_eq]
  have dropped : Apart main (main.dropPath path) other :=
    { apart_removeBatchPath main path other with
      parked := fun same member => (dropPath_parked main path).mpr ⟨member,fun here => apart (same.symm.trans here)⟩
      rows := fun _ member => dropPath_rows member }
  exact stampsAt_finishBatchIfReady (stamps.apart ids dropped) (ids.dropPath path) (one.dropPath path) host

/-- After its work is cancelled the batch does not read a file. -/
theorem unread_cancelPathWork {main : Main} (one : OneRow main) (host : Host) (path : Path) {batch : ActiveBatch}
    (active : (main.cancelPathWork host path).activeBatch = some batch) : path ∉ batch.pending := by
  rw [cancelPathWork_eq] at active
  unfold Main.finishBatchIfReady at active
  split at active
  next none =>
    rw [none] at active
    contradiction
  next found here =>
    split at active
    · have noBatch := congrArg Traffic.activeBatch
        (finishBatch_traffic host { main.dropPath path with activeBatch := none } found)
      exact absurd (active.symm.trans noBatch) (by simp [Main.traffic])
    · exact (dropPath_batch one active).1

/-- Finishing a batch leaves the stamp of a file that has no row in it. -/
theorem stamp_cancelPathWork {main : Main} (one : OneRow main) (host : Host) (path : Path) :
    (main.cancelPathWork host path).fileStamps.lookup path = main.fileStamps.lookup path := by
  rw [cancelPathWork_eq]
  unfold Main.finishBatchIfReady
  split
  · rfl
  next batch active =>
    split
    · obtain ⟨rejected,finished⟩ := finished_finishBatch host { main.dropPath path with activeBatch := none } batch
      exact finished.stamp fun row member => (dropPath_batch one active).2 row (finished.listed row member)
    · rfl

/-! ### Unloading and command intents -/

/-- The host's own code, run during a step, discards no queued reload. -/
structure Host.Calm (host : Host) : Prop where
  unloading : ∀ id, ∀ callback ∈ host.unloading id, callback.calm = true
  loading : ∀ id, ∀ callback ∈ host.loading id, callback.calm = true
  delivering : ∀ id, ∀ callback ∈ host.delivering id, callback.calm = true

/-- Unloading what one file is watched at is nothing to the other files. -/
theorem apart_unloadPlugin {s : Settings} {host : Host} (calm : host.Calm) (cause : Cause) {main : Main} (ids : Ids main)
    {path other : Path} {id : String} (watched : main.watchState.lookup path = some id) (apart : other ≠ path) :
    Apart main (main.unloadPlugin s host cause path id) other := by
  unfold Main.unloadPlugin
  extract_lets unloaded
  refine Apart.trans ?_ ((calm_callbacks s (calm.unloading id) unloaded).apart other)
  have named : ∀ {name}, main.watchState.lookup other = some name → name ≠ id := by
    rintro name found rfl
    exact apart (ids.unique found watched)
  exact { Apart.refl main other with
    loaded := by
      rintro ⟨name,stamp⟩ found
      rw [Table.lookup_retain,found,Option.filter_some]
      simp [named (ids.loaded found)]
    queued := by
      intro name found queued
      refine queued.imp_left ?_
      intro flying
      exact (AList.lookup_erase_ne (named found)).trans flying }

theorem apart_detach {main : Main} {id : String} {path : Path}
    (elsewhere : ∀ {load}, main.waiting.lookup id = some load → load.row.path ≠ path) :
    Apart main { main with waiting := main.waiting.erase id } path :=
  { Apart.refl main path with
    parked := by
      intro row same member
      obtain ready | waits := List.mem_append.mp member
      · exact List.mem_append_left _ ready
      · apply List.mem_append_right
        obtain ⟨load,found,rfl⟩ := List.mem_map.mp waits
        obtain ⟨key,here⟩ := (Table.mem_values _ load).mp found
        refine List.mem_map_of_mem ((Table.mem_values _ load).mpr ⟨key,?_⟩)
        rw [Table.lookup_erase_eq,if_neg,here]
        rintro rfl
        exact elsewhere here same
    rows := by
      intro row _ member
      exact (List.Sublist.append (List.Sublist.refl _) (List.Sublist.append (List.Sublist.refl _)
        ((Table.values_erase _ _).map _))).subset member }

theorem pathOfLoaded_some {visit : List Path} {main : Main} {id : String} {path : Path}
    (found : main.pathOfLoaded visit id = some path) : main.watchState.lookup path = some id := by
  simpa using List.find?_some found

theorem pathOfLoaded_none {visit : List Path} {main : Main} {id : String} (none : main.pathOfLoaded visit id = none)
    (path : Path) : main.watchState.lookup path ≠ some id := by
  intro watched
  have listed : path ∈ arrange visit main.watchState.keys :=
    (mem_arrange visit _ path).mpr (Table.mem_of_lookup watched)
  have := List.find?_eq_none.mp none path listed
  simp [watched] at this

theorem suppressedPath_some {visit : List Path} {main : Main} {id : String} {path : Path}
    (found : main.suppressedPath visit id = some path) : path ∈ main.suppressed := by
  have : main.suppressed.lookup path = some id := by simpa using List.find?_some found
  exact Table.mem_of_lookup this

/-- Every file's stamp is accounted for. -/
def Stamps (main : Main) : Prop := ∀ path, StampsAt main path

theorem stamps_drainUnload {s : Settings} {main : Main} (stamps : Stamps main) (ids : Ids main) (one : OneRow main)
    {host : Host} (calm : host.Calm) {id : String}
    (own : ∀ {load}, main.waiting.lookup id = some load → main.watchState.lookup load.row.path = some id) :
    Stamps (main.drainUnload s host id) := by
  intro file
  unfold Main.drainUnload
  extract_lets parked detached
  have detachedIds : Ids detached := ids.detach id
  have detachedOne : OneRow detached := one.detach id
  split
  next unwatched =>
    refine (stamps file).apart ids (apart_detach ?_)
    intro load found
    exact absurd (own found) (pathOfLoaded_none unwatched _)
  next path found =>
    extract_lets cancelled unloaded forgotten
    have watched : main.watchState.lookup path = some id := pathOfLoaded_some found
    have cancels := cancelled_cancelPathWork detachedIds detachedOne host path
    have still : cancelled.watchState.lookup path = some id := cancels.watched.trans watched
    by_cases here : file = path
    · subst here
      have alone : ∀ row ∈ unloaded.rows, row.path ≠ file := by
        simp only [unloaded]
        split
        · exact fun row member =>
            cancels.alone row ((unloadPlugin_rows s host .command cancelled file id).mem_iff.mp member)
        · exact cancels.alone
      have unread : ∀ {batch}, unloaded.activeBatch = some batch → file ∉ batch.pending := by
        intro batch active
        apply unread_cancelPathWork detachedOne host file
        simp only [unloaded] at active
        split at active
        · exact (unloadPlugin_batch s host .command cancelled file id).symm.trans active
        · exact active
      have gone : (unloaded.fileStamps.erase file).lookup file = none := AList.lookup_erase _ _
      split <;> exact .cleared gone alone unread
    · have detachedStamps : StampsAt detached file := by
        refine (stamps file).apart ids (apart_detach ?_)
        rintro load waits rfl
        exact here (ids.unique (own waits) watched)
      have cancelledStamps : StampsAt cancelled file :=
        stampsAt_cancelPathWork detachedStamps detachedIds detachedOne host here
      have unloadedStamps : StampsAt unloaded file ∧ Ids unloaded := by
        simp only [unloaded]
        split
        · exact ⟨cancelledStamps.apart cancels.ids (apart_unloadPlugin calm .command cancels.ids still here),
            cancels.ids.unloadPlugin host .command still⟩
        · exact ⟨cancelledStamps,cancels.ids⟩
      have forgot : Apart unloaded forgotten file :=
        { Apart.refl unloaded file with
          stamp := lookup_of_erased
          watched := AList.lookup_erase_ne here }
      split
      · exact unloadedStamps.1.apart unloadedStamps.2 forgot
      · refine unloadedStamps.1.apart unloadedStamps.2 { forgot with suppressed := ?_ }
        intro member
        exact ((AList.mem_insert _).mp member).resolve_left here

theorem stamps_drainReload {s : Settings} {main : Main} (stamps : Stamps main) (ids : Ids main) (one : OneRow main)
    (host : Host) {id : String} (queued : main.pendingOps.lookup id = some .reload) :
    Stamps (main.drainIntent s host id) := by
  intro file
  unfold Main.drainIntent
  extract_lets drained
  rw [queued]
  simp only
  have drainedIds : Ids drained := ids.of_same rfl rfl rfl rfl rfl rfl
  have drainedOne : OneRow drained := one.of_rows rfl rfl rfl
  -- the drained intent matters to the file watched at this id only
  have others : (∀ {name}, main.watchState.lookup file = some name → name ≠ id) → StampsAt drained file := by
    intro named
    refine (stamps file).apart ids { Apart.refl main file with queued := ?_ }
    intro name watched reload
    exact reload.imp_right fun intent => (AList.lookup_erase_ne (named watched)).trans intent
  unfold Main.drainReload
  split
  next flying =>
    refine (stamps file).apart ids ?_
    unfold Main.queuePendingReload
    rw [if_pos flying]
    refine { Apart.refl main file with queued := ?_ }
    intro name watched reload
    by_cases same : name = id
    · subst same
      exact .inl (AList.lookup_insert _)
    · exact reload.imp (fun flag => (AList.lookup_insert_ne same).trans flag)
        fun intent => (AList.lookup_erase_ne same).trans intent
  split
  next nowhere =>
    apply others
    rintro name watched rfl
    rw [Option.or_eq_none_iff] at nowhere
    exact pathOfLoaded_none nowhere.1 file watched
  next path found =>
    have cancels := cancelled_cancelPathWork drainedIds drainedOne host path
    by_cases here : file = path
    · subst here
      exact .cleared (AList.lookup_erase _ _) cancels.alone (unread_cancelPathWork drainedOne host file)
    · have before : StampsAt drained file := by
        apply others
        rintro name watched rfl
        rw [Option.or_eq_some_iff] at found
        obtain loaded | ⟨unloaded,_⟩ := found
        · exact here (ids.unique watched (pathOfLoaded_some loaded))
        · exact pathOfLoaded_none unloaded file watched
      refine (stampsAt_cancelPathWork before drainedIds drainedOne host here).apart cancels.ids ?_
      exact { Apart.refl _ file with
        stamp := lookup_of_erased
        suppressed := fun member => (AList.mem_erase.mp member).2 }

theorem stamps_drainIntent {s : Settings} {main : Main} (stamps : Stamps main) (ids : Ids main) (one : OneRow main)
    {host : Host} (calm : host.Calm) {id : String}
    (own : main.pendingOps.lookup id = some .unload →
      ∀ {load}, main.waiting.lookup id = some load → main.watchState.lookup load.row.path = some id) :
    Stamps (main.drainIntent s host id) := by
  have drainedIds : Ids { main with pendingOps := main.pendingOps.erase id } := ids.of_same rfl rfl rfl rfl rfl rfl
  have drainedOne : OneRow { main with pendingOps := main.pendingOps.erase id } := one.of_rows rfl rfl rfl
  -- an unload or a load taken from the intents leaves every queued reload
  have drainedStamps : main.pendingOps.lookup id ≠ some .reload →
      Stamps { main with pendingOps := main.pendingOps.erase id } := by
    intro other file
    refine (stamps file).apart ids { Apart.refl main file with queued := ?_ }
    intro name watched reload
    refine reload.imp_right ?_
    intro intent
    rw [Table.lookup_erase_eq,if_neg,intent]
    rintro rfl
    exact other intent
  cases op : main.pendingOps.lookup id with
  | none =>
    simp only [Main.drainIntent,op]
    exact stamps
  | some op' =>
    cases op' with
    | reload => exact stamps_drainReload stamps ids one host op
    | unload =>
      simp only [Main.drainIntent,op]
      exact stamps_drainUnload (drainedStamps (by simp [op])) drainedIds drainedOne calm (own op)
    | load =>
      simp only [Main.drainIntent,op]
      unfold Main.drainLoad
      extract_lets cancelled
      have cancelledStamps : Stamps cancelled ∧ Ids cancelled := by
        simp only [cancelled]
        split
        · exact ⟨drainedStamps (by simp [op]),drainedIds⟩
        next path found =>
          have cancels := cancelled_cancelPathWork drainedIds drainedOne host path
          refine ⟨?_,cancels.ids⟩
          intro file
          have before := drainedStamps (by simp [op]) file
          by_cases here : file = path
          · subst here
            have unstamped := (before.suppressed (suppressedPath_some found)).1
            exact .cleared ((stamp_cancelPathWork drainedOne host file).trans unstamped) cancels.alone
              (unread_cancelPathWork drainedOne host file)
          · exact stampsAt_cancelPathWork before drainedIds drainedOne host here
      intro file
      refine (cancelledStamps.1 file).apart cancelledStamps.2 { Apart.refl _ file with suppressed := ?_ }
      intro member
      obtain ⟨name,found⟩ := Table.lookup_of_mem member
      exact Table.mem_of_lookup (lookup_of_retained found)

end S2Script.Loader
