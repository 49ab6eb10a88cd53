import S2Script.LoaderRows

/-! One file, one plugin. A watch row names the plugin its file is responsible for,
so the loader unloads a plugin only for the file it came from. A first candidate
refused before the duplicate check is the one way a second file takes an id. -/
namespace S2Script.Loader

open LoaderWorker

/-- The plugin unloaded was not loaded from another file that is watched. -/
def UnloadCall.Own (call : UnloadCall) : Prop :=
  ∀ other stamp, other ≠ call.path → call.loadedFrom.lookup other = some (call.id,stamp) → other ∉ call.watchState

/-- No watched file but `path` carries this id. -/
def Main.Free (main : Main) (path : Path) (id : String) : Prop :=
  ∀ other, main.watchState.lookup other = some id → other = path

theorem free_of_unique {main : Main} {path : Path} {id : String}
    (unique : main.duplicateManifestId path id = false) : main.Free path id := by
  intro other found
  rw [Table.lookup_iff_entry] at found
  by_contra apart
  have taken : main.duplicateManifestId path id = true :=
    List.any_eq_true.mpr ⟨⟨other,id⟩,found,by simp [apart]⟩
  exact absurd (taken.symm.trans unique) (by simp)

/-- What a candidate says of its file: the version it replaces is the one watched,
and a first candidate's file has nothing loaded. -/
structure Candidate (main : Main) (row : PreparedLoad) : Prop where
  replaces : ∀ {old}, row.oldId = some old → main.watchState.lookup row.path = some old
  first : row.oldId = none → main.loadedFrom.lookup row.path = none

/-- No id is watched at two files, and what is loaded from a file is what its
watch row names. -/
structure Ids (main : Main) : Prop where
  unique : ∀ {path other id}, main.watchState.lookup path = some id → main.watchState.lookup other = some id →
    path = other
  loaded : ∀ {path id stamp}, main.loadedFrom.lookup path = some (id,stamp) → main.watchState.lookup path = some id
  candidates : ∀ row ∈ main.rows, Candidate main row
  parked : ∀ {id load}, main.waiting.lookup id = some load → load.row.oldId = none →
    main.watchState.lookup load.row.path = some id
  own : ∀ call ∈ main.unloads, call.Own

/-- A candidate's facts survive a step that keeps its file's watch row and loads
nothing from it. -/
theorem Candidate.keep {main after : Main} {row : PreparedLoad} (candidate : Candidate main row)
    (watched : after.watchState.lookup row.path = main.watchState.lookup row.path)
    (loaded : ∀ plugin, after.loadedFrom.lookup row.path = some plugin → main.loadedFrom.lookup row.path = some plugin) :
    Candidate after row where
  replaces := fun running => watched.trans (candidate.replaces running)
  first := by
    intro fresh
    apply Option.eq_none_iff_forall_ne_some.mpr
    intro plugin found
    have := loaded plugin found
    rw [candidate.first fresh] at this
    contradiction

theorem mem_rows_of_waiting {main : Main} {id : String} {load : WaitingLoad}
    (found : main.waiting.lookup id = some load) : load.row ∈ main.rows := by
  apply List.mem_append_right
  apply List.mem_append_right
  exact List.mem_map_of_mem ((Table.mem_values _ load).mpr ⟨id,found⟩)

theorem mem_rows_of_ready {main : Main} {item : ApplyItem} (found : item ∈ main.readyApply) :
    item.row ∈ main.rows := by
  apply List.mem_append_right
  apply List.mem_append_left
  exact List.mem_map_of_mem found

/-! ### Steps that keep the watch rows -/

/-- Rows may leave; the watch rows, what is loaded and the calls stay. -/
theorem Ids.shrink {main after : Main} (ids : Ids main)
    (watched : ∀ path, after.watchState.lookup path = main.watchState.lookup path)
    (loaded : after.loadedFrom = main.loadedFrom) (calls : after.unloads = main.unloads)
    (rows : ∀ row ∈ after.rows, row ∈ main.rows)
    (waiting : ∀ {id load}, after.waiting.lookup id = some load → main.waiting.lookup id = some load) : Ids after where
  unique := by
    intro path other id here there
    rw [watched] at here there
    exact ids.unique here there
  loaded := by
    intro path id stamp found
    rw [loaded] at found
    exact (watched path).trans (ids.loaded found)
  candidates := by
    intro row member
    exact (ids.candidates row (rows row member)).keep (watched row.path) (fun _ found => loaded ▸ found)
  parked := by
    intro id load found fresh
    exact (watched _).trans (ids.parked (waiting found) fresh)
  own := calls ▸ ids.own

/-- Stamps, intents, reads and watches of configs are not looked at. -/
theorem Ids.of_same {main after : Main} (ids : Ids main) (watched : after.watchState = main.watchState)
    (loaded : after.loadedFrom = main.loadedFrom) (calls : after.unloads = main.unloads)
    (batch : after.activeBatch = main.activeBatch) (ready : after.readyApply = main.readyApply)
    (waiting : after.waiting = main.waiting) : Ids after := by
  have rows : after.rows = main.rows := by simp [Main.rows,Main.batchRows,Main.parkedRows,batch,ready,waiting]
  apply ids.shrink (fun _ => by rw [watched]) loaded calls
  · exact fun row member => rows ▸ member
  · exact fun found => waiting ▸ found

theorem Ids.rearrange {main after : Main} (ids : Ids main) (moved : Rearranged main after) : Ids after := by
  apply ids.shrink (fun _ => by rw [moved.watchState]) moved.loadedFrom moved.unloads
  · exact fun row member => moved.rows.mem_iff.mp member
  · exact moved.waiting

theorem Ids.removeBatchPath {main : Main} (ids : Ids main) (path : Path) : Ids (main.removeBatchPath path) := by
  refine ids.shrink (fun _ => rfl) rfl rfl ?_ id
  exact fun row member => (removeBatchPath_rows main path).1.subset member

theorem settleBatchPath_rows (main : Main) (path : Path) : (main.settleBatchPath path).rows = main.rows := by
  unfold Main.settleBatchPath Main.rows Main.batchRows
  cases main.activeBatch <;> rfl

theorem Ids.settleBatchPath {main : Main} (ids : Ids main) (path : Path) : Ids (main.settleBatchPath path) := by
  refine ids.shrink (fun _ => rfl) rfl rfl ?_ id
  exact fun row member => settleBatchPath_rows main path ▸ member

/-- The rows of a batch after one more was held. -/
theorem mem_rows_holdRow {main : Main} {row other : PreparedLoad} (member : other ∈ (main.holdRow row).rows) :
    other = row ∨ other ∈ main.rows := by
  obtain held | parked := List.mem_append.mp member
  · unfold Main.batchRows Main.holdRow at held
    cases active : main.activeBatch with
    | none => simp [active] at held
    | some batch =>
      simp only [active,Option.map_some,Option.getD_some,Table.values_insert,List.mem_cons] at held
      refine held.imp_right ?_
      intro old
      apply List.mem_append_left
      simp only [Main.batchRows,active,Option.map_some,Option.getD_some]
      exact (Table.values_erase _ _).subset old
  · exact .inr (List.mem_append_right _ parked)

theorem Ids.holdRow {main : Main} (ids : Ids main) {row : PreparedLoad} (candidate : Candidate main row) :
    Ids (main.holdRow row) where
  unique := ids.unique
  loaded := ids.loaded
  candidates := by
    intro other member
    obtain rfl | old := mem_rows_holdRow member
    · exact ⟨candidate.replaces,candidate.first⟩
    · exact ⟨(ids.candidates other old).replaces,(ids.candidates other old).first⟩
  parked := ids.parked
  own := ids.own

/-! ### Watch rows written and removed -/

/-- The row a candidate writes names the version it replaces, which is watched
already, or a first candidate's id, which no other file carries. -/
structure Writes (main : Main) (path : Path) (id : String) : Prop where
  free : main.Free path id
  loaded : ∀ {old stamp}, main.loadedFrom.lookup path = some (old,stamp) → old = id
  rows : ∀ row ∈ main.rows, row.path = path → ∀ old, row.oldId = some old → old = id
  parked : ∀ {key load}, main.waiting.lookup key = some load → load.row.path = path → load.row.oldId = none → key = id

theorem Writes.rewrite {main : Main} (ids : Ids main) {path : Path} {id : String}
    (watched : main.watchState.lookup path = some id) : Writes main path id where
  free := fun _ found => ids.unique found watched
  loaded := by
    intro old stamp found
    exact Option.some.inj ((ids.loaded found).symm.trans watched)
  rows := by
    intro row member same old running
    have := (ids.candidates row member).replaces running
    rw [same,watched] at this
    exact (Option.some.inj this).symm
  parked := by
    intro key load found same fresh
    have := ids.parked found fresh
    rw [same,watched] at this
    exact (Option.some.inj this).symm

/-- The first row of a file that has no other candidate. -/
theorem Writes.alone {main : Main} {path : Path} {id : String} (free : main.Free path id)
    (unloaded : main.loadedFrom.lookup path = none) (alone : ∀ row ∈ main.rows, row.path ≠ path) :
    Writes main path id where
  free := free
  loaded := by simp [unloaded]
  rows := fun row member same => absurd same (alone row member)
  parked := fun found same => absurd same (alone _ (mem_rows_of_waiting found))

/-- The first row of a file that is not watched. -/
theorem Writes.unwatched {main : Main} (ids : Ids main) {path : Path} {id : String} (free : main.Free path id)
    (unwatched : main.watchState.lookup path = none) : Writes main path id where
  free := free
  loaded := by
    intro old stamp found
    have := ids.loaded found
    simp [unwatched] at this
  rows := by
    intro row member same old running
    have := (ids.candidates row member).replaces running
    rw [same,unwatched] at this
    contradiction
  parked := by
    intro key load found same fresh
    have := ids.parked found fresh
    rw [same,unwatched] at this
    contradiction

theorem Ids.write {main : Main} (ids : Ids main) {path : Path} {id : String} (writes : Writes main path id) :
    Ids { main with watchState := main.watchState.insert path id } where
  unique := by
    intro first second name here there
    simp only [Table.lookup_insert_eq] at here there
    split at here
    next same =>
      split at there
      next also => exact same.trans also.symm
      · obtain rfl := Option.some.inj here
        exact same.trans (writes.free _ there).symm
    · split at there
      next also =>
        obtain rfl := Option.some.inj there
        exact (writes.free _ here).trans also.symm
      · exact ids.unique here there
  loaded := by
    intro other name stamp found
    simp only [Table.lookup_insert_eq]
    split
    next same =>
      subst same
      exact congrArg some (writes.loaded found).symm
    · exact ids.loaded found
  candidates := by
    intro row member
    have candidate := ids.candidates row member
    refine ⟨?_,candidate.first⟩
    intro old running
    simp only [Table.lookup_insert_eq]
    split
    next same => exact congrArg some (writes.rows row member same old running).symm
    · exact candidate.replaces running
  parked := by
    intro key load found fresh
    simp only [Table.lookup_insert_eq]
    split
    next same => exact congrArg some (writes.parked found same fresh).symm
    · exact ids.parked found fresh
  own := ids.own

theorem Ids.commitPath {main : Main} (ids : Ids main) {path : Path} {id : String} (writes : Writes main path id)
    (stamp : FileStamp) : Ids (main.commitPath path stamp id) :=
  (ids.write writes).of_same rfl rfl rfl rfl rfl rfl

theorem Ids.refusePrepared {main : Main} (ids : Ids main) {path : Path} {prepared : PreparedPlugin}
    {oldId : Option String} (writes : Writes main path (oldId.getD prepared.manifest.id)) :
    Ids (main.refusePrepared path prepared oldId) :=
  (ids.write writes).of_same rfl rfl rfl rfl rfl rfl

/-- A file with nothing loaded and no candidate may be forgotten. -/
theorem Ids.forget {main : Main} (ids : Ids main) {path : Path} (unloaded : main.loadedFrom.lookup path = none)
    (alone : ∀ row ∈ main.rows, row.path ≠ path) :
    Ids { main with watchState := main.watchState.erase path } where
  unique := by
    intro first second name here there
    exact ids.unique (lookup_of_erased here) (lookup_of_erased there)
  loaded := by
    intro other id stamp found
    simp only [Table.lookup_erase_eq]
    split
    next same =>
      subst same
      simp [unloaded] at found
    · exact ids.loaded found
  candidates := by
    intro row member
    refine (ids.candidates row member).keep ?_ (fun _ found => found)
    simp only [Table.lookup_erase_eq]
    split
    next same => exact absurd same (alone row member)
    · rfl
  parked := by
    intro id load found fresh
    simp only [Table.lookup_erase_eq]
    split
    next same => exact absurd same (alone _ (mem_rows_of_waiting found))
    · exact ids.parked found fresh
  own := ids.own

/-- Unloading what a file's watch row names touches no other file's plugin. -/
theorem Ids.unloadPlugin {s : Settings} {main : Main} (ids : Ids main) (host : Host) (cause : Cause) {path : Path}
    {id : String} (watched : main.watchState.lookup path = some id) :
    Ids (main.unloadPlugin s host cause path id) := by
  unfold Main.unloadPlugin
  extract_lets unloaded
  have kept : ∀ {other plugin}, unloaded.loadedFrom.lookup other = some plugin →
      main.loadedFrom.lookup other = some plugin := fun found => lookup_of_retained found
  have dropped : Ids unloaded := by
    refine ⟨ids.unique,fun found => ids.loaded (kept found),?_,ids.parked,?_⟩
    · intro row member
      exact (ids.candidates row member).keep rfl (fun _ found => kept found)
    · intro call member
      obtain old | new := List.mem_append.mp member
      · exact ids.own call old
      · obtain rfl := List.mem_singleton.mp new
        intro other stamp apart found
        exact absurd (ids.unique (ids.loaded found) watched) apart
  exact dropped.rearrange (rearranged_callbacks s _ unloaded)

theorem unloadPlugin_unloaded (s : Settings) (host : Host) (cause : Cause) {main : Main} (ids : Ids main)
    {path : Path} {id : String} (watched : main.watchState.lookup path = some id) :
    (main.unloadPlugin s host cause path id).loadedFrom.lookup path = none := by
  unfold Main.unloadPlugin
  extract_lets unloaded
  rw [(rearranged_callbacks s _ unloaded).loadedFrom]
  apply Option.eq_none_iff_forall_ne_some.mpr
  rintro ⟨other,stamp⟩ found
  rw [Table.lookup_retain,Option.filter_eq_some_iff,decide_eq_true_eq] at found
  exact found.2 (Option.some.inj ((ids.loaded found.1).symm.trans watched))

theorem unloadPlugin_watch (s : Settings) (host : Host) (cause : Cause) (main : Main) (path : Path) (id : String) :
    (main.unloadPlugin s host cause path id).watchState = main.watchState :=
  (rearranged_callbacks s _ _).watchState

theorem unloadPlugin_batch (s : Settings) (host : Host) (cause : Cause) (main : Main) (path : Path) (id : String) :
    (main.unloadPlugin s host cause path id).activeBatch = main.activeBatch :=
  (rearranged_callbacks s _ _).batch

theorem unloadPlugin_rows (s : Settings) (host : Host) (cause : Cause) (main : Main) (path : Path) (id : String) :
    (main.unloadPlugin s host cause path id).rows.Perm main.rows :=
  (rearranged_callbacks s _ _).rows

/-! ### The batch -/

/-- Only eligible providers are dropped as a cycle. -/
theorem settleProviders_within (ordered : List (Path × Manifest)) (liveHash : String → Option String)
    (within : List Path) (fuel : Nat) {eligible accepted : List Path} {history : List (List Path)} {cycle : List Path}
    (eligibles : ∀ path ∈ eligible, path ∈ within) (accepts : ∀ path ∈ accepted, path ∈ within)
    (histories : ∀ state ∈ history, ∀ path ∈ state, path ∈ within) (cycles : ∀ path ∈ cycle, path ∈ within) :
    ∀ path ∈ (settleProviders ordered liveHash fuel eligible accepted history cycle).2, path ∈ within := by
  induction fuel generalizing eligible accepted history cycle with
  | zero => exact cycles
  | succ fuel ih =>
    unfold settleProviders
    extract_lets seen hashes next
    have nexts : ∀ path ∈ next, path ∈ within := by
      intro path member
      obtain ⟨entry,listed,rfl⟩ := List.mem_map.mp member
      have := (List.mem_filter.mp listed).2
      simp only [Bool.and_eq_true,decide_eq_true_eq] at this
      exact eligibles _ this.1
    have seens : ∀ state ∈ seen, ∀ path ∈ state, path ∈ within := by
      intro state member
      obtain old | new := List.mem_append.mp member
      · exact histories state old
      · exact List.mem_singleton.mp new ▸ accepts
    split
    · exact cycles
    split
    · extract_lets states toggling kept
      have keeps : ∀ path ∈ kept, path ∈ within := fun path member => eligibles path (List.mem_filter.mp member).1
      apply ih keeps keeps (by simp)
      intro path member
      obtain old | new := List.mem_append.mp member
      · exact cycles path old
      · have toggles := (List.mem_filter.mp new).2
        simp only [Bool.and_eq_true,List.any_eq_true,decide_eq_true_eq] at toggles
        obtain ⟨⟨state,listed,holds⟩,_⟩ := toggles
        obtain earlier | last := List.mem_append.mp listed
        · exact seens state (List.mem_of_mem_drop earlier) path holds
        · exact nexts path (List.mem_singleton.mp last ▸ holds)
    · exact ih eligibles nexts seens cycles

/-- A candidate rejected already is not refused for its contracts as well. -/
theorem drifting_not_rejected {candidates : List (Path × Manifest)} {rejected : List Path}
    {liveHash : String → Option String} {path : Path}
    (drifts : path ∈ resolveContractRejections candidates rejected liveHash) : path ∉ rejected := by
  unfold resolveContractRejections at drifts
  extract_lets ordered eligible settled hashes at drifts
  obtain cycle | drift := List.mem_append.mp drifts
  · have eligibles : ∀ other ∈ eligible, other ∈ eligible := fun _ member => member
    have within := settleProviders_within ordered liveHash eligible (settleRounds ordered.length) eligibles eligibles
      (by simp) (by simp) path cycle
    obtain ⟨entry,listed,rfl⟩ := List.mem_map.mp within
    have := (List.mem_filter.mp listed).2
    simp only [Bool.and_eq_true,decide_eq_true_eq] at this
    exact this.1
  · obtain ⟨entry,listed,rfl⟩ := List.mem_map.mp drift
    have := (List.mem_filter.mp listed).2
    simp only [Bool.and_eq_true,decide_eq_true_eq] at this
    exact this.1.1

theorem same_of_single {α : Type} {items : List α} (single : ¬1 < items.length) {a b : α} (first : a ∈ items)
    (second : b ∈ items) : a = b := by
  match items with
  | [] => simp at first
  | [item] => exact (List.mem_singleton.mp first).trans (List.mem_singleton.mp second).symm
  | _ :: _ :: _ => simp at single

/-- A row that is no duplicate shares its id with no other row and no other file. -/
theorem unique_in_batch {main : Main} {rows : List PreparedLoad} {row : PreparedLoad} (member : row ∈ rows)
    (unique : main.duplicateInBatch rows row = false) :
    main.Free row.path row.prepared.manifest.id ∧
    ∀ other ∈ rows, other.prepared.manifest.id = row.prepared.manifest.id → other.path = row.path := by
  unfold Main.duplicateInBatch at unique
  extract_lets paths at unique
  simp only [Bool.or_eq_false_iff,decide_eq_false_iff_not] at unique
  obtain ⟨single,elsewhere⟩ := unique
  have listed : ∀ other ∈ rows, other.prepared.manifest.id = row.prepared.manifest.id → other.path ∈ paths := by
    intro other there same
    exact List.mem_map_of_mem (List.mem_filter.mpr ⟨there,by simpa using same⟩)
  refine ⟨?_,?_⟩
  · intro other found
    rw [Table.lookup_iff_entry] at found
    have here : other ∈ paths := by
      by_contra apart
      have taken := List.any_eq_false.mp elsewhere _ found
      simp [apart] at taken
    exact same_of_single single here (listed row member rfl)
  · intro other there same
    exact same_of_single single (listed other there same) (listed row member rfl)

/-- Refusing a list of candidates, each for its own file. -/
def refuseRows (main : Main) (refused : List PreparedLoad) : Main :=
  refused.foldl (fun main row => main.refusePrepared row.path row.prepared row.oldId) main

/-- Refusing candidates writes their own watch rows only. -/
structure Refusing (main after : Main) (refused : List PreparedLoad) : Prop where
  watched : ∀ {path}, (∀ row ∈ refused, row.path ≠ path) →
    after.watchState.lookup path = main.watchState.lookup path
  loaded : after.loadedFrom = main.loadedFrom
  unloads : after.unloads = main.unloads
  batch : after.activeBatch = main.activeBatch
  ready : after.readyApply = main.readyApply
  waiting : after.waiting = main.waiting

theorem refusing_refuseRows (main : Main) (refused : List PreparedLoad) :
    Refusing main (refuseRows main refused) refused := by
  induction refused generalizing main with
  | nil => exact ⟨fun _ => rfl,rfl,rfl,rfl,rfl,rfl⟩
  | cons row refused ih =>
    have rest := ih (main.refusePrepared row.path row.prepared row.oldId)
    refine ⟨?_,rest.loaded,rest.unloads,rest.batch,rest.ready,rest.waiting⟩
    intro path apart
    have later := rest.watched fun other member => apart other (List.mem_cons_of_mem _ member)
    refine later.trans ?_
    have here := apart row List.mem_cons_self
    exact AList.lookup_insert_ne here.symm

/-- A candidate writes the row it found, or a first row with a free id. -/
theorem Candidate.writes {main : Main} (ids : Ids main) {row : PreparedLoad} (candidate : Candidate main row)
    (free : row.oldId = none → main.Free row.path row.prepared.manifest.id)
    (alone : ∀ other ∈ main.rows, other.path ≠ row.path) :
    Writes main row.path (row.oldId.getD row.prepared.manifest.id) := by
  cases running : row.oldId with
  | none => exact .alone (free running) (candidate.first running) alone
  | some old => exact .rewrite ids (candidate.replaces running)

theorem ids_refuseRows (refused : List PreparedLoad) {main : Main} (ids : Ids main)
    (candidates : ∀ row ∈ refused, Candidate main row)
    (distinct : refused.Pairwise fun row other => row.path ≠ other.path ∧
      row.prepared.manifest.id ≠ other.prepared.manifest.id)
    (free : ∀ row ∈ refused, row.oldId = none → main.Free row.path row.prepared.manifest.id)
    (alone : ∀ row ∈ refused, ∀ other ∈ main.rows, other.path ≠ row.path) : Ids (refuseRows main refused) := by
  induction refused generalizing main with
  | nil => exact ids
  | cons row refused ih =>
    obtain ⟨apart,distinct⟩ := List.pairwise_cons.mp distinct
    have candidate := candidates row List.mem_cons_self
    have writes := candidate.writes ids (free row List.mem_cons_self) (alone row List.mem_cons_self)
    have wrote : Ids (main.refusePrepared row.path row.prepared row.oldId) := ids.refusePrepared writes
    apply ih wrote
    · intro other member
      refine (candidates other (List.mem_cons_of_mem _ member)).keep ?_ (fun _ found => found)
      exact AList.lookup_insert_ne (apart other member).1.symm
    · exact distinct
    · intro other member first path found
      have freed := free other (List.mem_cons_of_mem _ member) first
      have found : (main.watchState.insert row.path (row.oldId.getD row.prepared.manifest.id)).lookup path =
          some other.prepared.manifest.id := found
      rw [Table.lookup_insert_eq] at found
      split at found
      next same =>
        -- the row just written names its own id, or one this file was watched at before
        cases running : row.oldId with
        | none =>
          simp only [running,Option.getD_none,Option.some.injEq] at found
          exact absurd found (apart other member).2
        | some old =>
          simp only [running,Option.getD_some,Option.some.injEq] at found
          subst found
          exact same.trans (freed _ (candidate.replaces running))
      · exact freed path found
    · intro other member row' there
      exact alone other (List.mem_cons_of_mem _ member) row' there

/-- The batch's rows and the parked ones, before it is finished. -/
structure Finishing (main : Main) (batch : ActiveBatch) : Prop where
  ids : Ids main
  noBatch : main.activeBatch = none
  candidates : ∀ row ∈ batch.prepared.values, Candidate main row
  once : ((batch.prepared.values ++ main.parkedRows).map PreparedLoad.path).Nodup

theorem finishBatch_watch {main : Main} {batch : ActiveBatch} {path : Path}
    (apart : ∀ row ∈ batch.prepared.values, row.path ≠ path) (host : Host) :
    (main.finishBatch host batch).watchState.lookup path = main.watchState.lookup path := by
  unfold Main.finishBatch
  extract_lets rows duplicates drifting refusing rejected remembering loads order byId
  have refused := refusing_refuseRows main (rows.filter (·.path ∈ drifting))
  have same : remembering.watchState = refusing.watchState :=
    foldl_same Main.watchState Main.rejectRow (fun _ _ => rfl) _ _
  rw [same]
  apply refused.watched
  intro row member
  exact apart row ((arranged_perm host.visit batch.prepared).mem_iff.mp (List.mem_filter.mp member).1)

theorem finishBatch_loaded (host : Host) (main : Main) (batch : ActiveBatch) :
    (main.finishBatch host batch).loadedFrom = main.loadedFrom :=
  finishBatch_same Main.loadedFrom (fun _ _ => rfl) (fun _ _ => rfl) (fun _ _ => rfl) host main batch

theorem ids_finishBatch {main : Main} {batch : ActiveBatch} (finishing : Finishing main batch) (host : Host) :
    Ids (main.finishBatch host batch) := by
  unfold Main.finishBatch
  extract_lets rows duplicates drifting refusing rejected remembering loads order byId
  have perm : rows.Perm batch.prepared.values := arranged_perm host.visit batch.prepared
  have once := List.nodup_append.mp (List.map_append ▸ finishing.once)
  have rowsOnce : (rows.map PreparedLoad.path).Nodup := (perm.map _).nodup_iff.mpr once.1
  have candidates : ∀ row ∈ rows, Candidate main row := fun row member =>
    finishing.candidates row (perm.mem_iff.mp member)
  have alone : ∀ row ∈ rows, ∀ other ∈ main.rows, other.path ≠ row.path := by
    intro row member other there
    have parked : other ∈ main.parkedRows := by simpa [Main.rows,Main.batchRows,finishing.noBatch] using there
    exact (once.2.2 _ (List.mem_map_of_mem (perm.mem_iff.mp member)) _ (List.mem_map_of_mem parked)).symm
  -- drifting rows passed the duplicate check
  have unique : ∀ row ∈ rows.filter (·.path ∈ drifting), main.duplicateInBatch rows row = false := by
    intro row member
    obtain ⟨listed,drifts⟩ := List.mem_filter.mp member
    by_contra duplicate
    have twice : row.path ∈ duplicates :=
      List.mem_map_of_mem (List.mem_filter.mpr ⟨listed,by simpa using duplicate⟩)
    exact drifting_not_rejected (by simpa using drifts) twice
  have distinct : (rows.filter (·.path ∈ drifting)).Pairwise fun row other => row.path ≠ other.path ∧
      row.prepared.manifest.id ≠ other.prepared.manifest.id := by
    have paths : (rows.filter (·.path ∈ drifting)).Pairwise fun row other => row.path ≠ other.path :=
      (List.pairwise_map.mp rowsOnce).sublist List.filter_sublist
    refine paths.imp_of_mem ?_
    intro row other first second apart
    refine ⟨apart,?_⟩
    intro same
    exact apart ((unique_in_batch (List.mem_filter.mp second).1 (unique other second)).2 row
      (List.mem_filter.mp first).1 same)
  have refusedIds : Ids refusing := by
    apply ids_refuseRows _ finishing.ids
    · exact fun row member => candidates row (List.mem_filter.mp member).1
    · exact distinct
    · intro row member _
      exact (unique_in_batch (List.mem_filter.mp member).1 (unique row member)).1
    · exact fun row member => alone row (List.mem_filter.mp member).1
  have refused : Refusing main refusing _ := refusing_refuseRows main (rows.filter (·.path ∈ drifting))
  have sameWatch : remembering.watchState = refusing.watchState :=
    foldl_same Main.watchState Main.rejectRow (fun _ _ => rfl) _ _
  have sameLoaded : remembering.loadedFrom = refusing.loadedFrom :=
    foldl_same Main.loadedFrom Main.rejectRow (fun _ _ => rfl) _ _
  have sameCalls : remembering.unloads = refusing.unloads :=
    foldl_same Main.unloads Main.rejectRow (fun _ _ => rfl) _ _
  have sameBatch : remembering.activeBatch = refusing.activeBatch :=
    foldl_same Main.activeBatch Main.rejectRow (fun _ _ => rfl) _ _
  have sameWaiting : remembering.waiting = refusing.waiting :=
    foldl_same Main.waiting Main.rejectRow (fun _ _ => rfl) _ _
  have kept : ∀ row ∈ takeLoads order byId, Candidate refusing row := by
    intro row member
    have listed : row ∈ loads := by
      have first : (takeLoads order byId).Subperm byId.values := takeLoads_subperm order byId
      have second : byId.values.Subperm loads := by simpa using loads_subperm loads ∅
      exact second.subset (first.subset member)
    obtain ⟨there,accepted⟩ := List.mem_filter.mp listed
    refine (candidates row there).keep (refused.watched ?_) (fun _ found => refused.loaded ▸ found)
    intro other member same
    have drifts := (List.mem_filter.mp member).2
    simp only [decide_eq_true_eq,rejected,List.mem_append,not_or] at drifts accepted
    exact accepted.2 (same ▸ drifts)
  refine ⟨?_,?_,?_,?_,?_⟩
  · simp only [sameWatch]
    exact refusedIds.unique
  · simp only [sameWatch,sameLoaded]
    exact refusedIds.loaded
  · intro row member
    have candidate : Candidate refusing row := by
      have noBatch : remembering.activeBatch = none := sameBatch.trans (refused.batch.trans finishing.noBatch)
      have waits : remembering.waiting = main.waiting := sameWaiting.trans refused.waiting
      simp only [Main.rows,Main.batchRows,noBatch,Main.parkedRows,waits,List.map_append,List.mem_append,
        Option.map_none,Option.getD_none,List.not_mem_nil,false_or,List.map_map] at member
      obtain (ready | taken) | waiting := member
      · apply refusedIds.candidates
        simp only [Main.rows,Main.parkedRows,refused.ready]
        exact List.mem_append_right _ (List.mem_append_left _ ready)
      · obtain ⟨row,member,rfl⟩ := List.mem_map.mp taken
        exact kept row member
      · apply refusedIds.candidates
        simp only [Main.rows,Main.parkedRows,refused.waiting]
        exact List.mem_append_right _ (List.mem_append_right _ waiting)
    exact candidate.keep (by simp only [sameWatch]) (fun _ found => sameLoaded ▸ found)
  · intro id load found fresh
    simp only [sameWaiting,sameWatch] at found ⊢
    exact refusedIds.parked found fresh
  · simp only [sameCalls]
    exact refusedIds.own

theorem Ids.finishBatchIfReady {main : Main} (ids : Ids main) (one : OneRow main) (host : Host) :
    Ids (main.finishBatchIfReady host) := by
  unfold Main.finishBatchIfReady
  split
  · exact ids
  next batch active =>
    have rows : main.rows = batch.prepared.values ++ main.parkedRows := by
      simp [Main.rows,Main.batchRows,active]
    split
    · apply ids_finishBatch
      refine ⟨?_,rfl,?_,rows ▸ one.once⟩
      · refine ids.shrink (fun _ => rfl) rfl rfl ?_ id
        intro row member
        exact rows ▸ List.mem_append_right _ member
      · intro row member
        have candidate := ids.candidates row (rows ▸ List.mem_append_left _ member)
        exact ⟨candidate.replaces,candidate.first⟩
    · exact ids

/-- Cancelling a file's work keeps its watch row and leaves it no candidate. -/
structure Cancelled (main after : Main) (path : Path) : Prop where
  ids : Ids after
  watched : after.watchState.lookup path = main.watchState.lookup path
  loaded : after.loadedFrom = main.loadedFrom
  alone : ∀ row ∈ after.rows, row.path ≠ path

theorem Ids.dropPath {main : Main} (ids : Ids main) (path : Path) : Ids (main.dropPath path) :=
  ids.shrink (fun _ => rfl) rfl rfl (fun _ member => dropPath_rows member) lookup_of_retained

theorem cancelled_cancelPathWork {main : Main} (ids : Ids main) (one : OneRow main) (host : Host) (path : Path) :
    Cancelled main (main.cancelPathWork host path) path := by
  rw [cancelPathWork_eq]
  refine ⟨(ids.dropPath path).finishBatchIfReady (one.dropPath path) host,?_,?_,?_⟩
  · unfold Main.finishBatchIfReady
    split
    · rfl
    next batch active =>
      split
      · exact finishBatch_watch (dropPath_batch one active).2 host
      · rfl
  · unfold Main.finishBatchIfReady
    split
    · rfl
    · split
      · exact finishBatch_loaded host _ _
      · rfl
  · exact fun row member => dropPath_alone one (finishBatchIfReady_rows member)

/-! ### Command intents -/

theorem Ids.detach {main : Main} (ids : Ids main) (id : String) :
    Ids { main with waiting := main.waiting.erase id } := by
  refine ids.shrink (fun _ => rfl) rfl rfl ?_ lookup_of_erased
  intro row member
  exact (List.Sublist.append (List.Sublist.refl _) (List.Sublist.append (List.Sublist.refl _)
    ((Table.values_erase _ _).map _))).subset member

theorem ids_drainUnload {s : Settings} {main : Main} (ids : Ids main) (one : OneRow main) (host : Host) (id : String) :
    Ids (main.drainUnload s host id) := by
  unfold Main.drainUnload
  extract_lets parked detached
  have detachedIds : Ids detached := ids.detach id
  have detachedOne : OneRow detached := one.detach id
  split
  · exact detachedIds
  next path found =>
    extract_lets cancelled unloaded forgotten
    have watched : main.watchState.lookup path = some id := by simpa using List.find?_some found
    have cancels := cancelled_cancelPathWork detachedIds detachedOne host path
    have still : cancelled.watchState.lookup path = some id := cancels.watched.trans watched
    have settled : Ids unloaded ∧ unloaded.loadedFrom.lookup path = none ∧
        ∀ row ∈ unloaded.rows, row.path ≠ path := by
      simp only [unloaded]
      split
      · refine ⟨cancels.ids.unloadPlugin host .command still,?_,?_⟩
        · exact unloadPlugin_unloaded s host .command cancels.ids still
        · intro row member
          exact cancels.alone row ((unloadPlugin_rows s host .command cancelled path id).mem_iff.mp member)
      next first =>
        refine ⟨cancels.ids,?_,cancels.alone⟩
        -- the load parked under this id is the file's first, so nothing is loaded from it
        cases waits : main.waiting.lookup id with
        | none => simp [parked,waits] at first
        | some load =>
          have fresh : load.row.oldId = none := by simpa [parked,waits] using first
          have same : load.row.path = path := ids.unique (ids.parked waits fresh) watched
          rw [cancels.loaded,← same]
          exact (ids.candidates _ (mem_rows_of_waiting waits)).first fresh
    have forgottenIds : Ids forgotten := (settled.1.forget settled.2.1 settled.2.2).of_same rfl rfl rfl rfl rfl rfl
    split
    · exact forgottenIds
    · exact forgottenIds.of_same rfl rfl rfl rfl rfl rfl

theorem ids_drainIntent {s : Settings} {main : Main} (ids : Ids main) (one : OneRow main) (host : Host) (id : String) :
    Ids (main.drainIntent s host id) := by
  unfold Main.drainIntent
  extract_lets drained
  have same : Ids drained := ids.of_same rfl rfl rfl rfl rfl rfl
  have sameOne : OneRow drained := one.of_rows rfl rfl rfl
  split
  · exact ids
  · exact ids_drainUnload same sameOne host id
  · unfold Main.drainReload
    split
    · unfold Main.queuePendingReload
      split <;> exact same.of_same rfl rfl rfl rfl rfl rfl
    split
    · exact same
    next path _ => exact (cancelled_cancelPathWork same sameOne host path).ids.of_same rfl rfl rfl rfl rfl rfl
  · unfold Main.drainLoad
    extract_lets cancelled
    have cancelledIds : Ids cancelled := by
      simp only [cancelled]
      split
      · exact same
      next path _ => exact (cancelled_cancelPathWork same sameOne host path).ids
    exact cancelledIds.of_same rfl rfl rfl rfl rfl rfl

end S2Script.Loader
