import S2Script.LoaderBatches

/-! Every file has at most one candidate. Its row is in the batch, ready or
parked, never in two of these, and a file the batch still reads has none parked. -/
namespace S2Script.Loader

open LoaderWorker

namespace Main

/-- The candidates prepared in the batch. -/
def batchRows (main : Main) : List PreparedLoad :=
  (main.activeBatch.map fun batch => batch.prepared.values).getD []

/-- The candidates ready to apply or parked for their dependencies. -/
def parkedRows (main : Main) : List PreparedLoad :=
  main.readyApply.map ApplyItem.row ++ main.waiting.values.map WaitingLoad.row

def rows (main : Main) : List PreparedLoad := main.batchRows ++ main.parkedRows

end Main

/-- One candidate a file, and every table keyed by what its rows say. -/
structure OneRow (main : Main) : Prop where
  once : (main.rows.map PreparedLoad.path).Nodup
  unread : ∀ {batch path}, main.activeBatch = some batch → path ∈ batch.pending →
    ∀ row ∈ main.parkedRows, row.path ≠ path
  prepared : ∀ {batch path row}, main.activeBatch = some batch → batch.prepared.lookup path = some row →
    row.path = path
  waiting : ∀ {id load}, main.waiting.lookup id = some load → load.row.prepared.manifest.id = id

theorem nodup_of_subperm {α β : Type} (f : α → β) {fewer more : List α} (sub : fewer.Subperm more)
    (distinct : (more.map f).Nodup) : (fewer.map f).Nodup := by
  obtain ⟨middle,perm,sublist⟩ := sub
  exact (perm.map f).nodup_iff.mp (distinct.sublist (sublist.map f))

/-- Rows only leave or move between ready and parked; the batch reads no more. -/
theorem OneRow.shrink {main after : Main} (one : OneRow main) (rows : after.rows.Subperm main.rows)
    (parked : ∀ row ∈ after.parkedRows, row ∈ main.parkedRows)
    (batch : ∀ {batch}, after.activeBatch = some batch → ∃ old, main.activeBatch = some old ∧
      (∀ path, path ∈ batch.pending → path ∈ old.pending) ∧
      ∀ path row, batch.prepared.lookup path = some row → old.prepared.lookup path = some row)
    (waiting : ∀ {id load}, after.waiting.lookup id = some load → main.waiting.lookup id = some load) :
    OneRow after where
  once := nodup_of_subperm _ rows one.once
  unread := by
    intro found path active pending row member
    obtain ⟨old,was,reads,_⟩ := batch active
    exact one.unread was (reads path pending) row (parked row member)
  prepared := by
    intro found path row active held
    obtain ⟨old,was,_,holds⟩ := batch active
    exact one.prepared was (holds path row held)
  waiting := fun found => one.waiting (waiting found)

/-! ### What the host asks of the loader moves parked rows only -/

/-- Parked rows may become ready; nothing else of the files changes. -/
structure Rearranged (main after : Main) : Prop where
  parked : after.parkedRows.Perm main.parkedRows
  waiting : ∀ {id load}, after.waiting.lookup id = some load → main.waiting.lookup id = some load
  batch : after.activeBatch = main.activeBatch
  watchState : after.watchState = main.watchState
  fileStamps : after.fileStamps = main.fileStamps
  suppressed : after.suppressed = main.suppressed
  loadedFrom : after.loadedFrom = main.loadedFrom
  refused : after.refused = main.refused
  unloads : after.unloads = main.unloads

theorem Rearranged.refl (main : Main) : Rearranged main main := by
  constructor <;> first | exact List.Perm.refl _ | rfl | exact id

theorem Rearranged.trans {main middle after : Main} (first : Rearranged main middle)
    (second : Rearranged middle after) : Rearranged main after where
  parked := second.parked.trans first.parked
  waiting := fun found => first.waiting (second.waiting found)
  batch := second.batch.trans first.batch
  watchState := second.watchState.trans first.watchState
  fileStamps := second.fileStamps.trans first.fileStamps
  suppressed := second.suppressed.trans first.suppressed
  loadedFrom := second.loadedFrom.trans first.loadedFrom
  refused := second.refused.trans first.refused
  unloads := second.unloads.trans first.unloads

theorem Rearranged.rows {main after : Main} (moved : Rearranged main after) : after.rows.Perm main.rows := by
  have batch : after.batchRows = main.batchRows := by simp [Main.batchRows,moved.batch]
  rw [Main.rows,Main.rows,batch]
  exact moved.parked.append_left _

theorem rearranged_overtaken (s : Settings) (main : Main) : Rearranged main (main.overtaken s) := by
  unfold Main.overtaken
  split
  · exact .refl main
  · exact { Rearranged.refl main with }

theorem rearranged_queueConfig (s : Settings) (main : Main) (path : Path) (consumer : ConfigConsumer) :
    Rearranged main (main.queueConfig s path consumer).2 := by
  have here := rearranged_overtaken s main
  obtain outcome | ⟨request,_,_,⟨_,outcome⟩ | ⟨_,outcome⟩⟩ := queueConfig_cases s main path consumer
  · rw [outcome]
    exact .refl main
  · rw [outcome]
    exact { here with }
  · rw [outcome]
    exact { here with }

theorem rearranged_enqueueIntent (s : Settings) (main : Main) (id : String) (op : PendingOp) :
    Rearranged main (main.enqueueIntent s id op) := by
  unfold Main.enqueueIntent
  extract_lets oldBytes usedBytes grown
  split
  · exact .refl main
  split
  · exact .refl main
  · exact { Rearranged.refl main with }

theorem rearranged_requestReload (s : Settings) (main : Main) (id : String) :
    Rearranged main (main.requestReload s id) := by
  unfold Main.requestReload
  split
  · exact rearranged_enqueueIntent s main id .reload
  · exact .refl main

theorem rearranged_unpark (published : String → Bool) (frame : Nat) (main : Main) (id : String) :
    Rearranged main (main.unpark published frame id) := by
  unfold Main.unpark
  split
  · exact .refl main
  next load found =>
    split
    · exact .refl main
    · refine { Rearranged.refl main with parked := ?_, waiting := ?_ }
      · have perm := (Table.values_erase_perm found).map WaitingLoad.row
        simp only [Main.parkedRows,List.map_append,List.map_cons,List.map_nil,List.append_assoc,
          List.singleton_append]
        exact perm.symm.append_left _
      · intro other held there
        simp only [Table.lookup_erase_eq] at there
        split at there
        · contradiction
        · exact there

theorem rearranged_callback (s : Settings) (main : Main) (callback : Callback) :
    Rearranged main (callback.run s main) := by
  cases callback with
  | watchConfigFor id resolved =>
    simp only [Callback.run,Main.watchConfigFor]
    split
    · exact .refl main
    split
    · exact .refl main
    · refine Rearranged.trans ?_ (rearranged_queueConfig s _ _ _)
      split <;> exact { Rearranged.refl main with }
  | unwatchConfigFor id =>
    simp only [Callback.run,Main.unwatchConfigFor]
    split
    · exact { Rearranged.refl main with }
    next path _ =>
      split
      · exact { Rearranged.refl main with }
      split
      · exact { Rearranged.refl main with }
      · have unwatched : Rearranged main { main with
            configSeeded := main.configSeeded.erase id
            configPaths := main.configPaths.erase id
            configWatchGenerations := main.configWatchGenerations.erase path } := { Rearranged.refl main with }
        exact { unwatched.trans (rearranged_overtaken s _) with }
  | startUnblockedWaiters visit published frame =>
    simp only [Callback.run,Main.startUnblockedWaiters]
    generalize arrange visit main.waiting.keys = ids
    induction ids generalizing main with
    | nil => exact .refl main
    | cons id ids ih => exact (rearranged_unpark published frame main id).trans (ih _)
  | settle id =>
    simp only [Callback.run,Main.settle]
    split
    · exact .refl main
    · have settled : Rearranged main { main with loading := main.loading.erase id } := { Rearranged.refl main with }
      split
      · exact settled.trans (rearranged_requestReload s _ id)
      · exact settled
  | requestUnload id =>
    simp only [Callback.run,Main.requestUnload]
    split
    · exact rearranged_enqueueIntent s main id .unload
    · exact .refl main
  | requestReload id => exact rearranged_requestReload s main id
  | requestLoad id found =>
    simp only [Callback.run,Main.requestLoad]
    split
    · exact rearranged_enqueueIntent s main id .load
    split
    · exact .refl main
    split
    · exact .refl main
    · exact { Rearranged.refl main with }

theorem rearranged_callbacks (s : Settings) (callbacks : List Callback) (main : Main) :
    Rearranged main (callbacks.foldl (Callback.run s) main) := by
  induction callbacks generalizing main with
  | nil => exact .refl main
  | cons callback callbacks ih => exact (rearranged_callback s main callback).trans (ih _)

theorem OneRow.rearrange {main after : Main} (one : OneRow main) (moved : Rearranged main after) :
    OneRow after := by
  apply one.shrink moved.rows.subperm
  · exact fun row member => moved.parked.mem_iff.mp member
  · intro batch active
    exact ⟨batch,moved.batch.symm.trans active,fun _ => id,fun _ _ => id⟩
  · exact moved.waiting

/-! ### The batch -/

theorem removeBatchPath_rows (main : Main) (path : Path) :
    (main.removeBatchPath path).rows.Sublist main.rows ∧
      (main.removeBatchPath path).parkedRows = main.parkedRows := by
  refine ⟨?_,rfl⟩
  refine List.Sublist.append ?_ (List.Sublist.refl _)
  unfold Main.removeBatchPath Main.batchRows
  cases main.activeBatch with
  | none => exact List.Sublist.refl _
  | some batch => exact Table.values_erase batch.prepared path

/-- Lookups that survive an erased key were there before. -/
theorem lookup_of_erased {K V : Type} [DecidableEq K] {table : Table K V} {gone key : K} {value : V}
    (found : (table.erase gone).lookup key = some value) : table.lookup key = some value := by
  rw [Table.lookup_erase_eq] at found
  split at found
  · contradiction
  · exact found

theorem lookup_of_retained {K V : Type} [DecidableEq K] {table : Table K V} {keep : K → V → Bool} {key : K} {value : V}
    (found : (table.retain keep).lookup key = some value) : table.lookup key = some value := by
  rw [Table.lookup_retain] at found
  exact (Option.filter_eq_some_iff.mp found).1

/-- Dropping a file's parked rows leaves the others. -/
theorem mem_parkedRows_dropped {main after : Main} {path : Path}
    (ready : after.readyApply = main.readyApply.filter (·.row.path ≠ path))
    (waiting : after.waiting = main.waiting.retain fun _ load => load.row.path ≠ path) {row : PreparedLoad} :
    row ∈ after.parkedRows ↔ row ∈ main.parkedRows ∧ row.path ≠ path := by
  simp only [Main.parkedRows,ready,waiting,List.mem_append,List.mem_map,List.mem_filter,decide_eq_true_eq,
    Table.mem_values,Table.lookup_retain,Option.filter_eq_some_iff]
  constructor
  · rintro (⟨item,⟨found,apart⟩,rfl⟩ | ⟨load,⟨id,found,apart⟩,rfl⟩)
    · exact ⟨.inl ⟨item,found,rfl⟩,apart⟩
    · exact ⟨.inr ⟨load,⟨id,found⟩,rfl⟩,apart⟩
  · rintro ⟨⟨item,found,rfl⟩ | ⟨load,⟨id,found⟩,rfl⟩,apart⟩
    · exact .inl ⟨item,⟨found,apart⟩,rfl⟩
    · exact .inr ⟨load,⟨id,found,apart⟩,rfl⟩

theorem OneRow.detach {main : Main} (one : OneRow main) (id : String) :
    OneRow { main with waiting := main.waiting.erase id } := by
  apply one.shrink
  · exact List.Sublist.subperm (List.Sublist.append (List.Sublist.refl _)
      (List.Sublist.append (List.Sublist.refl _) ((Table.values_erase _ _).map _)))
  · intro row member
    exact (List.Sublist.append (List.Sublist.refl _) ((Table.values_erase _ _).map _)).subset member
  · intro batch active
    exact ⟨batch,active,fun _ member => member,fun _ _ held => held⟩
  · exact fun found => lookup_of_erased found

theorem OneRow.removeBatchPath {main : Main} (one : OneRow main) (path : Path) :
    OneRow (main.removeBatchPath path) := by
  obtain ⟨fewer,same⟩ := removeBatchPath_rows main path
  apply one.shrink fewer.subperm
  · exact fun row member => same ▸ member
  · intro batch active
    obtain ⟨old,found,rfl⟩ := Option.map_eq_some_iff.mp active
    exact ⟨old,found,fun _ member => (AList.mem_erase.mp member).2,fun _ _ held => lookup_of_erased held⟩
  · exact id

theorem OneRow.settleBatchPath {main : Main} (one : OneRow main) (path : Path) :
    OneRow (main.settleBatchPath path) := by
  have same : (main.settleBatchPath path).rows = main.rows := by
    unfold Main.settleBatchPath Main.rows Main.batchRows
    cases main.activeBatch <;> rfl
  apply one.shrink (same ▸ List.Subperm.refl _)
  · exact fun row member => member
  · intro batch active
    obtain ⟨old,found,rfl⟩ := Option.map_eq_some_iff.mp active
    exact ⟨old,found,fun _ member => (AList.mem_erase.mp member).2,fun _ _ held => held⟩
  · exact id

/-- A candidate joins the batch only for a file the batch still reads. -/
theorem OneRow.holdRow {main : Main} (one : OneRow main) {row : PreparedLoad} {batch : ActiveBatch}
    (active : main.activeBatch = some batch) (pending : row.path ∈ batch.pending) :
    OneRow (main.holdRow row) := by
  have held : (main.holdRow row).activeBatch =
      some { batch with prepared := batch.prepared.insert row.path row } := by
    simp [Main.holdRow,active]
  have rows : (main.holdRow row).rows =
      row :: (Table.values (batch.prepared.erase row.path) ++ main.parkedRows) := by
    rw [Main.rows,Main.batchRows,held]
    simp [Table.values_insert,Main.parkedRows,Main.holdRow]
  have others : (Table.values (batch.prepared.erase row.path) ++ main.parkedRows).Sublist main.rows := by
    refine List.Sublist.append ?_ (List.Sublist.refl _)
    simp only [Main.batchRows,active,Option.map_some,Option.getD_some]
    exact Table.values_erase batch.prepared row.path
  refine ⟨?_,?_,?_,one.waiting⟩
  · rw [rows,List.map_cons,List.nodup_cons]
    refine ⟨?_,one.once.sublist (others.map _)⟩
    intro member
    obtain ⟨other,among,same⟩ := List.mem_map.mp member
    obtain prepared | parked := List.mem_append.mp among
    · obtain ⟨path,found⟩ := (Table.mem_values _ other).mp prepared
      have keyed := one.prepared active (lookup_of_erased found)
      rw [Table.lookup_erase_eq] at found
      split at found
      · contradiction
      next apart => exact apart (keyed.symm.trans same)
    · exact one.unread active pending other parked same
  · intro found path now waits other parked
    rw [held] at now
    obtain rfl := Option.some.inj now
    exact one.unread active waits other parked
  · intro found path other now there
    rw [held] at now
    obtain rfl := Option.some.inj now
    simp only [Table.lookup_insert_eq] at there
    split at there
    next same => exact Option.some.inj there ▸ same.symm
    · exact one.prepared active there

/-- The loads a batch releases are rows of that batch, none twice. -/
theorem takeLoads_subperm (ids : List String) (loads : Table String PreparedLoad) :
    (takeLoads ids loads).Subperm loads.values := by
  induction ids generalizing loads with
  | nil => exact List.nil_subperm
  | cons id ids ih =>
    unfold takeLoads
    split
    · exact ih loads
    next row found =>
      exact ((List.subperm_cons row).mpr (ih _)).trans (Table.values_erase_perm found).symm.subperm

theorem loads_subperm (rows : List PreparedLoad) (loads : Table String PreparedLoad) :
    (rows.foldl (fun loads row => loads.insert row.prepared.manifest.id row) loads).values.Subperm
      (rows ++ loads.values) := by
  induction rows generalizing loads with
  | nil => exact List.Subperm.refl _
  | cons row rows ih =>
    refine (ih _).trans ?_
    rw [Table.values_insert]
    have fewer : (rows ++ row :: (Table.values (loads.erase row.prepared.manifest.id))).Subperm
        (rows ++ row :: loads.values) :=
      (List.Sublist.append (List.Sublist.refl rows) ((Table.values_erase loads _).cons_cons row)).subperm
    exact fewer.trans List.perm_middle.subperm

theorem lookup_keys {V : Type} (table : Table Path V) : table.keys.filterMap table.lookup = table.values := by
  have each : ∀ entry ∈ table.entries, table.lookup entry.1 = some entry.2 := fun entry member =>
    (Table.lookup_iff_entry table entry.1 entry.2).mpr member
  rw [AList.keys,List.keys,List.filterMap_map]
  exact (List.filterMap_congr each).trans (by simp [Table.values])

/-- The rows of a batch, in the order it is visited. -/
theorem arranged_perm {V : Type} (visit : List Path) (table : Table Path V) :
    ((arrange visit table.keys).filterMap table.lookup).Perm table.values := by
  have same : (arrange visit table.keys).Perm table.keys :=
    (List.perm_ext_iff_of_nodup (nodup_arrange visit table.keys_nodup) table.keys_nodup).mpr
      (mem_arrange visit table.keys)
  rw [← lookup_keys table]
  exact same.filterMap _

theorem finishBatch_waiting (host : Host) (main : Main) (batch : ActiveBatch) :
    (main.finishBatch host batch).waiting = main.waiting :=
  finishBatch_same Main.waiting (fun _ _ => rfl) (fun _ _ => rfl) (fun _ _ => rfl) host main batch

/-- A finished batch: its rows are ready or gone. -/
theorem finishBatch_parked (host : Host) (main : Main) (batch : ActiveBatch) :
    (main.finishBatch host batch).parkedRows.Subperm (batch.prepared.values ++ main.parkedRows) := by
  have waits := finishBatch_waiting host main batch
  unfold Main.finishBatch at waits ⊢
  extract_lets rows duplicates drifting refusing rejected remembering loads order byId
  have released : (takeLoads order byId).Subperm batch.prepared.values := by
    have first : (takeLoads order byId).Subperm byId.values := takeLoads_subperm order byId
    have second : byId.values.Subperm loads := by simpa using loads_subperm loads ∅
    have third : loads.Subperm rows := List.filter_sublist.subperm
    exact first.trans (second.trans (third.trans (arranged_perm host.visit batch.prepared).subperm))
  have parked : Main.parkedRows { remembering with
        readyApply := main.readyApply ++ (takeLoads order byId).map (⟨·,false⟩) } =
      main.readyApply.map ApplyItem.row ++ (takeLoads order byId ++ main.waiting.values.map WaitingLoad.row) := by
    simp only [Main.parkedRows]
    rw [show remembering.waiting = main.waiting from waits]
    simp [Function.comp_def]
  rw [parked]
  have moved : (main.readyApply.map ApplyItem.row ++
      (takeLoads order byId ++ main.waiting.values.map WaitingLoad.row)).Perm
      (takeLoads order byId ++ main.parkedRows) := by
    rw [← List.append_assoc,Main.parkedRows,← List.append_assoc]
    exact List.perm_append_comm.append_right _
  exact moved.subperm.trans ((List.subperm_append_right _).mpr released)

theorem OneRow.finishBatchIfReady {main : Main} (one : OneRow main) (host : Host) :
    OneRow (main.finishBatchIfReady host) := by
  unfold Main.finishBatchIfReady
  split
  · exact one
  next batch active =>
    split
    · have noBatch : (Main.finishBatch host { main with activeBatch := none } batch).activeBatch = none :=
        congrArg Traffic.activeBatch (finishBatch_traffic host { main with activeBatch := none } batch)
      have rows : (Main.finishBatch host { main with activeBatch := none } batch).rows.Subperm main.rows := by
        simp only [Main.rows,Main.batchRows,noBatch,active,Option.map_none,Option.map_some,Option.getD_none,
          Option.getD_some,List.nil_append]
        exact finishBatch_parked host _ batch
      refine ⟨nodup_of_subperm _ rows one.once,?_,?_,?_⟩
      · intro found path now
        simp [noBatch] at now
      · intro found path row now
        simp [noBatch] at now
      · intro id load found
        rw [finishBatch_waiting] at found
        exact one.waiting found
    · exact one

/-- A file's candidates and its read dropped, before the batch is looked at again. -/
def Main.dropPath (main : Main) (path : Path) : Main :=
  let removed := main.removeBatchPath path
  { removed with
    readyApply := removed.readyApply.filter (·.row.path ≠ path)
    waiting := removed.waiting.retain fun _ load => load.row.path ≠ path }

theorem cancelPathWork_eq (host : Host) (main : Main) (path : Path) :
    main.cancelPathWork host path = (main.dropPath path).finishBatchIfReady host := rfl

theorem dropPath_parked (main : Main) (path : Path) {row : PreparedLoad} :
    row ∈ (main.dropPath path).parkedRows ↔ row ∈ main.parkedRows ∧ row.path ≠ path :=
  mem_parkedRows_dropped rfl rfl

theorem OneRow.dropPath {main : Main} (one : OneRow main) (path : Path) : OneRow (main.dropPath path) := by
  apply (one.removeBatchPath path).shrink
  · exact List.Sublist.subperm (List.Sublist.append (List.Sublist.refl _)
      (List.Sublist.append (List.filter_sublist.map _) ((Table.values_retain _ _).map _)))
  · exact fun row member => ((dropPath_parked main path).mp member).1
  · intro batch active
    exact ⟨batch,active,fun _ => id,fun _ _ => id⟩
  · exact fun found => lookup_of_retained found

/-- What the batch still holds once a file is dropped. -/
theorem dropPath_batch {main : Main} (one : OneRow main) {path : Path} {batch : ActiveBatch}
    (active : (main.dropPath path).activeBatch = some batch) :
    path ∉ batch.pending ∧ ∀ row ∈ batch.prepared.values, row.path ≠ path := by
  obtain ⟨old,found,rfl⟩ := Option.map_eq_some_iff.mp active
  refine ⟨fun member => (AList.mem_erase.mp member).1 rfl,?_⟩
  intro row member
  obtain ⟨key,held⟩ := (Table.mem_values _ row).mp member
  have keyed := one.prepared found (lookup_of_erased held)
  simp only [Table.lookup_erase_eq] at held
  split at held
  · contradiction
  next apart => exact keyed ▸ apart

theorem dropPath_rows {main : Main} {path : Path} {row : PreparedLoad} (member : row ∈ (main.dropPath path).rows) :
    row ∈ main.rows := by
  obtain batch | parked := List.mem_append.mp member
  · exact (removeBatchPath_rows main path).1.subset (List.mem_append_left _ batch)
  · exact List.mem_append_right _ ((dropPath_parked main path).mp parked).1

theorem dropPath_alone {main : Main} (one : OneRow main) {path : Path} {row : PreparedLoad}
    (member : row ∈ (main.dropPath path).rows) : row.path ≠ path := by
  obtain held | parked := List.mem_append.mp member
  · cases active : (main.dropPath path).activeBatch with
    | none => simp [Main.batchRows,active] at held
    | some batch =>
      simp only [Main.batchRows,active,Option.map_some,Option.getD_some] at held
      exact (dropPath_batch one active).2 row held
  · exact ((dropPath_parked main path).mp parked).2

/-- Finishing a batch brings in no candidate. -/
theorem finishBatchIfReady_rows {host : Host} {main : Main} {row : PreparedLoad}
    (member : row ∈ (main.finishBatchIfReady host).rows) : row ∈ main.rows := by
  unfold Main.finishBatchIfReady at member
  split at member
  · exact member
  next batch active =>
    split at member
    · have noBatch : (Main.finishBatch host { main with activeBatch := none } batch).activeBatch = none :=
        congrArg Traffic.activeBatch (finishBatch_traffic host { main with activeBatch := none } batch)
      have before : main.rows = batch.prepared.values ++ main.parkedRows := by
        simp [Main.rows,Main.batchRows,active]
      have left : (Main.finishBatch host { main with activeBatch := none } batch).rows =
          (Main.finishBatch host { main with activeBatch := none } batch).parkedRows := by
        rw [Main.rows,Main.batchRows,noBatch]
        rfl
      rw [left] at member
      rw [before]
      exact (finishBatch_parked host { main with activeBatch := none } batch).subset member
    · exact member

theorem OneRow.cancelPathWork {main : Main} (one : OneRow main) (host : Host) (path : Path) :
    OneRow (main.cancelPathWork host path) :=
  (one.dropPath path).finishBatchIfReady host

/-! ### The steps -/

/-- Changes of files, stamps and intents leave the candidates where they are. -/
theorem OneRow.of_rows {main after : Main} (one : OneRow main) (batch : after.activeBatch = main.activeBatch)
    (ready : after.readyApply = main.readyApply) (waiting : after.waiting = main.waiting) : OneRow after := by
  have parked : after.parkedRows = main.parkedRows := by simp [Main.parkedRows,ready,waiting]
  have rows : after.rows = main.rows := by simp [Main.rows,Main.batchRows,batch,parked]
  apply one.shrink (rows ▸ List.Subperm.refl _)
  · exact fun row member => parked ▸ member
  · intro found active
    exact ⟨found,batch ▸ active,fun _ => id,fun _ _ => id⟩
  · intro id load found
    exact waiting ▸ found

theorem OneRow.unloadPlugin {s : Settings} {main : Main} (one : OneRow main) (host : Host) (cause : Cause)
    (path : Path) (id : String) : OneRow (main.unloadPlugin s host cause path id) := by
  unfold Main.unloadPlugin
  extract_lets unloaded
  have same : OneRow unloaded := one.of_rows rfl rfl rfl
  exact same.rearrange (rearranged_callbacks s _ unloaded)

theorem oneRow_drainIntent {s : Settings} {main : Main} (one : OneRow main) (host : Host) (id : String) :
    OneRow (main.drainIntent s host id) := by
  unfold Main.drainIntent
  extract_lets drained
  have same : OneRow drained := one.of_rows rfl rfl rfl
  split
  · exact one
  · unfold Main.drainUnload
    extract_lets parked detached
    have detachedOne : OneRow detached := same.detach id
    split
    · exact detachedOne
    next path _ =>
      extract_lets cancelled unloaded forgotten
      have cancelledOne : OneRow cancelled := detachedOne.cancelPathWork host path
      have unloadedOne : OneRow unloaded := by
        simp only [unloaded]
        split
        · exact cancelledOne.unloadPlugin host .command path id
        · exact cancelledOne
      split <;> exact unloadedOne.of_rows rfl rfl rfl
  · unfold Main.drainReload
    split
    · unfold Main.queuePendingReload
      split <;> exact same.of_rows rfl rfl rfl
    split
    · exact same
    next path _ => exact (same.cancelPathWork host path).of_rows rfl rfl rfl
  · unfold Main.drainLoad
    extract_lets cancelled
    have cancelledOne : OneRow cancelled := by
      simp only [cancelled]
      split
      · exact same
      next path _ => exact same.cancelPathWork host path
    exact cancelledOne.of_rows rfl rfl rfl

theorem oneRow_handlePlugin {s : Settings} {main : Main} (one : OneRow main) (host : Host) (revision : Nat)
    (path : Path) (result : Except String PreparedPlugin) :
    OneRow (main.handlePlugin s host revision path result) := by
  unfold Main.handlePlugin
  split
  · exact one
  next expected =>
    rw [not_not] at expected
    obtain ⟨batch,active,pending⟩ := Option.bind_eq_some_iff.mp expected
    extract_lets oldId
    split
    · exact (one.settleBatchPath path).finishBatchIfReady host
    next prepared =>
      extract_lets row held
      have heldOne : OneRow held := one.holdRow active (Table.mem_of_lookup pending)
      split
      · have refused : OneRow (main.refusePrepared path prepared oldId) := one.of_rows rfl rfl rfl
        exact (refused.settleBatchPath path).finishBatchIfReady host
      split
      · exact (one.settleBatchPath path).finishBatchIfReady host
      split
      · exact (heldOne.settleBatchPath path).finishBatchIfReady host
      split
      · apply OneRow.finishBatchIfReady
        exact (heldOne.removeBatchPath path).of_rows rfl rfl rfl
      · extract_lets queued
        have queuedOne : OneRow queued.2 := heldOne.rearrange (rearranged_queueConfig s held _ _)
        split
        · exact queuedOne
        · exact (queuedOne.removeBatchPath path).finishBatchIfReady host

theorem oneRow_consume {s : Settings} {state : Main × Nat} (one : OneRow state.1) (host : Host) (path : Path)
    (watchGeneration : Option Nat) (result : Except String ConfigSnapshot) (consumer : ConfigConsumer) :
    OneRow (Main.consume s host path watchGeneration result state consumer).1 := by
  cases consumer with
  | plugin plugin revision =>
    simp only [Main.consume]
    split
    · exact one
    next awaited =>
      split
      · unfold Main.attachConfig
        split
        · exact one.removeBatchPath plugin
        next row held =>
          obtain ⟨batch,active,found⟩ := Option.bind_eq_some_iff.mp held
          have keyed := one.prepared active found
          have pending : plugin ∈ batch.pending := by
            have waits : batch.pending.lookup plugin = some revision := by
              simpa [Main.awaitsConfig,active] using awaited
            exact Table.mem_of_lookup waits
          split
          · refine OneRow.settleBatchPath (one.holdRow active ?_) plugin
            exact keyed.symm ▸ pending
          · exact one.removeBatchPath plugin
      · exact one.removeBatchPath plugin
  | watch id generation =>
    simp only [Main.consume]
    split
    · exact one
    split
    · exact one
    split
    · exact one
    · unfold Main.deliver
      extract_lets seeded marked delivered
      have same : OneRow delivered := one.of_rows rfl rfl rfl
      split
      · exact same.rearrange (rearranged_callbacks s _ delivered)
      · exact one.of_rows rfl rfl rfl

theorem oneRow_consumers {s : Settings} (host : Host) (path : Path) (watchGeneration : Option Nat)
    (result : Except String ConfigSnapshot) (consumers : List ConfigConsumer) {state : Main × Nat}
    (one : OneRow state.1) :
    OneRow (consumers.foldl (Main.consume s host path watchGeneration result) state).1 := by
  induction consumers generalizing state with
  | nil => exact one
  | cons consumer consumers ih => exact ih (oneRow_consume one host path watchGeneration result consumer)

theorem rearranged_resolveConfigWatch (s : Settings) (main : Main) (path : Path) (generation revision : Nat)
    (applied : Bool) : Rearranged main (main.resolveConfigWatch s path generation revision applied) :=
  { rearranged_overtaken s main with }

theorem oneRow_handleConfig {s : Settings} {main : Main} (one : OneRow main) (host : Host) (path : Path)
    (revision : Nat) (watchGeneration : Option Nat) (result : Except String ConfigSnapshot) :
    OneRow (main.handleConfig s host path revision watchGeneration result) := by
  unfold Main.handleConfig
  extract_lets resolving taken
  clear_value resolving
  split
  · cases resolving with
    | none => exact one
    | some generation => exact one.rearrange (rearranged_resolveConfigWatch s main _ _ _ _)
  next row _ =>
    have takenOne : OneRow taken := one.of_rows rfl rfl rfl
    have consumed : OneRow (row.consumers.foldl (Main.consume s host path watchGeneration result) (taken,0)).1 :=
      oneRow_consumers host path watchGeneration result row.consumers takenOne
    apply OneRow.finishBatchIfReady
    cases resolving with
    | none => exact consumed
    | some generation => exact consumed.rearrange (rearranged_resolveConfigWatch s _ _ _ _ _)

/-! ### Scans and applying -/

theorem cancelPathWork_noBatch {main : Main} (noBatch : main.activeBatch = none) (host : Host) (path : Path) :
    main.cancelPathWork host path = { main with
      readyApply := main.readyApply.filter (·.row.path ≠ path)
      waiting := main.waiting.retain fun _ load => load.row.path ≠ path } := by
  simp [Main.cancelPathWork,Main.removeBatchPath,Main.finishBatchIfReady,noBatch]

/-- No batch is out, and the candidates are one a file. -/
structure Settled (main : Main) : Prop where
  one : OneRow main
  noBatch : main.activeBatch = none

theorem Settled.rearrange {main after : Main} (settled : Settled main) (moved : Rearranged main after) :
    Settled after := ⟨settled.one.rearrange moved,moved.batch.trans settled.noBatch⟩

theorem Settled.of_rows {main after : Main} (settled : Settled main) (batch : after.activeBatch = main.activeBatch)
    (ready : after.readyApply = main.readyApply) (waiting : after.waiting = main.waiting) : Settled after :=
  ⟨settled.one.of_rows batch ready waiting,batch.trans settled.noBatch⟩

theorem settled_vanish {s : Settings} {main : Main} (settled : Settled main) (host : Host) (gone : Path × String) :
    Settled (main.vanish s host gone) := by
  unfold Main.vanish
  extract_lets retained cancelled unloaded
  have cancelledOne : Settled cancelled := by
    refine ⟨settled.one.cancelPathWork host gone.1,?_⟩
    simp only [cancelled,cancelPathWork_noBatch settled.noBatch]
    exact settled.noBatch
  have unloadedOne : Settled unloaded := by
    simp only [unloaded]
    split
    · unfold Main.unloadPlugin
      extract_lets dropped
      have same : Settled dropped := cancelledOne.of_rows rfl rfl rfl
      exact same.rearrange (rearranged_callbacks s _ dropped)
    · exact cancelledOne
  exact unloadedOne.of_rows rfl rfl rfl

theorem settled_sweep {s : Settings} (host : Host) (vanished : List (Path × String)) {main : Main}
    (settled : Settled main) : Settled (vanished.foldl (Main.vanish s host) main) := by
  induction vanished generalizing main with
  | nil => exact settled
  | cons gone vanished ih => exact ih (settled_vanish settled host gone)

/-- A batch being built reads only files without a candidate. -/
structure Reading (building : Main × ActiveBatch) : Prop where
  settled : Settled building.1
  unread : ∀ {path}, path ∈ building.2.pending → ∀ row ∈ building.1.parkedRows, row.path ≠ path
  empty : building.2.prepared = ∅

theorem reading_prepareFile {s : Settings} {building : Main × ActiveBatch} (reading : Reading building)
    (file : Path × FileStamp) : Reading (Main.prepareFile s building file) := by
  unfold Main.prepareFile
  extract_lets main batch revision dropped submitted
  split
  · exact reading
  have fewer : ∀ row ∈ dropped.parkedRows, row ∈ main.parkedRows ∧ row.path ≠ file.1 := fun row =>
    (mem_parkedRows_dropped rfl rfl).mp
  have droppedSettled : Settled dropped := by
    refine ⟨?_,reading.settled.noBatch⟩
    apply reading.settled.one.shrink
    · exact List.Sublist.subperm (List.Sublist.append (List.Sublist.refl _)
        (List.Sublist.append (List.filter_sublist.map _) ((Table.values_retain _ _).map _)))
    · exact fun row member => (fewer row member).1
    · intro found active
      exact ⟨found,active,fun _ member => member,fun _ _ held => held⟩
    · exact fun found => lookup_of_retained found
  have moved : Rearranged dropped submitted.2 := { rearranged_overtaken s dropped with }
  refine ⟨droppedSettled.rearrange moved,?_,?_⟩
  · intro path pending row member
    obtain ⟨old,apart⟩ := fewer row (moved.parked.mem_iff.mp member)
    simp only at pending
    split at pending
    · obtain rfl | before := (AList.mem_insert _).mp pending
      · exact apart
      · exact reading.unread before row old
    · exact reading.unread pending row old
  · simp only
    split <;> exact reading.empty

theorem reading_files {s : Settings} (files : List (Path × FileStamp)) {building : Main × ActiveBatch}
    (reading : Reading building) : Reading (files.foldl (Main.prepareFile s) building) := by
  induction files generalizing building with
  | nil => exact reading
  | cons file files ih => exact ih (reading_prepareFile reading file)

theorem oneRow_handleScan {s : Settings} {main : Main} (settled : Settled main) (host : Host) (revision : Nat)
    (entries : Except String (List (Path × FileStamp))) : OneRow (main.handleScan s host revision entries) := by
  unfold Main.handleScan
  extract_lets landed sessions
  have landedOne : Settled landed := settled.of_rows rfl rfl rfl
  split
  · exact landedOne.one
  split
  · exact landedOne.one
  next entries =>
    extract_lets current retained vanished swept files built
    have sweptOne : Settled swept := settled_sweep host vanished (landedOne.of_rows rfl rfl rfl)
    have finished : Reading built := reading_files files ⟨sweptOne,by simp,rfl⟩
    split
    · exact finished.settled.one
    · have noRows : Main.rows { built.1 with activeBatch := some built.2 } = built.1.rows := by
        simp [Main.rows,Main.batchRows,finished.settled.noBatch,finished.empty,Main.parkedRows]
      refine ⟨?_,?_,?_,finished.settled.one.waiting⟩
      · rw [noRows]
        exact finished.settled.one.once
      · intro batch path active pending
        obtain rfl := Option.some.inj active
        exact finished.unread pending
      · intro batch path row active held
        obtain rfl := Option.some.inj active
        simp [finished.empty] at held

/-- Parking a candidate whose file has no other. -/
theorem OneRow.park {main : Main} (one : OneRow main) {row : PreparedLoad}
    (alone : ∀ other ∈ main.rows, other.path ≠ row.path)
    (unread : ∀ {batch}, main.activeBatch = some batch → row.path ∉ batch.pending) (stamp : FileStamp)
    (watched : String) (frame : Nat) :
    OneRow { main.commitPath row.path stamp watched with
      waiting := main.waiting.insert row.prepared.manifest.id ⟨row,frame⟩ } := by
  have parked : (Main.parkedRows { main.commitPath row.path stamp watched with
      waiting := main.waiting.insert row.prepared.manifest.id ⟨row,frame⟩ }).Subperm (row :: main.parkedRows) := by
    simp only [Main.parkedRows,Table.values_insert,List.map_cons]
    have fewer : (main.readyApply.map ApplyItem.row ++
        row :: (Table.values (main.waiting.erase row.prepared.manifest.id)).map WaitingLoad.row).Subperm
        (main.readyApply.map ApplyItem.row ++ row :: main.waiting.values.map WaitingLoad.row) :=
      (List.Sublist.append (List.Sublist.refl _) (((Table.values_erase _ _).map _).cons_cons row)).subperm
    exact fewer.trans List.perm_middle.subperm
  have rows : (Main.rows { main.commitPath row.path stamp watched with
      waiting := main.waiting.insert row.prepared.manifest.id ⟨row,frame⟩ }).Subperm (row :: main.rows) :=
    ((List.subperm_append_left _).mpr parked).trans List.perm_middle.subperm
  refine ⟨nodup_of_subperm _ rows ?_,?_,one.prepared,?_⟩
  · rw [List.map_cons,List.nodup_cons]
    refine ⟨?_,one.once⟩
    intro member
    obtain ⟨other,among,same⟩ := List.mem_map.mp member
    exact alone other among same
  · intro batch path active pending other member
    obtain rfl | old := List.mem_cons.mp (parked.subset member)
    · rintro rfl
      exact unread active pending
    · exact one.unread active pending other old
  · intro id load found
    simp only [Table.lookup_insert_eq] at found
    split at found
    next same => exact (Option.some.inj found) ▸ same.symm
    · exact one.waiting found

/-- The candidate popped for applying leaves the rows, and its file has no other. -/
theorem popped_applyReady {main : Main} (one : OneRow main) {item : ApplyItem} {ready : List ApplyItem}
    (queued : main.readyApply = item :: ready) :
    (item.row :: Main.rows { main with readyApply := ready }).Perm main.rows ∧
    ∀ other ∈ Main.rows { main with readyApply := ready }, other.path ≠ item.row.path := by
  have rows : main.rows.Perm (item.row :: Main.rows { main with readyApply := ready }) := by
    simp only [Main.rows,Main.batchRows,Main.parkedRows,queued,List.map_cons,List.cons_append]
    exact List.perm_middle
  refine ⟨rows.symm,?_⟩
  have distinct := (rows.map PreparedLoad.path).nodup_iff.mp one.once
  rw [List.map_cons,List.nodup_cons] at distinct
  intro other member same
  exact distinct.1 (List.mem_map.mpr ⟨other,member,same⟩)

theorem oneRow_applyReady {s : Settings} {main : Main} (one : OneRow main) (host : Host) :
    OneRow (main.applyReady s host) := by
  unfold Main.applyReady
  split
  · exact one
  next item ready queued =>
    -- the popped candidate leaves the rows; parking puts the same one back
    obtain ⟨rows,alone⟩ := popped_applyReady one queued
    have popped : OneRow { main with readyApply := ready } := by
      apply one.shrink ((List.sublist_cons_self _ _).subperm.trans rows.subperm)
      · intro row member
        simp only [Main.parkedRows,queued,List.map_cons,List.cons_append]
        exact List.mem_cons_of_mem _ member
      · intro batch active
        exact ⟨batch,active,fun _ member => member,fun _ _ held => held⟩
      · exact fun found => found
    have unread : ∀ {batch}, main.activeBatch = some batch → item.row.path ∉ batch.pending := by
      intro batch active pending
      exact one.unread active pending item.row (by simp [Main.parkedRows,queued]) rfl
    have outcome := Main.applied s host { main with readyApply := ready } item
    generalize Main.applyPrepared s host { main with readyApply := ready } item = after at outcome
    cases outcome with
    | ungated => exact popped.of_rows rfl rfl rfl
    | duplicate => exact popped.of_rows rfl rfl rfl
    | refused => exact popped.of_rows rfl rfl rfl
    | parked _ _ _ _ _ frame => exact popped.park alone unread item.row.prepared.stamp _ frame
    | behind old =>
      unfold Main.queuePendingReload
      split <;> exact popped.of_rows rfl rfl rfl
    | deferred =>
      unfold Main.deferPrepared
      split <;> exact popped.of_rows rfl rfl rfl
    | loaded _ _ replaced _ retired =>
      have replacedOne : OneRow replaced := by
        obtain ⟨_,rfl⟩ | ⟨old,_,rfl⟩ := retired
        · exact popped
        · exact popped.unloadPlugin host .replaced _ old
      unfold Main.beginLoad
      extract_lets id started ran
      have startedOne : OneRow started := replacedOne.of_rows rfl rfl rfl
      have ranOne : OneRow ran := startedOne.rearrange (rearranged_callbacks s _ started)
      exact ranOne.of_rows rfl rfl rfl

/-! ### Whole runs -/

theorem rearranged_tryResult (s : Settings) (main : Main) : Rearranged main (main.tryResult s).2 :=
  { rearranged_overtaken s main with }

/-- A scan answers only while no batch is out. -/
theorem noBatch_of_scanned {s : Settings} (sized : s.policy.Sized) {main : Main} (owed : Owed s main)
    {epoch revision : Nat} {entries : Except String (List (Path × FileStamp))}
    (scanned : (main.tryResult s).1 = some (.scan epoch revision entries)) : main.activeBatch = none := by
  obtain ⟨_,⟨nothing,_⟩ | ⟨key,result,popped,isFor,_,_,_,owes,_⟩⟩ := tryResult_serving sized owed
  · rw [nothing] at scanned
    contradiction
  · rw [popped] at scanned
    obtain rfl := Option.some.inj scanned
    cases key with
    | scan dir => exact (owed.serving.scanning (owed.serving.scans owes).2).1
    | plugin path => exact isFor.elim
    | config path => exact isFor.elim

theorem oneRow_popResult {s : Settings} (sized : s.policy.Sized) {main : Main} (owed : Owed s main)
    (one : OneRow main) (host : Host) : OneRow (main.popResult s host) := by
  have moved := rearranged_tryResult s main
  have after : OneRow (main.tryResult s).2 := one.rearrange moved
  unfold Main.popResult
  extract_lets popped
  split
  · exact after
  next epoch revision entries scanned =>
    split
    · have noBatch := noBatch_of_scanned sized owed scanned
      exact oneRow_handleScan ⟨after,moved.batch.trans noBatch⟩ host revision entries
    · exact after
  next epoch revision path prepared _ =>
    split
    · exact oneRow_handlePlugin after host revision path prepared
    · exact after
  next epoch revision path watchGeneration snapshot _ =>
    split
    · exact oneRow_handleConfig after host path revision watchGeneration snapshot
    split
    · split
      · exact after.rearrange (rearranged_resolveConfigWatch s _ _ _ _ _)
      · exact after
    · exact after

theorem rearranged_queueWatched (s : Settings) (watched : List (String × Path × Nat)) (main : Main) :
    Rearranged main (watched.foldl (fun main (id,path,generation) =>
      (main.queueConfig s path (.watch id generation)).2) main) := by
  induction watched generalizing main with
  | nil => exact .refl main
  | cons watch watched ih => exact (rearranged_queueConfig s main _ _).trans (ih _)

theorem rearranged_scheduleScan (s : Settings) (host : Host) (main : Main) :
    Rearranged main (main.scheduleScan s host) := by
  unfold Main.scheduleScan
  split
  · exact .refl main
  · extract_lets watched queued revision submitted
    have first : Rearranged main queued := rearranged_queueWatched s watched main
    have revised : Rearranged queued { queued with scanRevision := revision } := { Rearranged.refl queued with }
    have second : Rearranged { queued with scanRevision := revision } submitted.2 :=
      { rearranged_overtaken s { queued with scanRevision := revision } with }
    have third : Rearranged main submitted.2 := first.trans (revised.trans second)
    split
    · exact { third with }
    · exact third

/-- What holds of the candidates between any two steps. -/
structure Orderly (s : Settings) (main : Main) : Prop where
  owed : Owed s main
  one : OneRow main

theorem orderly_advance {s : Settings} (sized : s.policy.Sized) {main : Main} (orderly : Orderly s main)
    (event : Event) : Orderly s (main.advance s event) := by
  refine ⟨owed_advance sized orderly.owed event,?_⟩
  have ready : ∀ turns, Orderly s { main with turns := turns } := fun _ =>
    ⟨orderly.owed.of_traffic rfl,orderly.one.of_rows rfl rfl rfl⟩
  cases event with
  | turn turn => exact orderly.one.of_rows rfl rfl rfl
  | callback callback turns => exact (ready turns).one.rearrange (rearranged_callback s _ callback)
  | drainIntent id host => exact oneRow_drainIntent (ready host.turns).one host id
  | popResult host => exact oneRow_popResult sized (ready host.turns).owed (ready host.turns).one host
  | applyReady host => exact oneRow_applyReady (ready host.turns).one host
  | scheduleScan host => exact (ready host.turns).one.rearrange (rearranged_scheduleScan s host _)

theorem orderly_start (s : Settings) : Orderly s {} where
  owed := owed_start s
  one := by
    refine ⟨by simp [Main.rows,Main.batchRows,Main.parkedRows],?_,?_,?_⟩
    · intro batch path active
      simp at active
    · intro batch path row active
      simp at active
    · intro id load found
      simp at found

end S2Script.Loader
