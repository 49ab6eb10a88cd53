import S2Script.LoaderBatches
import S2Script.LoaderAnswers

/-! Config watching over whole runs: the game thread's config steps and the
worker's turns in any order, with the files changing between reads. What the
worker holds is exact and bounded, and nothing of a retired watch stays. -/
namespace S2Script.Loader

open LoaderWorker

namespace Main

/-- Queue a read of every watched path again. -/
def queueWatched (s : Settings) (visitIds : List String) (main : Main) : Main :=
  let watched := (arrange visitIds main.configPaths.keys).filterMap fun id =>
    (main.configPaths.lookup id).bind fun path =>
      (main.configWatchGenerations.lookup path).map fun generation => (id,path,generation)
  watched.foldl (fun main (id,path,generation) => (main.queueConfig s path (.watch id generation)).2) main

theorem scheduleScan_queueWatched (s : Settings) (host : Host) (main : Main) :
    main.scheduleScan s host =
      if main.scanInFlight || main.activeBatch.isSome || !main.readyApply.isEmpty then main
      else
        let queued := main.queueWatched s host.visitIds
        let revision := (queued.scanRevision + 1) % 2 ^ 64
        let submitted := { queued with scanRevision := revision }.trySubmit s (.scan s.epoch revision s.pluginsDir)
        if submitted.1.admitted then { submitted.2 with scanInFlight := true } else submitted.2 := rfl

/-- Pop one result; a config one is handled, the others are handed on. -/
def popConfig (s : Settings) (host : Host) (main : Main) : Main :=
  let popped := main.tryResult s
  match popped.1 with
  | some (.config epoch revision path watchGeneration snapshot) =>
    if epoch = s.epoch then popped.2.handleConfig s host path revision watchGeneration snapshot
    else match watchGeneration with
      | some generation =>
        if hasProposal snapshot then popped.2.resolveConfigWatch s path generation revision false
        else popped.2
      | none => popped.2
  | _ => popped.2

/-- Popping a config result is what `popResult` does with one. -/
theorem popConfig_eq {s : Settings} {main : Main} {epoch revision : Nat} {path : Path}
    {watchGeneration : Option Nat} {snapshot : Except String ConfigSnapshot}
    (popped : (main.tryResult s).1 = some (.config epoch revision path watchGeneration snapshot)) (host : Host) :
    main.popConfig s host = main.popResult s host := by
  simp only [popConfig,popResult,popped] <;> rfl

end Main

/-- The game thread's config steps, the reads it shares the queue with, and the
worker's turns. `turns` is what the worker does before each lock of the step. A
result is handled without the plugins' handlers calling the loader back. -/
inductive ConfigEvent where
  | turn (turn : Turn)
  | watchConfigFor (id : String) (resolved : Except String Path) (turns : List (List Turn))
  | unwatchConfigFor (id : String) (turns : List (List Turn))
  | queuePlugin (configPath plugin : Path) (revision : Nat) (turns : List (List Turn))
  | queueWatched (visitIds : List String) (turns : List (List Turn))
  | preparePlugin (path : Path) (revision : Nat) (turns : List (List Turn))
  | scanPlugins (revision : Nat) (turns : List (List Turn))
  | batch (batch : Option ActiveBatch)
  | popConfig (host : Host)

def Main.follow (s : Settings) (main : Main) : ConfigEvent → Main
  | .turn turn => { main with sys := main.sys.advance s.policy turn.event }
  | .watchConfigFor id resolved turns => { main with turns := turns }.watchConfigFor s resolved id
  | .unwatchConfigFor id turns => { main with turns := turns }.unwatchConfigFor s id
  | .queuePlugin configPath plugin revision turns =>
    ({ main with turns := turns }.queueConfig s configPath (.plugin plugin revision)).2
  | .queueWatched visitIds turns => { main with turns := turns }.queueWatched s visitIds
  | .preparePlugin path revision turns =>
    ({ main with turns := turns }.trySubmit s (.plugin s.epoch revision path)).2
  | .scanPlugins revision turns =>
    ({ main with turns := turns }.trySubmit s (.scan s.epoch revision s.pluginsDir)).2
  | .batch batch => { main with activeBatch := batch }
  | .popConfig host => { main with turns := host.turns }.popConfig s { host with delivering := fun _ => [] }

def Main.followAll (s : Settings) : List ConfigEvent → Main → Main
  | [], main => main
  | event :: events, main => followAll s events (main.follow s event)

/-- The generation every path is watched at. -/
def Main.gens (main : Main) (path : Path) : Option Nat := main.configWatchGenerations.lookup path

/-! ### What the worker keeps, on every run -/

/-- The queue is sound, the byte count is exact and within its limits, and every
content is of a registered generation or of one about to be retired. -/
structure Kept (s : Settings) (gens : Path → Option Nat) (sys : System) : Prop where
  queue : Invariant s.policy sys
  exact : Exact s.policy sys.worker.baselines
  watched : Watched gens sys.worker

section Kept

variable {s : Settings} {gens : Path → Option Nat} {sys : System}

theorem kept_start (s : Settings) : Kept s (fun _ => none) {} where
  queue := invariant_start s.policy
  exact := exact_empty s.policy
  watched := watched_start

theorem Kept.turn (kept : Kept s gens sys) (sized : s.policy.Sized) (turn : Turn) :
    Kept s gens (sys.advance s.policy turn.event) where
  queue := invariant_advance sized kept.queue turn.event
  exact := by
    cases turn with
    | take =>
      have same : sys.worker.take.baselines = sys.worker.baselines := (take_keeps sys.worker).1
      simpa only [Turn.event,System.advance,same] using kept.exact
    | finish disk =>
      simp only [Turn.event,System.advance]
      obtain same | ⟨controls,_,_,_,_,baselines,_⟩ | ⟨key,request,_,_,_,_,baselines,_⟩ :=
        finish_watches s.policy disk sys.worker
      · rw [same]
        exact kept.exact
      · rw [baselines]
        exact kept.exact.controls sized controls
      · rw [baselines]
        exact kept.exact.runRequest sized disk request
  watched := by
    cases turn with
    | take => exact kept.watched.take
    | finish disk => exact kept.watched.finish s.policy disk

theorem Kept.turns (sized : s.policy.Sized) (turns : List Turn) {sys : System} (kept : Kept s gens sys) :
    Kept s gens (System.execute s.policy (turns.map Turn.event) sys) := by
  induction turns generalizing sys with
  | nil => exact kept
  | cons turn turns ih => exact ih (kept.turn sized turn)

theorem Kept.submit (kept : Kept s gens sys) (sized : s.policy.Sized) {request : Request} (asks : request.Asks gens) :
    Kept s gens (sys.submit s.policy request) where
  queue := invariant_submit sized kept.queue request
  exact := kept.exact
  watched := kept.watched.submit asks s.policy

theorem Kept.tryResult (kept : Kept s gens sys) (sized : s.policy.Sized) :
    Kept s gens (sys.advance s.policy .tryResult) where
  queue := invariant_advance sized kept.queue .tryResult
  exact := kept.exact
  watched := kept.watched.tryResult

theorem Kept.resolve (kept : Kept s gens sys) (sized : s.policy.Sized) (path : Path) (generation revision : Nat)
    (applied : Bool) : Kept s gens (sys.advance s.policy (.resolveConfigWatch path generation revision applied)) where
  queue := invariant_advance sized kept.queue (.resolveConfigWatch path generation revision applied)
  exact := kept.exact
  watched := kept.watched.resolve path generation revision applied

theorem Kept.retire (kept : Kept s gens sys) (sized : s.policy.Sized) {gens' : Path → Option Nat} {path : Path}
    {generation : Nat} (current : gens path = some generation)
    (others : ∀ other, other ≠ path → gens' other = gens other) :
    Kept s gens' (sys.advance s.policy (.retireConfigWatch path generation)) where
  queue := invariant_advance sized kept.queue (.retireConfigWatch path generation)
  exact := kept.exact
  watched := kept.watched.retire current others

theorem Kept.mint (kept : Kept s gens sys) {gens' : Path → Option Nat} {path : Path} (fresh : gens path = none)
    (others : ∀ other, other ≠ path → gens' other = gens other) : Kept s gens' sys :=
  { kept with watched := kept.watched.mint fresh others }

end Kept

/-! ### Each step of the game thread keeps it -/

@[simp] theorem overtaken_gens (s : Settings) (main : Main) : (main.overtaken s).gens = main.gens := by
  unfold Main.overtaken
  split <;> rfl

section Steps

variable {s : Settings} {main : Main}

theorem kept_overtaken (sized : s.policy.Sized) (kept : Kept s main.gens main.sys) :
    Kept s main.gens (main.overtaken s).sys := by
  unfold Main.overtaken
  split
  · exact kept
  · exact kept.turns sized _

/-- A read is asked for the generation its path is watched at, or for none. -/
theorem requestedGeneration_current {path : Path} {consumer : ConfigConsumer} {generation : Nat}
    (asked : main.requestedGeneration path consumer = some generation) : main.gens path = some generation := by
  have current : ∀ other, main.currentWatchGeneration path other = none ∨
      main.currentWatchGeneration path other = main.gens path := by
    intro other
    cases other with
    | plugin plugin revision => exact .inl rfl
    | watch id held =>
      unfold Main.currentWatchGeneration Main.gens
      simp only
      split
      next here => exact .inr here.2.symm
      · exact .inl rfl
  have later : ∀ {a b}, (a = none ∨ a = main.gens path) → (b = none ∨ b = main.gens path) →
      laterGeneration a b = none ∨ laterGeneration a b = main.gens path := by
    rintro a b (rfl | rfl) (rfl | rfl)
    · exact .inl rfl
    · exact .inr rfl
    · cases main.gens path <;> simp [laterGeneration]
    · cases main.gens path <;> simp [laterGeneration]
  have folded : ∀ (consumers : List ConfigConsumer) newest, (newest = none ∨ newest = main.gens path) →
      (consumers.foldl (fun newest other => laterGeneration newest (main.currentWatchGeneration path other))
        newest = none ∨
      consumers.foldl (fun newest other => laterGeneration newest (main.currentWatchGeneration path other))
        newest = main.gens path) := by
    intro consumers
    induction consumers with
    | nil => exact fun _ known => known
    | cons other consumers ih => exact fun _ known => ih _ (later known (current other))
  unfold Main.requestedGeneration at asked
  obtain none | same := folded (((main.configPending.lookup path).map PendingConfig.consumers).getD [])
    (main.currentWatchGeneration path consumer) (current consumer)
  · rw [none] at asked
    cases asked
  · exact same.symm.trans asked

theorem asks_config (main : Main) (epoch revision : Nat) (path : Path) (consumer : ConfigConsumer) :
    (Request.config epoch revision path (main.requestedGeneration path consumer)).Asks main.gens := by
  intro other generation watch
  cases asked : main.requestedGeneration path consumer with
  | none => simp [Request.watch,asked] at watch
  | some found =>
    simp only [Request.watch,asked,Option.some.injEq,Prod.mk.injEq] at watch
    obtain ⟨rfl,rfl⟩ := watch
    exact requestedGeneration_current asked

theorem kept_trySubmit (sized : s.policy.Sized) (kept : Kept s main.gens main.sys) {request : Request}
    (asks : request.Asks main.gens) :
    Kept s (main.trySubmit s request).2.gens (main.trySubmit s request).2.sys := by
  have same : (main.trySubmit s request).2.gens = main.gens := overtaken_gens s main
  rw [same]
  exact (kept_overtaken sized kept).submit sized asks

/-- What queueing a read does, and what it asks the worker for. -/
theorem queueConfig_asks (s : Settings) (main : Main) (path : Path) (consumer : ConfigConsumer) :
    (main.queueConfig s path consumer).2 = main ∨
    ∃ request, request.Asks main.gens ∧
      ((main.queueConfig s path consumer).2 = (main.trySubmit s request).2 ∨
      (main.queueConfig s path consumer).2 = { (main.trySubmit s request).2 with
        configPending := main.configPending.insert path
          (((main.configPending.lookup path).getD ⟨main.nextConfigRevision path,[],0⟩).joined s
            (main.nextConfigRevision path) consumer) }) := by
  by_cases admits : main.admitsConsumer s path consumer
  · refine .inr ⟨_,asks_config main s.epoch (main.nextConfigRevision path) path consumer,?_⟩
    have pending : (main.trySubmit s (.config s.epoch (main.nextConfigRevision path) path
        (main.requestedGeneration path consumer))).2.configPending = main.configPending :=
      overtaken_configPending s main
    simp only [Main.queueConfig,admits,if_true]
    split
    · exact .inr (by rw [pending])
    · exact .inl rfl
  · exact .inl (by simp [Main.queueConfig,admits])

theorem kept_queueConfig (sized : s.policy.Sized) (kept : Kept s main.gens main.sys) (path : Path)
    (consumer : ConfigConsumer) :
    Kept s (main.queueConfig s path consumer).2.gens (main.queueConfig s path consumer).2.sys := by
  obtain same | ⟨request,asks,same | same⟩ := queueConfig_asks s main path consumer <;> rw [same]
  · exact kept
  · exact kept_trySubmit sized kept asks
  · exact kept_trySubmit sized kept asks

theorem kept_queueWatched (sized : s.policy.Sized) (kept : Kept s main.gens main.sys) (visitIds : List String) :
    Kept s (main.queueWatched s visitIds).gens (main.queueWatched s visitIds).sys := by
  unfold Main.queueWatched
  extract_lets watched
  induction watched generalizing main with
  | nil => exact kept
  | cons entry watched ih => exact ih (kept_queueConfig sized kept entry.2.1 (.watch entry.1 entry.2.2))

/-- The state in which a first watch of a path queues its read. -/
def Main.watching (main : Main) (id : String) (path : Path) : Main :=
  let fresh := (main.nextConfigWatchGeneration + 1) % 2 ^ 64
  let minted :=
    if path ∈ main.configWatchGenerations then main
    else { main with
      nextConfigWatchGeneration := fresh
      configWatchGenerations := main.configWatchGenerations.insert path fresh }
  { minted with configPaths := minted.configPaths.insert id path }

theorem watchConfigFor_cases (s : Settings) (main : Main) (resolved : Except String Path) (id : String) :
    main.watchConfigFor s resolved id = main ∨
    ∃ path generation, resolved = .ok path ∧ id ∉ main.configPaths ∧
      main.watchConfigFor s resolved id = ((main.watching id path).queueConfig s path (.watch id generation)).2 := by
  unfold Main.watchConfigFor
  split
  · exact .inl rfl
  next unwatched =>
    split
    · exact .inl rfl
    next path => exact .inr ⟨path,_,rfl,unwatched,rfl⟩

theorem watching_cases (main : Main) (id : String) (path : Path) :
    (path ∈ main.configWatchGenerations ∧
      main.watching id path = { main with configPaths := main.configPaths.insert id path }) ∨
    (main.gens path = none ∧ main.watching id path = { main with
      nextConfigWatchGeneration := (main.nextConfigWatchGeneration + 1) % 2 ^ 64
      configWatchGenerations :=
        main.configWatchGenerations.insert path ((main.nextConfigWatchGeneration + 1) % 2 ^ 64)
      configPaths := main.configPaths.insert id path }) := by
  by_cases known : path ∈ main.configWatchGenerations
  · exact .inl ⟨known,by simp [Main.watching,known]⟩
  · exact .inr ⟨AList.lookup_eq_none.mpr known,by simp [Main.watching,known]⟩

theorem kept_watching (kept : Kept s main.gens main.sys) (id : String) (path : Path) :
    Kept s (main.watching id path).gens (main.watching id path).sys := by
  obtain ⟨_,same⟩ | ⟨fresh,same⟩ := watching_cases main id path <;> rw [same]
  · exact kept
  · apply kept.mint fresh
    intro other apart
    simp [Main.gens,apart]

theorem kept_watchConfigFor (sized : s.policy.Sized) (kept : Kept s main.gens main.sys) (id : String)
    (resolved : Except String Path) :
    Kept s (main.watchConfigFor s resolved id).gens (main.watchConfigFor s resolved id).sys := by
  obtain same | ⟨path,generation,_,_,same⟩ := watchConfigFor_cases s main resolved id <;> rw [same]
  · exact kept
  · exact kept_queueConfig sized (kept_watching kept id path) path _

/-- Forgetting a watcher; the last one of a path ends its generation, and the
worker is told. -/
theorem unwatchConfigFor_cases (s : Settings) (main : Main) (id : String) :
    let forgotten := { main with
      configSeeded := main.configSeeded.erase id
      configPaths := main.configPaths.erase id }
    (id ∉ main.configPaths ∧ main.unwatchConfigFor s id = { main with configSeeded := main.configSeeded.erase id }) ∨
    (main.unwatchConfigFor s id = forgotten ∧ ∃ path, main.configPaths.lookup id = some path ∧
      ((∃ other, forgotten.configPaths.lookup other = some path) ∨ main.gens path = none)) ∨
    ∃ path generation, main.configPaths.lookup id = some path ∧
      (∀ other, forgotten.configPaths.lookup other ≠ some path) ∧ main.gens path = some generation ∧
      main.unwatchConfigFor s id = { main.overtaken s with
        configSeeded := main.configSeeded.erase id
        configPaths := main.configPaths.erase id
        configWatchGenerations := main.configWatchGenerations.erase path
        sys := (main.overtaken s).sys.advance s.policy (.retireConfigWatch path generation) } := by
  intro forgotten
  cases found : main.configPaths.lookup id with
  | none => exact .inl ⟨AList.lookup_eq_none.mp found,by simp [Main.unwatchConfigFor,found]⟩
  | some path =>
    simp only [Main.unwatchConfigFor,found]
    split
    next shared =>
      obtain ⟨⟨other,watched⟩,member,same⟩ := List.any_eq_true.mp shared
      obtain rfl := eq_of_beq same
      exact .inr (.inl ⟨rfl,_,rfl,.inl ⟨other,AList.mem_lookup_iff.mpr member⟩⟩)
    next alone =>
      split
      next none => exact .inr (.inl ⟨rfl,path,rfl,.inr none⟩)
      next generation current =>
        refine .inr (.inr ⟨path,generation,rfl,?_,current,?_⟩)
        · intro other here
          exact alone (List.any_eq_true.mpr ⟨_,AList.mem_lookup_iff.mp here,by simp⟩)
        · simp only [Main.retireConfigWatch,Main.overtaken]
          cases turns : main.turns <;> simp [turns]

theorem kept_unwatchConfigFor (sized : s.policy.Sized) (kept : Kept s main.gens main.sys) (id : String) :
    Kept s (main.unwatchConfigFor s id).gens (main.unwatchConfigFor s id).sys := by
  obtain ⟨_,same⟩ | ⟨same,_⟩ | ⟨path,generation,_,_,current,same⟩ := unwatchConfigFor_cases s main id <;> rw [same]
  · exact kept
  · exact kept
  · apply (kept_overtaken sized kept).retire sized current
    intro other apart
    simp [Main.gens,apart]

/-- What handling a result leaves to the worker's own turns. -/
structure SameWatch (before after : Main) : Prop where
  sys : after.sys = before.sys
  turns : after.turns = before.turns
  configPaths : after.configPaths = before.configPaths
  generations : after.configWatchGenerations = before.configWatchGenerations
  next : after.nextConfigWatchGeneration = before.nextConfigWatchGeneration
  configPending : after.configPending = before.configPending

theorem SameWatch.refl (main : Main) : SameWatch main main := ⟨rfl,rfl,rfl,rfl,rfl,rfl⟩

theorem SameWatch.trans {first second third : Main} (before : SameWatch first second)
    (after : SameWatch second third) : SameWatch first third :=
  ⟨after.sys.trans before.sys,after.turns.trans before.turns,after.configPaths.trans before.configPaths,
    after.generations.trans before.generations,after.next.trans before.next,
    after.configPending.trans before.configPending⟩

theorem sameWatch_attachConfig (host : Host) (main : Main) (path : Path) (snapshot : ConfigSnapshot) :
    SameWatch main (main.attachConfig host path snapshot) := by
  unfold Main.attachConfig
  split
  · exact ⟨rfl,rfl,rfl,rfl,rfl,rfl⟩
  · split <;> exact ⟨rfl,rfl,rfl,rfl,rfl,rfl⟩

theorem sameWatch_consume {host : Host} (atomic : ∀ id, host.delivering id = []) (path : Path)
    (watchGeneration : Option Nat) (result : Except String ConfigSnapshot) (state : Main × Nat)
    (consumer : ConfigConsumer) :
    SameWatch state.1 (Main.consume s host path watchGeneration result state consumer).1 := by
  cases consumer with
  | plugin plugin revision =>
    simp only [Main.consume]
    split
    · exact .refl _
    · split
      · exact sameWatch_attachConfig host state.1 plugin _
      · exact ⟨rfl,rfl,rfl,rfl,rfl,rfl⟩
  | watch id generation =>
    simp only [Main.consume]
    split
    · exact .refl _
    split
    · exact .refl _
    split
    · exact .refl _
    · simp only [Main.deliver,atomic,List.foldl_nil]
      split <;> exact ⟨rfl,rfl,rfl,rfl,rfl,rfl⟩

theorem sameWatch_consumers {host : Host} (atomic : ∀ id, host.delivering id = []) (path : Path)
    (watchGeneration : Option Nat) (result : Except String ConfigSnapshot) (consumers : List ConfigConsumer)
    (state : Main × Nat) :
    SameWatch state.1 (consumers.foldl (Main.consume s host path watchGeneration result) state).1 := by
  induction consumers generalizing state with
  | nil => exact .refl _
  | cons consumer consumers ih => exact (sameWatch_consume atomic path watchGeneration result state consumer).trans (ih _)

theorem sameWatch_finishBatchIfReady (host : Host) (main : Main) :
    SameWatch main (main.finishBatchIfReady host) := by
  have same : ∀ batch, SameWatch main ({ main with activeBatch := none }.finishBatch host batch) := fun batch => {
    sys := finishBatch_same Main.sys (fun _ _ => rfl) (fun _ _ => rfl) (fun _ _ => rfl) host _ batch
    turns := finishBatch_same Main.turns (fun _ _ => rfl) (fun _ _ => rfl) (fun _ _ => rfl) host _ batch
    configPaths := finishBatch_same Main.configPaths (fun _ _ => rfl) (fun _ _ => rfl) (fun _ _ => rfl) host _ batch
    generations := finishBatch_same Main.configWatchGenerations (fun _ _ => rfl) (fun _ _ => rfl)
      (fun _ _ => rfl) host _ batch
    next := finishBatch_same Main.nextConfigWatchGeneration (fun _ _ => rfl) (fun _ _ => rfl)
      (fun _ _ => rfl) host _ batch
    configPending := finishBatch_same Main.configPending (fun _ _ => rfl) (fun _ _ => rfl)
      (fun _ _ => rfl) host _ batch }
  unfold Main.finishBatchIfReady
  split
  · exact .refl _
  · split
    · exact same _
    · exact .refl _

theorem Kept.of_same {after : Main} (kept : Kept s main.gens main.sys) (same : SameWatch main after) :
    Kept s after.gens after.sys := by
  have gens : after.gens = main.gens := by
    unfold Main.gens
    rw [same.generations]
  rw [gens,same.sys]
  exact kept

theorem kept_tryResult (sized : s.policy.Sized) (kept : Kept s main.gens main.sys) :
    Kept s (main.tryResult s).2.gens (main.tryResult s).2.sys := by
  have same : (main.tryResult s).2.gens = main.gens := overtaken_gens s main
  rw [same]
  exact (kept_overtaken sized kept).tryResult sized

theorem kept_resolveConfigWatch (sized : s.policy.Sized) (kept : Kept s main.gens main.sys) (path : Path)
    (generation revision : Nat) (applied : Bool) :
    Kept s (main.resolveConfigWatch s path generation revision applied).gens
      (main.resolveConfigWatch s path generation revision applied).sys := by
  have same : (main.resolveConfigWatch s path generation revision applied).gens = main.gens :=
    overtaken_gens s main
  rw [same]
  exact (kept_overtaken sized kept).resolve sized path generation revision applied

theorem kept_handleConfig (sized : s.policy.Sized) (kept : Kept s main.gens main.sys) {host : Host}
    (atomic : ∀ id, host.delivering id = []) (path : Path) (revision : Nat) (watchGeneration : Option Nat)
    (result : Except String ConfigSnapshot) :
    Kept s (main.handleConfig s host path revision watchGeneration result).gens
      (main.handleConfig s host path revision watchGeneration result).sys := by
  unfold Main.handleConfig
  extract_lets resolving taken
  clear_value resolving
  split
  · split
    · exact kept
    · exact kept_resolveConfigWatch sized kept path _ _ _
  next row _ =>
    extract_lets consumed resolved
    have handled : Kept s consumed.1.gens consumed.1.sys :=
      @Kept.of_same s taken _ kept
        (sameWatch_consumers atomic path watchGeneration result row.consumers (taken,0))
    refine Kept.of_same ?_ (sameWatch_finishBatchIfReady host resolved)
    simp only [resolved]
    split
    · exact handled
    · exact kept_resolveConfigWatch sized handled path _ _ _

theorem kept_popConfig (sized : s.policy.Sized) (kept : Kept s main.gens main.sys) {host : Host}
    (atomic : ∀ id, host.delivering id = []) :
    Kept s (main.popConfig s host).gens (main.popConfig s host).sys := by
  have popped := kept_tryResult sized kept
  unfold Main.popConfig
  simp only
  split
  · split
    · exact kept_handleConfig sized popped atomic _ _ _ _
    split
    · split
      · exact kept_resolveConfigWatch sized popped _ _ _ _
      · exact popped
    · exact popped
  · exact popped

theorem kept_follow (sized : s.policy.Sized) (kept : Kept s main.gens main.sys) (event : ConfigEvent) :
    Kept s (main.follow s event).gens (main.follow s event).sys := by
  have ready : ∀ turns, Kept s { main with turns := turns }.gens { main with turns := turns }.sys := fun _ => kept
  cases event with
  | turn turn => exact kept.turn sized turn
  | watchConfigFor id resolved turns => exact kept_watchConfigFor sized (ready turns) id resolved
  | unwatchConfigFor id turns => exact kept_unwatchConfigFor sized (ready turns) id
  | queuePlugin configPath plugin revision turns => exact kept_queueConfig sized (ready turns) configPath _
  | queueWatched visitIds turns => exact kept_queueWatched sized (ready turns) visitIds
  | preparePlugin path revision turns => exact kept_trySubmit sized (ready turns) (by simp [Request.Asks,Request.watch])
  | scanPlugins revision turns => exact kept_trySubmit sized (ready turns) (by simp [Request.Asks,Request.watch])
  | batch batch => exact kept
  | popConfig host => exact kept_popConfig sized (ready host.turns) fun _ => rfl

end Steps

theorem kept_followAll {s : Settings} (sized : s.policy.Sized) (events : List ConfigEvent) {main : Main}
    (kept : Kept s main.gens main.sys) :
    Kept s (Main.followAll s events main).gens (Main.followAll s events main).sys := by
  induction events generalizing main with
  | nil => exact kept
  | cons event events ih => exact ih (kept_follow sized kept event)

end S2Script.Loader
