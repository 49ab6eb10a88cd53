import S2Script.LoaderWatches

/-! What a config result promises until it is resolved. Between the read and the
resolution the worker changes nothing the result spoke of, and at most one
resolution of a path is on its way. -/
namespace S2Script.LoaderWorker

/-- A resolution the worker has not applied. -/
def Worker.Resolving (worker : Worker) (path : Path) (resolution : Nat × Nat × Bool) : Prop :=
  (worker.state.controlAt path).resolution = some resolution ∨
    (worker.takenAt path).resolution = some resolution

/-- A retirement the worker has not applied. -/
def Worker.Retiring (worker : Worker) (path : Path) (retired : Nat) : Prop :=
  (worker.state.controlAt path).retireGeneration = some retired ∨
    (worker.takenAt path).retireGeneration = some retired

@[simp] theorem lock_state (worker : Worker) (state : State) : (worker.lock state).state = state := rfl

@[simp] theorem takenAt_lock (worker : Worker) (state : State) (path : Path) :
    (worker.lock state).takenAt path = worker.takenAt path := rfl

namespace ConfigCell

/-- What a result of a read says of its path's cell. -/
inductive Answers (cell : ConfigCell) (generation revision : Nat) : ConfigSnapshot → Prop
  | pressure (content : Option String) (stamp : Option FileStamp) :
    Answers cell generation revision ⟨content,stamp,.pressure⟩
  | unchanged (content : Option String) (stamp : Option FileStamp)
    (same : cell.value = some ⟨generation,content⟩) : Answers cell generation revision ⟨content,stamp,.unchanged⟩
  | seed (content : Option String) (stamp : Option FileStamp)
    (unseen : ∀ old, cell.value = some old → old.generation ≠ generation)
    (proposed : cell.proposal = some ⟨generation,revision,content⟩) :
    Answers cell generation revision ⟨content,stamp,.seed⟩
  | changed (content : Option String) (stamp : Option FileStamp) (old : Option String)
    (committed : cell.value = some ⟨generation,old⟩) (differs : old ≠ content)
    (proposed : cell.proposal = some ⟨generation,revision,content⟩) :
    Answers cell generation revision ⟨content,stamp,.changed⟩

theorem Read.answers {before after : ConfigCell} {generation revision : Nat} {snapshot : ConfigSnapshot}
    (read : before.Read generation revision (.ok snapshot) after) : after.Answers generation revision snapshot := by
  cases read with
  | pressure content stamp => exact .pressure content stamp
  | unchanged content stamp same => exact .unchanged content stamp same
  | seed content stamp unseen => exact .seed content stamp unseen rfl
  | changed content stamp old committed differs => exact .changed content stamp old committed differs rfl

theorem Read.value {before after : ConfigCell} {generation revision : Nat}
    {result : Except String ConfigSnapshot} (read : before.Read generation revision result after) :
    after.value = before.value := by
  cases read <;> rfl

/-- A control that resolves nothing and retires only older generations. -/
structure Spares (control : ConfigControl) (generation : Nat) : Prop where
  resolution : control.resolution = none
  retired : ∀ retired, control.retireGeneration = some retired → retired < generation

section Spared

variable {cell : ConfigCell} {control : ConfigControl} {generation : Nat}

theorem value_of_spared (spares : Spares control generation) {content : Option String}
    (here : cell.value = some ⟨generation,content⟩) : (cell.control control).value = some ⟨generation,content⟩ := by
  unfold ConfigCell.control
  rw [spares.resolution]
  cases ends : control.retireGeneration with
  | none => exact here
  | some retired => simp [retire,here,spares.retired retired ends]

theorem proposal_of_spared (spares : Spares control generation) {revision : Nat} {content : Option String}
    (here : cell.proposal = some ⟨generation,revision,content⟩) :
    (cell.control control).proposal = some ⟨generation,revision,content⟩ := by
  unfold ConfigCell.control
  rw [spares.resolution]
  cases ends : control.retireGeneration with
  | none => exact here
  | some retired => simp [retire,here,spares.retired retired ends]

theorem value_sub_of_control (none : control.resolution = none) {old : ConfigBaseline}
    (here : (cell.control control).value = some old) : cell.value = some old := by
  unfold ConfigCell.control at here
  rw [none] at here
  cases ends : control.retireGeneration with
  | none => simpa [ends] using here
  | some retired =>
    simp only [ends,retire] at here
    exact (Option.filter_eq_some_iff.mp here).1

theorem Answers.spared (spares : Spares control generation) {revision : Nat} {snapshot : ConfigSnapshot}
    (answers : cell.Answers generation revision snapshot) :
    (cell.control control).Answers generation revision snapshot := by
  cases answers with
  | pressure content stamp => exact .pressure content stamp
  | unchanged content stamp same => exact .unchanged content stamp (value_of_spared spares same)
  | seed content stamp unseen proposed =>
    exact .seed content stamp (fun old here => unseen old (value_sub_of_control spares.resolution here))
      (proposal_of_spared spares proposed)
  | changed content stamp old committed differs proposed =>
    exact .changed content stamp old (value_of_spared spares committed) differs
      (proposal_of_spared spares proposed)

end Spared

end ConfigCell

/-- A resolution on its way finds its proposal, and nothing else of its path is
being read. -/
structure Settling (gens : Path → Option Nat) (next : Nat) (worker : Worker) (path : Path)
    (generation revision : Nat) (applied : Bool) : Prop where
  bounded : generation ≤ next
  idle : .config path ∉ worker.state.inFlight
  unanswered : ∀ result, (.config path,result) ∉ worker.state.results
  proposed : gens path = some generation →
    ∃ content, (worker.baselines.cell path).proposal = some ⟨generation,revision,content⟩
  stale : applied = true → ∀ current, gens path = some current → current ≠ generation →
    ¬(worker.baselines.cell path).Holds current

/-- What results, reads, resolutions and retirements say of the generations
their paths are watched at; `next` is the newest generation. -/
structure Answering (gens : Path → Option Nat) (next : Nat) (worker : Worker) : Prop where
  known : ∀ {path generation}, gens path = some generation → generation ≤ next
  retiring : ∀ {path retired}, worker.Retiring path retired → retired ≤ next ∧
    ∀ generation, gens path = some generation → retired < generation
  resolving : ∀ {path generation revision applied}, worker.Resolving path (generation,revision,applied) →
    Settling gens next worker path generation revision applied
  single : ∀ {path resolution}, (worker.takenAt path).resolution = some resolution →
    (worker.state.controlAt path).resolution = none
  reading : ∀ {key epoch revision path generation},
    worker.turn = some (.request key (.config epoch revision path (some generation))) →
    generation ≤ next ∧ (gens path = some generation → worker.state.registeredAt path = some generation)
  answered : ∀ {key epoch revision path generation snapshot},
    (key,.config epoch revision path (some generation) (.ok snapshot)) ∈ worker.state.results →
    generation ≤ next ∧ (gens path = some generation →
      worker.state.registeredAt path = some generation ∧
        (worker.baselines.cell path).Answers generation revision snapshot)

section Answering

variable {gens : Path → Option Nat} {next : Nat} {worker : Worker}

theorem answering_start : Answering (fun _ => none) 0 {} where
  known := by simp
  retiring := by
    intro path retired ends
    obtain here | here := ends <;> cases here
  resolving := by
    intro path generation revision applied ends
    obtain here | here := ends <;> cases here
  single := by
    intro path resolution here
    cases here
  reading := by simp
  answered := by simp

/-- Fewer answers, reads, resolutions and retirements, and the same contents. -/
theorem Answering.of_fewer (answering : Answering gens next worker) {after : Worker}
    (baselines : after.baselines = worker.baselines)
    (resolving : ∀ {path resolution}, after.Resolving path resolution → worker.Resolving path resolution)
    (retiring : ∀ {path retired}, after.Retiring path retired → worker.Retiring path retired)
    (single : ∀ {path resolution}, (after.takenAt path).resolution = some resolution →
      (after.state.controlAt path).resolution = none)
    (inFlight : after.state.inFlight ⊆ worker.state.inFlight)
    (results : after.state.results ⊆ worker.state.results)
    (turn : ∀ {key request}, after.turn = some (.request key request) →
      worker.turn = some (.request key request))
    (registered : ∀ {path generation}, gens path = some generation →
      worker.state.registeredAt path = some generation → after.state.registeredAt path = some generation) :
    Answering gens next after where
  known := answering.known
  retiring := fun ends => answering.retiring (retiring ends)
  resolving := by
    intro path generation revision applied ends
    have before := answering.resolving (resolving ends)
    exact {
      bounded := before.bounded
      idle := fun member => before.idle (inFlight member)
      unanswered := fun result member => before.unanswered result (results member)
      proposed := by
        rw [baselines]
        exact before.proposed
      stale := by
        rw [baselines]
        exact before.stale }
  single := single
  reading := by
    intro key epoch revision path generation running
    have before := answering.reading (turn running)
    exact ⟨before.1,fun current => registered current (before.2 current)⟩
  answered := by
    intro key epoch revision path generation snapshot member
    have before := answering.answered (results member)
    rw [baselines]
    exact ⟨before.1,fun current => ⟨registered current (before.2 current).1,(before.2 current).2⟩⟩

/-- A retirement on its way spares the generation its path is watched at. -/
theorem Answering.spares (answering : Answering gens next worker) {path : Path} {generation : Nat}
    (current : gens path = some generation) (unresolved : (worker.takenAt path).resolution = none) :
    ConfigCell.Spares (worker.takenAt path) generation where
  resolution := unresolved
  retired := fun _ ends => (answering.retiring (.inr ends)).2 generation current

theorem Answering.take (answering : Answering gens next worker) (watched : Watched gens worker) :
    Answering gens next worker.take := by
  obtain ⟨baselines,results⟩ := take_keeps worker
  obtain ⟨turn,inFlight,watches⟩ | ⟨idle,taken,inFlight,watches⟩ | ⟨key,request,idle,quiet,_,taken,watches⟩ :=
    take_watches worker
  · have same : ∀ path, worker.take.state.controlAt path = worker.state.controlAt path ∧
        worker.take.takenAt path = worker.takenAt path := fun path => by
      unfold State.controlAt Worker.takenAt
      rw [watches,turn]
      exact ⟨rfl,rfl⟩
    apply answering.of_fewer baselines
    · simp [Worker.Resolving,same]
    · simp [Worker.Retiring,same]
    · intro path resolution running
      rw [(same path).2] at running
      rw [(same path).1]
      exact answering.single running
    · rw [inFlight]
    · rw [results]
      exact List.Subset.refl _
    · rw [turn]
      exact id
    · simp [State.registeredAt,watches]
  · have waiting : ∀ path, worker.take.state.controlAt path = {} := fun path => by
      unfold State.controlAt
      rw [watches]
    have running : ∀ path, worker.take.takenAt path = worker.state.controlAt path := fun path => by
      rw [takenAt_controls taken,controlFor_controls]
    apply answering.of_fewer baselines
    · simp only [Worker.Resolving,waiting,running]
      rintro path resolution (none | here)
      · cases none
      · exact .inl here
    · simp only [Worker.Retiring,waiting,running]
      rintro path retired (none | here)
      · cases none
      · exact .inl here
    · simp [waiting]
    · rw [inFlight]
    · rw [results]
      exact List.Subset.refl _
    · simp [taken]
    · simp [State.registeredAt,watches]
  · have waiting : ∀ path, worker.take.state.controlAt path = {} := fun path => by
      unfold State.controlAt
      rw [watches]
      exact controlAt_of_controls quiet path
    have running := takenAt_request taken
    have registered : ∀ path, worker.take.state.registeredAt path = worker.state.registeredAt path := fun path => by
      unfold State.registeredAt
      rw [watches]
    constructor
    · exact answering.known
    · simp [Worker.Retiring,waiting,running]
    · simp [Worker.Resolving,waiting,running]
    · simp [waiting]
    · intro found epoch revision path generation reading
      rw [taken,Option.some.injEq,WorkerTurn.request.injEq] at reading
      have current := registeredAt_of_current reading.2
      rw [registered]
      exact ⟨answering.known (watched.registered current),fun _ => current⟩
    · intro found epoch revision path generation snapshot member
      rw [results] at member
      rw [baselines,registered]
      exact answering.answered member

theorem Answering.finish (answering : Answering gens next worker) (watched : Watched gens worker)
    (placed : worker.state.queue.Placed) {last : WorkKey → Option (Nat × Nat)}
    (latest : Latest worker.state.queue worker.turn last) (policy : LoaderPolicy) (disk : Disk) :
    Answering gens next (worker.finish policy disk) := by
  obtain same | ⟨controls,taken,idle,inFlight,results,baselines,watches⟩ |
      ⟨key,request,taken,idle,inFlight,results,baselines,watches⟩ := finish_watches policy disk worker
  · rw [same]
    exact answering
  · have waiting : ∀ path, (worker.finish policy disk).state.controlAt path = worker.state.controlAt path ∧
        (worker.finish policy disk).state.registeredAt path = worker.state.registeredAt path := fun path => by
      unfold State.controlAt State.registeredAt
      rw [watches]
      exact ⟨rfl,rfl⟩
    have running := takenAt_idle idle
    have cell : ∀ path, (worker.finish policy disk).baselines.cell path =
        (worker.baselines.cell path).control (worker.takenAt path) := fun path => by
      rw [baselines,cell_controls (watched.distinct taken),takenAt_controls taken]
    constructor
    · exact answering.known
    · intro path retired ends
      simp only [Worker.Retiring,waiting,running] at ends
      exact answering.retiring (.inl (ends.resolve_right (by simp)))
    · intro path generation revision applied ends
      simp only [Worker.Resolving,waiting,running] at ends
      have posted := ends.resolve_right (by simp)
      have before := answering.resolving (.inl posted)
      have unresolved : (worker.takenAt path).resolution = none := by
        cases here : (worker.takenAt path).resolution with
        | none => rfl
        | some resolution => simp [answering.single here] at posted
      exact {
        bounded := before.bounded
        idle := by
          rw [inFlight]
          exact before.idle
        unanswered := by
          rw [results]
          exact before.unanswered
        proposed := by
          intro current
          obtain ⟨content,proposed⟩ := before.proposed current
          rw [cell]
          exact ⟨content,ConfigCell.proposal_of_spared (answering.spares current unresolved) proposed⟩
        stale := by
          intro apply current here apart holds
          rw [cell] at holds
          exact before.stale apply current here apart (ConfigCell.holds_of_control holds).1 }
    · simp [running]
    · simp [idle]
    · intro found epoch revision path generation snapshot member
      rw [results] at member
      have before := answering.answered member
      refine ⟨before.1,fun current => ?_⟩
      obtain ⟨registered,answers⟩ := before.2 current
      have unresolved : (worker.takenAt path).resolution = none := by
        cases here : (worker.takenAt path).resolution with
        | none => rfl
        | some resolution =>
          have own : .config path = found := by
            have isFor := (latest.answered member).1
            cases found <;> simp only [WorkerResult.IsFor] at isFor
            rw [isFor]
          exact absurd (own ▸ member) ((answering.resolving (.inr here)).unanswered _)
      rw [cell,(waiting path).2]
      exact ⟨registered,answers.spared (answering.spares current unresolved)⟩
  · have waiting : ∀ path, (worker.finish policy disk).state.controlAt path = worker.state.controlAt path ∧
        (worker.finish policy disk).state.registeredAt path = worker.state.registeredAt path := fun path => by
      unfold State.controlAt State.registeredAt
      rw [watches]
      exact ⟨rfl,rfl⟩
    have running := takenAt_idle idle
    have none := takenAt_request taken
    obtain ⟨own,flying,_⟩ := latest.turned taken
    have elsewhere : ∀ {path}, .config path ≠ key →
        (worker.finish policy disk).baselines.cell path = worker.baselines.cell path := by
      intro path apart
      rw [baselines]
      exact cell_runRequest_other disk (own ▸ Ne.symm apart)
    constructor
    · exact answering.known
    · intro path retired ends
      simp only [Worker.Retiring,waiting,running] at ends
      exact answering.retiring (.inl (ends.resolve_right (by simp)))
    · intro path generation revision applied ends
      simp only [Worker.Resolving,waiting,running] at ends
      have before := answering.resolving (.inl (ends.resolve_right (by simp)))
      have apart : .config path ≠ key := by
        rintro rfl
        exact before.idle flying
      exact {
        bounded := before.bounded
        idle := by
          rw [inFlight]
          exact fun member => before.idle (Finset.mem_of_mem_erase member)
        unanswered := by
          intro result member
          obtain same | same := results <;> rw [same] at member
          · exact before.unanswered result member
          · rw [List.mem_append,List.mem_singleton] at member
            obtain member | fresh := member
            · exact before.unanswered result member
            · exact apart (Prod.mk.inj fresh).1
        proposed := by
          rw [elsewhere apart]
          exact before.proposed
        stale := by
          rw [elsewhere apart]
          exact before.stale }
    · simp [running]
    · simp [idle]
    · intro found epoch revision path generation snapshot member
      have old : (found,.config epoch revision path (some generation) (.ok snapshot)) ∈ worker.state.results →
          generation ≤ next ∧ (gens path = some generation →
            (worker.finish policy disk).state.registeredAt path = some generation ∧
            ((worker.finish policy disk).baselines.cell path).Answers generation revision snapshot) := by
        intro member
        have isFor := (latest.answered member).1
        have here : .config path = found := by
          cases found <;> simp only [WorkerResult.IsFor] at isFor
          rw [isFor]
        have apart : .config path ≠ key := by
          intro same
          apply placed.running_not_answered key flying
          exact List.mem_map.mpr ⟨_,member,here.symm.trans same⟩
        rw [elsewhere apart,(waiting path).2]
        exact answering.answered member
      obtain same | same := results <;> rw [same] at member
      · exact old member
      rw [List.mem_append,List.mem_singleton] at member
      obtain member | fresh := member
      · exact old member
      have ran := (Prod.mk.inj fresh).2
      cases request with
      | scan epoch revision dir => simp [runRequest] at ran
      | plugin epoch revision here => simp [runRequest] at ran
      | config asked wanted here watchGeneration =>
        have shape := ran
        simp only [runRequest,WorkerResult.config.injEq] at shape
        obtain ⟨rfl,rfl,rfl,rfl,_⟩ := shape
        obtain ⟨read,answer,left⟩ := read_runRequest policy disk worker.baselines epoch revision path generation
        rw [answer] at ran
        have result := (WorkerResult.config.inj ran).2.2.2.2
        subst result
        have before := answering.reading taken
        refine ⟨before.1,fun current => ⟨(waiting path).2.trans (before.2 current),?_⟩⟩
        rw [baselines]
        exact left.answers

theorem Answering.tryResult (answering : Answering gens next worker) :
    Answering gens next (worker.lock (LoaderWorker.tryResult worker.state).2) := by
  have same : ∀ path, (LoaderWorker.tryResult worker.state).2.controlAt path = worker.state.controlAt path := by
    simp [State.controlAt]
  refine Answering.of_fewer answering rfl ?_ ?_ ?_ ?_ ?_ ?_ ?_
  · simp [Worker.Resolving,Worker.lock,Worker.takenAt,same]
  · simp [Worker.Retiring,Worker.lock,Worker.takenAt,same]
  · intro path resolution taken
    simp only [Worker.lock,same]
    exact answering.single taken
  · simp only [Worker.lock,LoaderWorker.tryResult]
    split
    · exact Finset.Subset.refl _
    · split <;> exact Finset.Subset.refl _
  · simp only [Worker.lock,LoaderWorker.tryResult]
    split
    · exact List.Subset.refl _
    next waiting =>
      rw [waiting]
      split <;> exact List.subset_cons_self _ _
  · exact id
  · simp [State.registeredAt,Worker.lock]

/-- A submit runs nothing and answers nothing. -/
theorem trySubmit_keeps (policy : LoaderPolicy) (state : State) (request : Request) :
    (trySubmit policy state request).2.inFlight = state.inFlight ∧
    (trySubmit policy state request).2.results ⊆ state.results := by
  have registered : (state.registerWatch request.watch).queue = state.queue := queue_registerWatch state _
  have inFlight : (state.registerWatch request.watch).inFlight = state.inFlight := congrArg Queue.inFlight registered
  have results : (state.registerWatch request.watch).results = state.results := congrArg Queue.results registered
  obtain ⟨hit,answer⟩ | ⟨hit,answer⟩ | ⟨_,answer⟩ | ⟨_,_,answer⟩ := trySubmit_cases policy state request <;>
    rw [answer]
  · exact ⟨rfl,List.Subset.refl _⟩
  · exact ⟨rfl,List.Subset.refl _⟩
  · obtain ⟨_,_,_,_,after⟩ | ⟨_,_,_,after⟩ | ⟨_,_,after⟩ :=
      coalesce_cases (state.registerWatch request.watch) request <;> rw [after,← results]
    · exact ⟨inFlight,List.Subset.refl _⟩
    · exact ⟨inFlight,List.Subset.refl _⟩
    · exact ⟨inFlight,List.filter_subset_self _⟩
  · exact ⟨inFlight,by rw [State.accept,results]; exact List.Subset.refl _⟩

theorem Answering.submit (answering : Answering gens next worker) (watched : Watched gens worker)
    {request : Request} (asks : request.Asks gens) (policy : LoaderPolicy) :
    Answering gens next (worker.lock (trySubmit policy worker.state request).2) := by
  have registered := registeredAt_trySubmit watched asks policy
  obtain ⟨inFlight,results⟩ := trySubmit_keeps policy worker.state request
  refine Answering.of_fewer answering rfl ?_ ?_ ?_ ?_ results ?_ ?_
  · simp [Worker.Resolving,Worker.lock,Worker.takenAt,registered]
  · simp [Worker.Retiring,Worker.lock,Worker.takenAt,registered]
  · intro path resolution taken
    rw [Worker.lock,(registered path).2.2]
    exact answering.single taken
  · rw [Worker.lock,inFlight]
  · exact id
  · intro path generation current here
    rw [← current] at here ⊢
    exact (registered path).2.1 here

/-- The resolution of a result just taken: it finds its proposal. -/
theorem Answering.resolve (answering : Answering gens next worker) {here : Path} {generation revision : Nat}
    {applied : Bool} (settling : Settling gens next worker here generation revision applied)
    (free : (worker.takenAt here).resolution = none) :
    Answering gens next (worker.lock (resolveConfigWatch worker.state here generation revision applied)) := by
  have elsewhere : ∀ {path}, path ≠ here →
      (resolveConfigWatch worker.state here generation revision applied).watchAt path = worker.state.watchAt path :=
    fun apart => watchAt_resolve_other apart generation revision applied
  obtain ⟨resolution,posted,own⟩ := watchAt_resolve worker.state here generation revision applied
  have registered : ∀ path, (resolveConfigWatch worker.state here generation revision applied).registeredAt path =
      worker.state.registeredAt path := by
    intro path
    unfold State.registeredAt
    by_cases same : path = here
    · rw [same,own]
      rfl
    · rw [elsewhere same]
  have retires : ∀ path,
      ((resolveConfigWatch worker.state here generation revision applied).controlAt path).retireGeneration =
        (worker.state.controlAt path).retireGeneration := by
    intro path
    unfold State.controlAt
    by_cases same : path = here
    · rw [same,own]
      rfl
    · rw [elsewhere same]
  have queue := queue_resolveConfigWatch worker.state here generation revision applied
  have inFlight : (resolveConfigWatch worker.state here generation revision applied).inFlight =
      worker.state.inFlight := congrArg Queue.inFlight queue
  have results : (resolveConfigWatch worker.state here generation revision applied).results =
      worker.state.results := congrArg Queue.results queue
  have settled : ∀ {path generation revision applied}, Settling gens next worker path generation revision applied →
      Settling gens next (worker.lock (resolveConfigWatch worker.state here _ _ _)) path generation revision applied :=
    fun before => {
      bounded := before.bounded
      idle := by
        rw [Worker.lock,inFlight]
        exact before.idle
      unanswered := by
        rw [Worker.lock,results]
        exact before.unanswered
      proposed := before.proposed
      stale := before.stale }
  constructor
  · exact answering.known
  · intro path retired ends
    simp only [Worker.Retiring,Worker.lock,Worker.takenAt,retires] at ends
    exact answering.retiring ends
  · intro path found wanted asked ends
    by_cases same : path = here
    · subst same
      have ends : resolution = some (found,wanted,asked) ∨
          (worker.takenAt path).resolution = some (found,wanted,asked) := by
        simpa [Worker.Resolving,State.controlAt,own] using ends
      rw [free] at ends
      obtain rfl | old := posted
      · obtain ⟨rfl,rfl,rfl⟩ : generation = found ∧ revision = wanted ∧ applied = asked := by simpa using ends
        exact settled settling
      · exact settled (answering.resolving (.inl (old.symm.trans (ends.resolve_right (by simp)))))
    · have ends : worker.Resolving path (found,wanted,asked) := by
        simpa [Worker.Resolving,State.controlAt,elsewhere same] using ends
      exact settled (answering.resolving ends)
  · intro path found taken
    rw [takenAt_lock] at taken
    by_cases same : path = here
    · subst same
      simp [free] at taken
    · have before := answering.single taken
      simpa [State.controlAt,elsewhere same] using before
  · intro key epoch wanted path found running
    rw [Worker.lock,registered]
    exact answering.reading running
  · intro key epoch wanted path found snapshot member
    rw [Worker.lock,results] at member
    rw [Worker.lock,registered]
    exact answering.answered member

/-- A generation is held only once it has been minted. -/
theorem bounded_of_holds (answering : Answering gens next worker) (watched : Watched gens worker) {path : Path}
    {generation : Nat} (holds : (worker.baselines.cell path).Holds generation) : generation ≤ next := by
  obtain current | ⟨retired,ends,below⟩ | ⟨retired,ends,below⟩ := watched.held holds
  · exact answering.known (watched.registered current)
  · exact below.trans (answering.retiring (.inl ends)).1
  · exact below.trans (answering.retiring (.inr ends)).1

theorem Answering.mint (answering : Answering gens next worker) (watched : Watched gens worker)
    {gens' : Path → Option Nat} {here : Path} (minted : gens' here = some (next + 1))
    (others : ∀ path, path ≠ here → gens' path = gens path) : Answering gens' (next + 1) worker := by
  have older : ∀ {path generation}, generation ≤ next → gens' path = some generation → path ≠ here := by
    rintro path generation below current rfl
    rw [minted,Option.some.injEq] at current
    omega
  constructor
  · intro path generation current
    by_cases own : path = here
    · subst own
      rw [minted,Option.some.injEq] at current
      omega
    · rw [others path own] at current
      exact (answering.known current).trans (Nat.le_succ _)
  · intro path retired ends
    have before := answering.retiring ends
    refine ⟨before.1.trans (Nat.le_succ _),fun generation current => ?_⟩
    by_cases own : path = here
    · subst own
      rw [minted,Option.some.injEq] at current
      omega
    · exact before.2 generation (others path own ▸ current)
  · intro path generation revision applied ends
    have before := answering.resolving ends
    exact {
      bounded := before.bounded.trans (Nat.le_succ _)
      idle := before.idle
      unanswered := before.unanswered
      proposed := fun current =>
        before.proposed (others path (older before.bounded current) ▸ current)
      stale := by
        intro apply current now apart holds
        have below := bounded_of_holds answering watched holds
        exact before.stale apply current (others path (older below now) ▸ now) apart holds }
  · exact answering.single
  · intro key epoch revision path generation running
    have before := answering.reading running
    exact ⟨before.1.trans (Nat.le_succ _),fun current =>
      before.2 (others path (older before.1 current) ▸ current)⟩
  · intro key epoch revision path generation snapshot member
    have before := answering.answered member
    exact ⟨before.1.trans (Nat.le_succ _),fun current =>
      before.2 (others path (older before.1 current) ▸ current)⟩

theorem Answering.retire (answering : Answering gens next worker) {gens' : Path → Option Nat} {here : Path}
    {generation : Nat} (current : gens here = some generation) (gone : gens' here = none)
    (others : ∀ path, path ≠ here → gens' path = gens path) :
    Answering gens' next (worker.lock (retireConfigWatch worker.state here generation)) := by
  have elsewhere : ∀ {path}, path ≠ here →
      (retireConfigWatch worker.state here generation).watchAt path = worker.state.watchAt path :=
    fun apart => watchAt_retire_other apart generation
  have controls := controlAt_retire worker.state here generation
  have apart : ∀ {path found}, gens' path = some found → path ≠ here := by
    rintro path found now rfl
    rw [gone] at now
    cases now
  have queue := queue_retireConfigWatch worker.state here generation
  have inFlight : (retireConfigWatch worker.state here generation).inFlight = worker.state.inFlight :=
    congrArg Queue.inFlight queue
  have results : (retireConfigWatch worker.state here generation).results = worker.state.results :=
    congrArg Queue.results queue
  have resolutions : ∀ path, ((retireConfigWatch worker.state here generation).controlAt path).resolution =
      (worker.state.controlAt path).resolution := by
    intro path
    by_cases own : path = here
    · rw [own]
      exact controls.1
    · unfold State.controlAt
      rw [elsewhere own]
  have registered : ∀ {path found}, gens' path = some found →
      (retireConfigWatch worker.state here generation).registeredAt path = worker.state.registeredAt path := by
    intro path found now
    unfold State.registeredAt
    rw [elsewhere (apart now)]
  constructor
  · intro path found now
    exact answering.known (others path (apart now) ▸ now)
  · intro path retired ends
    by_cases own : path = here
    · subst own
      have below : retired ≤ next := by
        obtain posted | taken := ends
        · obtain rfl | old := controls.2 retired posted
          · exact answering.known current
          · exact (answering.retiring (.inl old)).1
        · exact (answering.retiring (.inr taken)).1
      exact ⟨below,fun found now => absurd rfl (apart now)⟩
    · have ends : worker.Retiring path retired := by
        simpa [Worker.Retiring,State.controlAt,elsewhere own] using ends
      rw [others path own]
      exact answering.retiring ends
  · intro path found wanted asked ends
    have ends : worker.Resolving path (found,wanted,asked) := by
      simpa only [Worker.Resolving,Worker.lock,Worker.takenAt,resolutions] using ends
    have before := answering.resolving ends
    exact {
      bounded := before.bounded
      idle := by
        rw [Worker.lock,inFlight]
        exact before.idle
      unanswered := by
        rw [Worker.lock,results]
        exact before.unanswered
      proposed := fun now => before.proposed (others path (apart now) ▸ now)
      stale := fun apply current now => before.stale apply current (others path (apart now) ▸ now) }
  · intro path found taken
    rw [Worker.lock,resolutions]
    exact answering.single taken
  · intro key epoch revision path found running
    have before := answering.reading running
    exact ⟨before.1,fun now => (registered now).trans (before.2 (others path (apart now) ▸ now))⟩
  · intro key epoch revision path found snapshot member
    rw [Worker.lock,results] at member
    have before := answering.answered member
    refine ⟨before.1,fun now => ?_⟩
    rw [Worker.lock,registered now]
    exact before.2 (others path (apart now) ▸ now)

/-! ### The content a path's watchers have been told -/

/-- The content that counts as committed for a generation: that of an applied
resolution on its way, else the committed one. -/
def Worker.Effective (worker : Worker) (path : Path) (generation : Nat) (content : Option String) : Prop :=
  (∃ revision, worker.Resolving path (generation,revision,true) ∧
    (worker.baselines.cell path).proposal = some ⟨generation,revision,content⟩) ∨
  ((∀ revision, ¬worker.Resolving path (generation,revision,true)) ∧
    (worker.baselines.cell path).value = some ⟨generation,content⟩)

variable {path : Path} {generation : Nat} {content : Option String}

theorem Effective.of_same (effective : worker.Effective path generation content) {after : Worker}
    (resolving : ∀ resolution, after.Resolving path resolution ↔ worker.Resolving path resolution)
    (cell : after.baselines.cell path = worker.baselines.cell path) :
    after.Effective path generation content := by
  unfold Worker.Effective at effective ⊢
  simpa only [resolving,cell] using effective

theorem Effective.take (effective : worker.Effective path generation content) :
    worker.take.Effective path generation content := by
  have baselines := (take_keeps worker).1
  apply Effective.of_same effective
  · intro resolution
    obtain ⟨turn,_,watches⟩ | ⟨idle,taken,_,watches⟩ | ⟨key,request,idle,quiet,_,taken,watches⟩ :=
      take_watches worker
    · simp only [Worker.Resolving,Worker.takenAt,State.controlAt,watches,turn]
    · simp [Worker.Resolving,takenAt_controls taken,controlFor_controls,takenAt_idle idle,State.controlAt,watches]
    · have waiting := controlAt_of_controls quiet path
      unfold State.controlAt at waiting
      simp [Worker.Resolving,takenAt_request taken,takenAt_idle idle,State.controlAt,watches,waiting]
  · rw [baselines]

theorem Effective.finish (effective : worker.Effective path generation content)
    (answering : Answering gens next worker) (watched : Watched gens worker)
    {last : WorkKey → Option (Nat × Nat)} (latest : Latest worker.state.queue worker.turn last)
    (current : gens path = some generation) (policy : LoaderPolicy) (disk : Disk) :
    (worker.finish policy disk).Effective path generation content := by
  obtain same | ⟨controls,taken,idle,_,_,baselines,watches⟩ | ⟨key,request,taken,idle,_,_,baselines,watches⟩ :=
    finish_watches policy disk worker
  · rw [same]
    exact effective
  · have posted : ∀ resolution, (worker.finish policy disk).Resolving path resolution ↔
        (worker.state.controlAt path).resolution = some resolution := by
      intro resolution
      simp [Worker.Resolving,takenAt_idle idle,State.controlAt,watches]
    have cell : (worker.finish policy disk).baselines.cell path =
        (worker.baselines.cell path).control (worker.takenAt path) := by
      rw [baselines,cell_controls (watched.distinct taken),takenAt_controls taken]
    have retires : ∀ retired, (worker.takenAt path).retireGeneration = some retired → retired < generation :=
      fun retired ends => (answering.retiring (.inr ends)).2 generation current
    cases running : (worker.takenAt path).resolution with
    | none =>
      have spares := answering.spares current running
      unfold Worker.Effective at effective ⊢
      simp only [Worker.Resolving,running,reduceCtorEq,or_false] at effective
      simp only [posted,cell]
      obtain ⟨revision,here,proposed⟩ | ⟨unposted,value⟩ := effective
      · exact .inl ⟨revision,here,ConfigCell.proposal_of_spared spares proposed⟩
      · exact .inr ⟨unposted,ConfigCell.value_of_spared spares value⟩
    | some resolution =>
      -- the resolution taken is the only one on its way
      have unposted := answering.single running
      obtain ⟨found,revision,applied⟩ := resolution
      have settling := answering.resolving (.inr running)
      refine .inr ⟨fun revision => by simp [posted,unposted],?_⟩
      rw [cell]
      have resolved : ((worker.baselines.cell path).resolve found revision applied).value =
          some ⟨generation,content⟩ := by
        unfold Worker.Effective at effective
        simp only [Worker.Resolving,running,unposted,reduceCtorEq,false_or,Option.some.injEq,
          Prod.mk.injEq] at effective
        obtain ⟨_,⟨rfl,rfl,rfl⟩,proposed⟩ | ⟨other,value⟩ := effective
        · rw [ConfigCell.resolve,proposed]
          simp
        · unfold ConfigCell.resolve
          split
          · exact value
          next proposal proposed =>
            split
            · exact value
            next same =>
              rw [not_or,not_not,not_not] at same
              cases applied with
              | false => exact value
              | true =>
                have apart : generation ≠ found := by
                  rintro rfl
                  exact other revision ⟨rfl,rfl,rfl⟩
                exact absurd (.inl ⟨_,value,rfl⟩) (settling.stale rfl generation current apart)
      unfold ConfigCell.control
      rw [running]
      cases ends : (worker.takenAt path).retireGeneration with
      | none => exact resolved
      | some retired => simp [ConfigCell.retire,resolved,retires retired ends]
  · obtain ⟨own,flying,_⟩ := latest.turned taken
    have resolving : ∀ resolution, (worker.finish policy disk).Resolving path resolution ↔
        worker.Resolving path resolution := by
      intro resolution
      simp [Worker.Resolving,takenAt_idle idle,takenAt_request taken,State.controlAt,watches]
    by_cases same : request.key = .config path
    · -- its own path is being read, so no resolution of it is on its way
      have unresolved : ∀ revision, ¬worker.Resolving path (generation,revision,true) := by
        intro revision ends
        exact (answering.resolving ends).idle (same ▸ own ▸ flying)
      obtain ⟨revision,ends,_⟩ | ⟨_,value⟩ := effective
      · exact absurd ends (unresolved revision)
      refine .inr ⟨fun revision => by rw [resolving]; exact unresolved revision,?_⟩
      rw [baselines]
      cases request with
      | scan epoch revision dir => simp [Request.key] at same
      | plugin epoch revision other => simp [Request.key] at same
      | config epoch revision other watchGeneration =>
        simp only [Request.key,WorkKey.config.injEq] at same
        subst same
        cases watchGeneration with
        | none =>
          rw [cell_runRequest_unwatched]
          exact value
        | some asked =>
          obtain ⟨read,_,left⟩ := read_runRequest policy disk worker.baselines epoch revision other asked
          rw [left.value]
          exact value
    · apply Effective.of_same effective resolving
      rw [baselines,cell_runRequest_other disk same]

/-- While a result of a path waits, no resolution of the path is on its way. -/
theorem not_resolving_of_answered (answering : Answering gens next worker) {result : WorkerResult}
    (member : (.config path,result) ∈ worker.state.results) (resolution : Nat × Nat × Bool) :
    ¬worker.Resolving path resolution := by
  intro ends
  exact (answering.resolving ends).unanswered result member

end Answering

end S2Script.LoaderWorker
