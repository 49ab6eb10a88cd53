import S2Script.LoaderBaselines

/-! The watch table beside the baselines. What the worker holds for a path is of
the generation registered there, or a retirement of it is on its way; and what a
result said of a path stays true until the game thread answers it. -/
namespace S2Script.LoaderWorker

/-! ### One path of the watch table -/

def State.watchAt (state : State) (path : Path) : ConfigWatchState := (state.configWatches.lookup path).getD {}

def State.registeredAt (state : State) (path : Path) : Option Nat := (state.watchAt path).registeredGeneration

def State.controlAt (state : State) (path : Path) : ConfigControl := (state.watchAt path).control

/-- The control the worker took for a path and has not applied. -/
def Worker.takenAt (worker : Worker) (path : Path) : ConfigControl :=
  match worker.turn with
  | some (.controls controls) => controlFor controls path
  | _ => {}

theorem eq_empty_of_isEmpty {control : ConfigControl} (empty : control.isEmpty = true) : control = {} := by
  obtain ⟨resolution,retired⟩ := control
  simp only [ConfigControl.isEmpty,Bool.and_eq_true,Option.isNone_iff_eq_none] at empty
  simp [empty]

theorem nodup_controls (state : State) : (state.controls.map Prod.fst).Nodup := by
  have same : state.controls.map Prod.fst =
      (state.configWatches.entries.filter fun entry => !entry.2.control.isEmpty).map Sigma.fst := by
    simp [State.controls]
  rw [same]
  exact (List.filter_sublist.map _).nodup state.configWatches.nodupKeys

/-- The controls taken hold, for every path, the one its watch holds. -/
theorem controlFor_controls (state : State) (path : Path) :
    controlFor state.controls path = state.controlAt path := by
  have entries : ∀ watches : List (Sigma fun _ : Path => ConfigWatchState), watches.NodupKeys →
      controlFor ((watches.filter fun entry => !entry.2.control.isEmpty).map
        fun entry => (entry.1,entry.2.control)) path = ((watches.dlookup path).getD {}).control := by
    intro watches distinct
    induction watches with
    | nil => rfl
    | cons entry watches ih =>
      obtain ⟨here,watch⟩ := entry
      obtain ⟨fresh,distinct⟩ := List.nodupKeys_cons.mp distinct
      have rest := ih distinct
      by_cases same : here = path
      · subst same
        rw [List.dlookup_cons_eq]
        cases held : watch.control.isEmpty with
        | false => simp [controlFor,held]
        | true =>
          have absent : watches.dlookup here = none := List.dlookup_eq_none.mpr fresh
          rw [absent] at rest
          rw [List.filter_cons_of_neg (by simp [held])]
          exact rest.trans (eq_empty_of_isEmpty held).symm
      · rw [List.dlookup_cons_ne _ _ (Ne.symm same)]
        have apart : (path == here) = false := by simpa using Ne.symm same
        cases held : watch.control.isEmpty with
        | false => simpa [controlFor,held,List.lookup_cons,apart] using rest
        | true => simpa [held] using rest
  exact entries state.configWatches.entries state.configWatches.nodupKeys

theorem controlAt_of_controls {state : State} (quiet : state.controls = []) (path : Path) :
    state.controlAt path = {} := by
  rw [← controlFor_controls,quiet]
  rfl

theorem mem_of_registeredAt {state : State} {path : Path} {generation : Nat}
    (registered : state.registeredAt path = some generation) : path ∈ state.configWatches := by
  rw [Table.mem_iff]
  cases found : state.configWatches.lookup path with
  | some watch => exact ⟨watch,rfl⟩
  | none => simp [State.registeredAt,State.watchAt,found] at registered

/-! ### What each lock does to it -/

@[simp] theorem watchAt_syncConfigMetrics (state : State) (baselines : ConfigBaselines) (path : Path) :
    (state.syncConfigMetrics baselines).watchAt path = state.watchAt path := rfl

theorem watchAt_pruneWatches (state : State) (path : Path) : state.pruneWatches.watchAt path = state.watchAt path := by
  simp only [State.watchAt,State.pruneWatches,Table.lookup_retain]
  cases found : state.configWatches.lookup path with
  | none => rfl
  | some watch =>
    rw [Option.filter_some]
    split
    · rfl
    next idle =>
      obtain ⟨registered,control⟩ := watch
      simp only [Bool.or_eq_true,not_or,Bool.not_eq_true,Option.isSome_eq_false_iff,
        Option.isNone_iff_eq_none,Bool.not_eq_false'] at idle
      simp [idle.1,eq_empty_of_isEmpty idle.2]

theorem watchAt_registerWatch (state : State) (here : Path) (generation : Nat) (path : Path) :
    (state.registerWatch (some (here,generation))).watchAt path =
      if path = here then
        { state.watchAt here with
          registeredGeneration := some (((state.registeredAt here).map (max · generation)).getD generation) }
      else state.watchAt path := by
  simp only [State.watchAt,State.registerWatch,Table.lookup_insert_eq,State.registeredAt]
  split <;> rfl

@[simp] theorem configWatches_coalesce (state : State) (request : Request) :
    (state.coalesce request).configWatches = state.configWatches := by
  simp only [State.coalesce]
  split
  · rfl
  · split <;> rfl

@[simp] theorem configWatches_accept (policy : LoaderPolicy) (state : State) (request : Request) :
    (state.accept policy request).configWatches = state.configWatches := rfl

/-- A submit registers its watch, or is refused and registers nothing. -/
theorem watchAt_trySubmit (policy : LoaderPolicy) (state : State) (request : Request) :
    (∀ path, (trySubmit policy state request).2.watchAt path = state.watchAt path) ∨
    ∀ path, (trySubmit policy state request).2.watchAt path =
      (state.registerWatch request.watch).watchAt path := by
  obtain ⟨hit,answer⟩ | ⟨hit,answer⟩ | ⟨_,answer⟩ | ⟨_,_,answer⟩ := trySubmit_cases policy state request <;>
    rw [answer]
  · exact .inl fun _ => rfl
  · exact .inl fun _ => rfl
  · exact .inr fun _ => by simp [State.watchAt]
  · exact .inr fun _ => by simp [State.watchAt]

@[simp] theorem watchAt_tryResult (state : State) (path : Path) :
    (tryResult state).2.watchAt path = state.watchAt path := by
  unfold tryResult
  split
  · rfl
  · split <;> rfl

@[simp] theorem watchAt_answer (state : State) (key : WorkKey) (result : WorkerResult) (path : Path) :
    (state.answer key result).watchAt path = state.watchAt path := by
  obtain ⟨next,_,after⟩ | ⟨_,after⟩ := answer_cases state key result <;>
  · rw [after]
    rfl

theorem watchAt_resolve_other {state : State} {here path : Path} (apart : path ≠ here)
    (generation revision : Nat) (applied : Bool) :
    (resolveConfigWatch state here generation revision applied).watchAt path = state.watchAt path := by
  unfold resolveConfigWatch
  split
  · rfl
  · simp [State.watchAt,apart]

/-- A resolution changes the resolution held for its own path only. -/
theorem watchAt_resolve (state : State) (path : Path) (generation revision : Nat) (applied : Bool) :
    ∃ resolution, (resolution = some (generation,revision,applied) ∨
        resolution = (state.controlAt path).resolution) ∧
      (resolveConfigWatch state path generation revision applied).watchAt path =
        { registeredGeneration := state.registeredAt path
          control := { state.controlAt path with resolution := resolution } } := by
  unfold resolveConfigWatch State.controlAt State.registeredAt State.watchAt
  cases found : state.configWatches.lookup path with
  | none => exact ⟨none,.inr rfl,by simp [found]⟩
  | some watch =>
    refine ⟨_,?_,by simp; rfl⟩
    split
    · exact .inl rfl
    · exact .inr rfl

/-- A watched path without a resolution takes the one it is given. -/
theorem resolution_resolve {state : State} {path : Path} (known : path ∈ state.configWatches)
    (free : (state.controlAt path).resolution = none) (generation revision : Nat) (applied : Bool) :
    ((resolveConfigWatch state path generation revision applied).controlAt path).resolution =
      some (generation,revision,applied) := by
  obtain ⟨watch,found⟩ := Table.lookup_of_mem known
  have free : watch.control.resolution = none := by simpa [State.controlAt,State.watchAt,found] using free
  simp [resolveConfigWatch,State.controlAt,State.watchAt,found,free,notBefore]

theorem watchAt_retire_other {state : State} {here path : Path} (apart : path ≠ here) (generation : Nat) :
    (retireConfigWatch state here generation).watchAt path = state.watchAt path := by
  unfold retireConfigWatch
  split
  · rfl
  · simp [State.watchAt,apart]

theorem watchAt_unknown {state : State} {path : Path} (unknown : path ∉ state.configWatches) :
    state.watchAt path = {} := by
  simp [State.watchAt,AList.lookup_eq_none.mpr unknown]

/-- Retiring ends the registration of that generation and holds the retirement
for the worker. -/
theorem watchAt_retire {state : State} {path : Path} (known : path ∈ state.configWatches) (generation : Nat) :
    (retireConfigWatch state path generation).watchAt path =
      { registeredGeneration :=
          if state.registeredAt path = some generation then none else state.registeredAt path
        control := { state.controlAt path with
          retireGeneration := some (((state.controlAt path).retireGeneration.map (max · generation)).getD
            generation) } } := by
  obtain ⟨watch,found⟩ := Table.lookup_of_mem known
  simp [retireConfigWatch,State.registeredAt,State.controlAt,State.watchAt,found]

theorem retire_unknown {state : State} {path : Path} (unknown : path ∉ state.configWatches) (generation : Nat) :
    retireConfigWatch state path generation = state := by
  simp [retireConfigWatch,AList.lookup_eq_none.mpr unknown]

/-- A retirement leaves the resolution, and holds itself or what was held. -/
theorem controlAt_retire (state : State) (path : Path) (generation : Nat) :
    ((retireConfigWatch state path generation).controlAt path).resolution = (state.controlAt path).resolution ∧
    ∀ retired, ((retireConfigWatch state path generation).controlAt path).retireGeneration = some retired →
      retired = generation ∨ (state.controlAt path).retireGeneration = some retired := by
  by_cases known : path ∈ state.configWatches
  · unfold State.controlAt
    rw [watchAt_retire known]
    refine ⟨rfl,fun retired same => ?_⟩
    unfold State.controlAt at same
    cases held : (state.watchAt path).control.retireGeneration with
    | none => simp_all
    | some old =>
      simp only [held,Option.map_some,Option.getD_some,Option.some.injEq] at same ⊢
      omega
  · rw [retire_unknown known]
    exact ⟨rfl,fun retired same => .inr same⟩

/-- A take leaves the watches, moves every control to the worker, or takes the
oldest request with the generation registered for its path. -/
theorem take_watches (worker : Worker) :
    (worker.take.turn = worker.turn ∧ worker.take.state.inFlight = worker.state.inFlight ∧
      ∀ path, worker.take.state.watchAt path = worker.state.watchAt path) ∨
    (worker.turn = none ∧ worker.take.turn = some (.controls worker.state.controls) ∧
      worker.take.state.inFlight = worker.state.inFlight ∧
      ∀ path, worker.take.state.watchAt path = ⟨worker.state.registeredAt path,{}⟩) ∨
    ∃ key request, worker.turn = none ∧ worker.state.controls = [] ∧
      worker.state.pending.lookup key = some request ∧
      worker.take.turn = some (.request key (worker.state.current request)) ∧
      ∀ path, worker.take.state.watchAt path = worker.state.watchAt path := by
  unfold Worker.take
  split
  · exact .inl ⟨rfl,rfl,fun _ => rfl⟩
  next idle =>
    extract_lets state
    split
    · refine .inr (.inl ⟨idle,rfl,rfl,fun path => ?_⟩)
      simp only [State.watchAt,State.registeredAt,Table.lookup_mapValues,state]
      cases worker.state.configWatches.lookup path <;> rfl
    next quiet =>
      split
      · exact .inl ⟨rfl,rfl,fun _ => rfl⟩
      next key order _ =>
        split
        · exact .inl ⟨rfl,rfl,fun _ => rfl⟩
        next request here =>
          exact .inr (.inr ⟨key,request,idle,not_not.mp quiet,here,rfl,fun _ => rfl⟩)

/-- A take reads nothing and answers nothing. -/
theorem take_keeps (worker : Worker) :
    worker.take.baselines = worker.baselines ∧ worker.take.state.results = worker.state.results := by
  unfold Worker.take
  split
  · exact ⟨rfl,rfl⟩
  · extract_lets state
    split
    · exact ⟨rfl,rfl⟩
    · split
      · exact ⟨rfl,rfl⟩
      · split <;> exact ⟨rfl,rfl⟩

theorem takenAt_controls {worker : Worker} {controls : List (Path × ConfigControl)}
    (taken : worker.turn = some (.controls controls)) (path : Path) :
    worker.takenAt path = controlFor controls path := by
  simp [Worker.takenAt,taken]

theorem takenAt_idle {worker : Worker} (idle : worker.turn = none) (path : Path) : worker.takenAt path = {} := by
  simp [Worker.takenAt,idle]

theorem takenAt_request {worker : Worker} {key : WorkKey} {request : Request}
    (taken : worker.turn = some (.request key request)) (path : Path) : worker.takenAt path = {} := by
  simp [Worker.takenAt,taken]

/-- A generation is read for only while it is the registered one. -/
theorem registeredAt_of_current {state : State} {request : Request} {epoch revision generation : Nat}
    {path : Path} (current : state.current request = .config epoch revision path (some generation)) :
    state.registeredAt path = some generation := by
  cases request with
  | scan epoch revision dir => simp [State.current] at current
  | plugin epoch revision path => simp [State.current] at current
  | config asked wanted here watchGeneration =>
    simp only [State.current,Request.config.injEq] at current
    obtain ⟨_,_,rfl,current⟩ := current
    split at current
    next same =>
      subst current
      unfold State.registeredAt State.watchAt
      cases found : state.configWatches.lookup here with
      | none => simp [found] at same
      | some watch => simpa [found] using same.symm
    · contradiction

/-! ### What the worker holds is registered or being retired -/

/-- The control ends this generation. -/
def ConfigControl.Retires (control : ConfigControl) (generation : Nat) : Prop :=
  ∃ retired, control.retireGeneration = some retired ∧ generation ≤ retired

theorem not_retires_empty {generation : Nat} : ¬({} : ConfigControl).Retires generation := by
  simp [ConfigControl.Retires]

namespace ConfigCell

theorem holds_of_resolve {cell : ConfigCell} {generation revision held : Nat} {applied : Bool}
    (after : (cell.resolve generation revision applied).Holds held) : cell.Holds held := by
  unfold resolve at after
  split at after
  · exact after
  next proposal proposed =>
    split at after
    · exact after
    · obtain ⟨old,here,same⟩ | ⟨other,here,_⟩ := after
      · cases applied with
        | false => exact .inl ⟨old,by simpa using here,same⟩
        | true =>
          simp only [if_true,Option.some.injEq] at here
          subst here
          exact .inr ⟨proposal,proposed,same⟩
      · simp at here

theorem holds_of_retire {cell : ConfigCell} {generation held : Nat} (after : (cell.retire generation).Holds held) :
    cell.Holds held ∧ generation < held := by
  obtain ⟨old,here,same⟩ | ⟨proposal,here,same⟩ := after <;>
  · obtain ⟨here,later⟩ := Option.filter_eq_some_iff.mp here
    subst same
    exact ⟨by simp [Holds,here],by simpa using later⟩

/-- A control adds no content, and keeps none of a generation it ends. -/
theorem holds_of_control {cell : ConfigCell} {control : ConfigControl} {held : Nat}
    (after : (cell.control control).Holds held) : cell.Holds held ∧ ¬control.Retires held := by
  have resolved : (cell.control { control with retireGeneration := none }).Holds held → cell.Holds held := by
    intro after
    simp only [ConfigCell.control] at after
    split at after
    · exact holds_of_resolve after
    · exact after
  simp only [ConfigCell.control] at after resolved
  split at after
  next generation retired =>
    obtain ⟨before,later⟩ := holds_of_retire after
    refine ⟨resolved before,?_⟩
    rintro ⟨found,same,ended⟩
    rw [retired] at same
    cases same
    omega
  next none =>
    refine ⟨resolved after,?_⟩
    rintro ⟨found,same,_⟩
    simp [none] at same

theorem Read.holds {before after : ConfigCell} {generation revision held : Nat}
    {result : Except String ConfigSnapshot} (read : before.Read generation revision result after)
    (here : after.Holds held) : before.Holds held ∨ held = generation := by
  unfold Holds at here ⊢
  cases read with
  | failed reason kept same =>
    obtain rfl | rfl := same
    · simp_all
    · exact .inl here
  | pressure | unchanged => simp_all
  | seed | changed =>
    obtain old | ⟨proposal,same,rfl⟩ := here
    · exact .inl (.inl old)
    · simp only [Option.some.injEq] at same
      exact .inr (by rw [← same])

end ConfigCell

/-- A registered generation is the one its path is watched at, and every content
is of the registered generation or of one about to be retired. -/
structure Watched (gens : Path → Option Nat) (worker : Worker) : Prop where
  registered : ∀ {path generation}, worker.state.registeredAt path = some generation →
    gens path = some generation
  held : ∀ {path generation}, (worker.baselines.cell path).Holds generation →
    worker.state.registeredAt path = some generation ∨ (worker.state.controlAt path).Retires generation ∨
      (worker.takenAt path).Retires generation
  reading : ∀ {key epoch revision path generation},
    worker.turn = some (.request key (.config epoch revision path (some generation))) →
    worker.state.registeredAt path = some generation ∨ (worker.state.controlAt path).Retires generation
  distinct : ∀ {controls}, worker.turn = some (.controls controls) → (controls.map Prod.fst).Nodup

section Watched

variable {gens : Path → Option Nat} {worker : Worker}

theorem watched_start : Watched gens {} where
  registered := by
    intro path generation here
    cases here
  held := by
    intro path generation here
    simp [ConfigBaselines.cell,ConfigCell.Holds] at here
  reading := by simp
  distinct := by simp

/-- Only the watches, what is held and what is running matter. -/
theorem Watched.of_same {after : Worker} (watched : Watched gens worker)
    (watches : ∀ path, after.state.watchAt path = worker.state.watchAt path)
    (baselines : after.baselines = worker.baselines) (turn : after.turn = worker.turn) : Watched gens after := by
  have taken : ∀ path, after.takenAt path = worker.takenAt path := fun path => by
    unfold Worker.takenAt
    rw [turn]
  constructor
  · intro path generation
    unfold State.registeredAt
    rw [watches]
    exact watched.registered
  · intro path generation
    unfold State.registeredAt State.controlAt
    rw [watches,baselines,taken]
    exact watched.held
  · intro key epoch revision path generation
    unfold State.registeredAt State.controlAt
    rw [watches,turn]
    exact watched.reading
  · rw [turn]
    exact watched.distinct

theorem Watched.take (watched : Watched gens worker) : Watched gens worker.take := by
  obtain ⟨baselines,_⟩ := take_keeps worker
  obtain ⟨turn,_,watches⟩ | ⟨idle,taken,_,watches⟩ | ⟨key,request,idle,quiet,_,taken,watches⟩ :=
    take_watches worker
  · exact watched.of_same watches baselines turn
  · have registered : ∀ path, worker.take.state.registeredAt path = worker.state.registeredAt path := fun path => by
      unfold State.registeredAt
      rw [watches]
      rfl
    refine ⟨fun {path generation} => ?_,fun {path generation} => ?_,?_,fun {controls} => ?_⟩
    · rw [registered]
      exact watched.registered
    · rw [registered,baselines,takenAt_controls taken,controlFor_controls]
      intro here
      obtain current | waiting | running := watched.held here
      · exact .inl current
      · exact .inr (.inr waiting)
      · rw [takenAt_idle idle] at running
        exact absurd running not_retires_empty
    · intro key epoch revision path generation running
      simp [taken] at running
    · rw [taken,Option.some.injEq,WorkerTurn.controls.injEq]
      rintro rfl
      exact nodup_controls worker.state
  · have registered : ∀ path, worker.take.state.registeredAt path = worker.state.registeredAt path := fun path => by
      unfold State.registeredAt
      rw [watches]
    refine ⟨fun {path generation} => ?_,fun {path generation} => ?_,?_,fun {controls} => ?_⟩
    · rw [registered]
      exact watched.registered
    · rw [registered,baselines]
      intro here
      obtain current | waiting | running := watched.held here
      · exact .inl current
      · rw [controlAt_of_controls quiet] at waiting
        exact absurd waiting not_retires_empty
      · rw [takenAt_idle idle] at running
        exact absurd running not_retires_empty
    · intro key epoch revision path generation running
      rw [taken,Option.some.injEq,WorkerTurn.request.injEq] at running
      rw [registered]
      exact .inl (registeredAt_of_current running.2)
    · simp [taken]

/-- Applying the controls taken, path by path, or running the request taken. -/
theorem finish_watches (policy : LoaderPolicy) (disk : Disk) (worker : Worker) :
    worker.finish policy disk = worker ∨
    (∃ controls, worker.turn = some (.controls controls) ∧ (worker.finish policy disk).turn = none ∧
      (worker.finish policy disk).state.inFlight = worker.state.inFlight ∧
      (worker.finish policy disk).state.results = worker.state.results ∧
      (worker.finish policy disk).baselines = controls.foldl
        (fun baselines entry => baselines.control entry.1 entry.2) worker.baselines ∧
      ∀ path, (worker.finish policy disk).state.watchAt path = worker.state.watchAt path) ∨
    ∃ key request, worker.turn = some (.request key request) ∧ (worker.finish policy disk).turn = none ∧
      (worker.finish policy disk).state.inFlight = worker.state.inFlight.erase key ∧
      ((worker.finish policy disk).state.results = worker.state.results ∨
        (worker.finish policy disk).state.results =
          worker.state.results ++ [(key,(runRequest policy disk worker.baselines request).1)]) ∧
      (worker.finish policy disk).baselines = (runRequest policy disk worker.baselines request).2 ∧
      ∀ path, (worker.finish policy disk).state.watchAt path = worker.state.watchAt path := by
  cases taken : worker.turn with
  | none => exact .inl (by simp [Worker.finish,taken])
  | some turn =>
    cases turn with
    | controls controls =>
      simp only [Worker.finish,taken]
      exact .inr (.inl ⟨controls,rfl,trivial,rfl,rfl,rfl,fun path => watchAt_pruneWatches _ path⟩)
    | request key request =>
      simp only [Worker.finish,taken]
      refine .inr (.inr ⟨key,request,rfl,trivial,?_,?_,rfl,fun path => by simp⟩)
      · obtain ⟨next,_,after⟩ | ⟨_,after⟩ := answer_cases (worker.state.syncConfigMetrics
            (runRequest policy disk worker.baselines request).2) key
            (runRequest policy disk worker.baselines request).1 <;>
        · rw [after]
          rfl
      · obtain ⟨next,_,after⟩ | ⟨_,after⟩ := answer_cases (worker.state.syncConfigMetrics
            (runRequest policy disk worker.baselines request).2) key
            (runRequest policy disk worker.baselines request).1
        · exact .inl (by rw [after]; rfl)
        · exact .inr (by rw [after]; rfl)

theorem Watched.finish (watched : Watched gens worker) (policy : LoaderPolicy) (disk : Disk) :
    Watched gens (worker.finish policy disk) := by
  obtain same | ⟨controls,taken,idle,_,_,baselines,watches⟩ | ⟨key,request,taken,idle,_,_,baselines,watches⟩ :=
    finish_watches policy disk worker
  · rw [same]
    exact watched
  · refine ⟨fun {path generation} => ?_,fun {path generation} => ?_,by simp [idle],by simp [idle]⟩
    · unfold State.registeredAt
      rw [watches]
      exact watched.registered
    · rw [baselines,cell_controls (watched.distinct taken)]
      intro here
      obtain ⟨before,kept⟩ := ConfigCell.holds_of_control here
      rw [← takenAt_controls taken] at kept
      unfold State.registeredAt State.controlAt
      rw [watches]
      obtain current | waiting | running := watched.held before
      · exact .inl current
      · exact .inr (.inl waiting)
      · exact absurd running kept
  · refine ⟨fun {path generation} => ?_,fun {path generation} => ?_,by simp [idle],by simp [idle]⟩
    · unfold State.registeredAt
      rw [watches]
      exact watched.registered
    · have known : (worker.baselines.cell path).Holds generation →
          worker.state.registeredAt path = some generation ∨ (worker.state.controlAt path).Retires generation := by
        intro here
        obtain current | waiting | running := watched.held here
        · exact .inl current
        · exact .inr waiting
        · rw [takenAt_request taken] at running
          exact absurd running not_retires_empty
      have settled : ((worker.finish policy disk).baselines.cell path).Holds generation →
          worker.state.registeredAt path = some generation ∨ (worker.state.controlAt path).Retires generation := by
        intro here
        rw [baselines] at here
        by_cases own : request.key = .config path
        · cases request with
          | scan epoch revision dir => simp [Request.key] at own
          | plugin epoch revision other => simp [Request.key] at own
          | config epoch revision other watchGeneration =>
            simp only [Request.key,WorkKey.config.injEq] at own
            subst own
            cases watchGeneration with
            | none =>
              rw [cell_runRequest_unwatched] at here
              exact known here
            | some asked =>
              obtain ⟨read,_,left⟩ := read_runRequest policy disk worker.baselines epoch revision other asked
              obtain before | rfl := left.holds here
              · exact known before
              · exact watched.reading taken
        · rw [cell_runRequest_other disk own] at here
          exact known here
      intro here
      unfold State.registeredAt State.controlAt
      rw [watches]
      exact (settled here).imp_right .inl

/-- A submit asks for the generation its path is watched at, or for none. -/
def Request.Asks (gens : Path → Option Nat) (request : Request) : Prop :=
  ∀ path generation, request.watch = some (path,generation) → gens path = some generation

theorem registeredAt_trySubmit (watched : Watched gens worker) {request : Request} (asks : request.Asks gens)
    (policy : LoaderPolicy) (path : Path) :
    ((trySubmit policy worker.state request).2.registeredAt path = worker.state.registeredAt path ∨
      (trySubmit policy worker.state request).2.registeredAt path = gens path) ∧
    (worker.state.registeredAt path = gens path →
      (trySubmit policy worker.state request).2.registeredAt path = gens path) ∧
    (trySubmit policy worker.state request).2.controlAt path = worker.state.controlAt path := by
  unfold State.registeredAt State.controlAt
  obtain after | after := watchAt_trySubmit policy worker.state request
  · rw [after]
    exact ⟨.inl rfl,id,rfl⟩
  rw [after]
  cases watch : request.watch with
  | none => exact ⟨.inl rfl,id,rfl⟩
  | some asked =>
    obtain ⟨here,generation⟩ := asked
    rw [watchAt_registerWatch]
    split
    next same =>
      subst same
      have current := asks path generation watch
      have registered : ((worker.state.registeredAt path).map (max · generation)).getD generation = generation := by
        cases known : worker.state.registeredAt path with
        | none => rfl
        | some old =>
          have same := watched.registered known
          rw [current] at same
          cases same
          simp
      simp [registered,current]
    · exact ⟨.inl rfl,id,rfl⟩

theorem Watched.submit (watched : Watched gens worker) {request : Request} (asks : request.Asks gens)
    (policy : LoaderPolicy) : Watched gens (worker.lock (trySubmit policy worker.state request).2) := by
  have registered := registeredAt_trySubmit watched asks policy
  have keeps : ∀ {path generation}, worker.state.registeredAt path = some generation →
      (trySubmit policy worker.state request).2.registeredAt path = some generation := by
    intro path generation here
    have current := watched.registered here
    rw [← current]
    exact (registered path).2.1 (here.trans current.symm)
  constructor
  · intro path generation here
    obtain same | same := (registered path).1
    · exact watched.registered (same.symm.trans here)
    · exact same.symm.trans here
  · intro path generation here
    have before := watched.held here
    simp only [Worker.lock,Worker.takenAt,(registered path).2.2] at before ⊢
    exact before.imp_left keeps
  · intro key epoch revision path generation running
    simp only [Worker.lock,(registered path).2.2]
    exact (watched.reading running).imp_left keeps
  · exact watched.distinct

theorem Watched.tryResult (watched : Watched gens worker) :
    Watched gens (worker.lock (LoaderWorker.tryResult worker.state).2) :=
  watched.of_same (watchAt_tryResult worker.state) rfl rfl

theorem Watched.resolve (watched : Watched gens worker) (here : Path) (generation revision : Nat) (applied : Bool) :
    Watched gens (worker.lock (resolveConfigWatch worker.state here generation revision applied)) := by
  have same : ∀ path, (resolveConfigWatch worker.state here generation revision applied).registeredAt path =
      worker.state.registeredAt path ∧
      ((resolveConfigWatch worker.state here generation revision applied).controlAt path).retireGeneration =
        (worker.state.controlAt path).retireGeneration := by
    intro path
    by_cases own : path = here
    · subst own
      obtain ⟨resolution,_,after⟩ := watchAt_resolve worker.state path generation revision applied
      unfold State.registeredAt State.controlAt
      rw [after]
      exact ⟨rfl,rfl⟩
    · unfold State.registeredAt State.controlAt
      rw [watchAt_resolve_other own]
      exact ⟨rfl,rfl⟩
  constructor
  · intro path generation here
    exact watched.registered ((same path).1.symm.trans here)
  · intro path generation here
    have before := watched.held here
    unfold ConfigControl.Retires at before ⊢
    simp only [Worker.lock,Worker.takenAt,same] at before ⊢
    exact before
  · intro key epoch revision path generation running
    have before := watched.reading running
    unfold ConfigControl.Retires at before ⊢
    simp only [Worker.lock,same] at before ⊢
    exact before
  · exact watched.distinct

/-- A path newly watched was not registered before. -/
theorem Watched.mint (watched : Watched gens worker) {gens' : Path → Option Nat} {here : Path}
    (fresh : gens here = none) (others : ∀ path, path ≠ here → gens' path = gens path) : Watched gens' worker := by
  refine { watched with registered := ?_ }
  intro path generation known
  have current := watched.registered known
  rw [others path]
  · exact current
  · rintro rfl
    rw [fresh] at current
    cases current

/-- The last watcher's generation is retired with its registration. -/
theorem Watched.retire (watched : Watched gens worker) {gens' : Path → Option Nat} {here : Path} {generation : Nat}
    (current : gens here = some generation) (others : ∀ path, path ≠ here → gens' path = gens path) :
    Watched gens' (worker.lock (retireConfigWatch worker.state here generation)) := by
  have elsewhere : ∀ {path}, path ≠ here →
      (retireConfigWatch worker.state here generation).watchAt path = worker.state.watchAt path :=
    fun apart => watchAt_retire_other apart generation
  have unregistered : (retireConfigWatch worker.state here generation).registeredAt here = none := by
    by_cases known : here ∈ worker.state.configWatches
    · unfold State.registeredAt
      rw [watchAt_retire known]
      split
      · rfl
      next other =>
        cases old : worker.state.registeredAt here with
        | none => rfl
        | some held =>
          have held := watched.registered old
          rw [current] at held
          cases held
          exact absurd old other
    · rw [retire_unknown known]
      unfold State.registeredAt
      rw [watchAt_unknown known]
  have retires : ∀ {held},
      worker.state.registeredAt here = some held ∨ (worker.state.controlAt here).Retires held →
      ((retireConfigWatch worker.state here generation).controlAt here).Retires held := by
    intro held owed
    by_cases known : here ∈ worker.state.configWatches
    · unfold State.controlAt
      rw [watchAt_retire known]
      refine ⟨_,rfl,?_⟩
      obtain registered | ⟨retired,waiting,below⟩ := owed
      · have same := watched.registered registered
        rw [current,Option.some.injEq] at same
        subst same
        cases (worker.state.controlAt here).retireGeneration <;> simp
      · simp only [waiting,Option.map_some,Option.getD_some]
        omega
    · unfold State.registeredAt State.controlAt ConfigControl.Retires at owed
      rw [watchAt_unknown known] at owed
      simp at owed
  constructor
  · intro path held registered
    by_cases own : path = here
    · subst own
      cases unregistered.symm.trans registered
    · rw [others path own]
      apply watched.registered
      unfold State.registeredAt at registered ⊢
      rw [← elsewhere own]
      exact registered
  · intro path held kept
    have before := watched.held kept
    by_cases own : path = here
    · subst own
      rw [← or_assoc] at before
      exact .inr (before.imp_left retires)
    · unfold State.registeredAt State.controlAt Worker.takenAt at before ⊢
      simpa only [Worker.lock,elsewhere own] using before
  · intro key epoch revision path held running
    have before := watched.reading running
    by_cases own : path = here
    · subst own
      exact .inr (retires before)
    · unfold State.registeredAt State.controlAt at before ⊢
      simpa only [Worker.lock,elsewhere own] using before
  · exact watched.distinct

end Watched

end S2Script.LoaderWorker
