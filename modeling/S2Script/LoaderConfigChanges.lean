import S2Script.LoaderConfigRuns

/-! What the plugins are told of their config files. A change handed to a plugin
differs from what it was told last, as long as a change is handed to every seeded
watcher of its path or to none. -/
namespace S2Script.Loader

open LoaderWorker

/-! ### The log of deliveries -/

/-- The content last delivered to a plugin for a generation. -/
def lastContent (log : List Delivery) (id : String) (generation : Nat) : Option (Option String) :=
  ((log.filter fun delivery => delivery.id = id ∧ delivery.generation = generation).getLast?).map Delivery.content

/-- Every re-materialized content differs from the one delivered before it. -/
def OnlyChanges (log : List Delivery) : Prop :=
  ∀ earlier delivery later, log = earlier ++ delivery :: later → delivery.initial = false →
    ∃ last, lastContent earlier delivery.id delivery.generation = some last ∧ last ≠ delivery.content

section Log

variable {log later : List Delivery} {id : String} {generation : Nat}

theorem onlyChanges_nil : OnlyChanges [] := by
  intro earlier delivery later split
  simp at split

theorem lastContent_append_other
    (others : ∀ delivery ∈ later, ¬(delivery.id = id ∧ delivery.generation = generation)) :
    lastContent (log ++ later) id generation = lastContent log id generation := by
  have none : later.filter (fun delivery => delivery.id = id ∧ delivery.generation = generation) = [] := by
    simpa [List.filter_eq_nil_iff] using others
  rw [lastContent,List.filter_append,none,List.append_nil]
  rfl

theorem lastContent_append {content : Option String} {delivery : Delivery} (member : delivery ∈ later)
    (own : delivery.id = id ∧ delivery.generation = generation)
    (contents : ∀ delivery ∈ later, delivery.content = content) :
    lastContent (log ++ later) id generation = some content := by
  have kept : delivery ∈ later.filter (fun delivery => delivery.id = id ∧ delivery.generation = generation) := by
    simp [member,own]
  rw [lastContent,List.filter_append,List.getLast?_append_of_ne_nil _ (List.ne_nil_of_mem kept),
    List.getLast?_eq_some_getLast (List.ne_nil_of_mem kept),Option.map_some]
  exact congrArg some (contents _ (List.mem_filter.mp (List.getLast_mem _)).1)

theorem OnlyChanges.snoc (changes : OnlyChanges log) {delivery : Delivery}
    (fresh : delivery.initial = false →
      ∃ last, lastContent log delivery.id delivery.generation = some last ∧ last ≠ delivery.content) :
    OnlyChanges (log ++ [delivery]) := by
  intro earlier found rest split repeated
  obtain ⟨middle,rfl,same⟩ | ⟨middle,rfl,same⟩ := List.append_eq_append_iff.mp split
  · cases middle with
    | nil =>
      obtain ⟨rfl,_⟩ := List.cons.inj same
      simpa using fresh repeated
    | cons other middle => simp at same
  · cases middle with
    | nil =>
      obtain ⟨rfl,_⟩ := List.cons.inj same
      simpa using fresh repeated
    | cons other middle =>
      obtain ⟨rfl,_⟩ := List.cons.inj same
      exact changes earlier found middle rfl repeated

/-- One delivery to each of some plugins, each new to its plugin. -/
theorem OnlyChanges.append (changes : OnlyChanges log) (distinct : (later.map Delivery.id).Nodup)
    (fresh : ∀ delivery ∈ later, delivery.initial = false →
      ∃ last, lastContent log delivery.id delivery.generation = some last ∧ last ≠ delivery.content) :
    OnlyChanges (log ++ later) := by
  induction later generalizing log with
  | nil => simpa using changes
  | cons delivery later ih =>
    obtain ⟨alone,distinct⟩ := List.nodup_cons.mp distinct
    rw [List.append_cons]
    apply ih (changes.snoc (fresh delivery (by simp))) distinct
    intro other member repeated
    rw [lastContent_append_other]
    · exact fresh other (by simp [member]) repeated
    · intro found same own
      obtain rfl := List.mem_singleton.mp same
      exact alone (own.1 ▸ List.mem_map_of_mem member)

end Log

/-! ### One result and its consumers -/

namespace Main

/-- The consumers that watch `path` at the generation the read was made for. -/
def watchersOf (main : Main) (path : Path) (watchGeneration : Option Nat) (consumers : List ConfigConsumer) :
    List String :=
  consumers.filterMap fun consumer => match consumer with
    | .watch id generation => if main.currentWatcher path watchGeneration id generation then some id else none
    | .plugin _ _ => none

/-- A current watcher and a consumer of the row at the generation are the same. -/
theorem mem_watchersOf (main : Main) (path : Path) (generation : Nat) (consumers : List ConfigConsumer)
    (id : String) : id ∈ main.watchersOf path (some generation) consumers ↔
      .watch id generation ∈ consumers ∧ main.configPaths.lookup id = some path ∧
        main.gens path = some generation := by
  simp only [watchersOf,List.mem_filterMap]
  constructor
  · rintro ⟨consumer,member,named⟩
    cases consumer with
    | plugin plugin revision => cases named
    | watch other held =>
      simp only [currentWatcher,Bool.and_eq_true,beq_iff_eq,Option.some.injEq] at named
      split at named
      next current =>
        obtain ⟨⟨rfl,here⟩,known⟩ := current
        cases named
        exact ⟨member,here,known⟩
      · cases named
  · rintro ⟨member,here,known⟩
    have known : main.configWatchGenerations.lookup path = some generation := known
    exact ⟨_,member,by simp [currentWatcher,here,known]⟩

theorem watchersOf_same {main after : Main} (same : SameWatch main after) (path : Path)
    (watchGeneration : Option Nat) (consumers : List ConfigConsumer) :
    after.watchersOf path watchGeneration consumers = main.watchersOf path watchGeneration consumers := by
  unfold watchersOf currentWatcher
  rw [same.configPaths,same.generations]

theorem watchersOf_unasked (main : Main) (path : Path) (consumers : List ConfigConsumer) :
    main.watchersOf path none consumers = [] := by
  simp only [watchersOf,List.filterMap_eq_nil_iff]
  intro consumer _
  cases consumer <;> simp [currentWatcher]

end Main

theorem ConfigConsumer.same_watch {id : String} {generation : Nat} {other : ConfigConsumer}
    (apart : (ConfigConsumer.watch id generation).same other = false) (held : Nat) : other ≠ .watch id held := by
  rintro rfl
  simp [ConfigConsumer.same] at apart

/-- A row names a plugin's watch once. -/
theorem nodup_watchersOf (main : Main) (path : Path) (watchGeneration : Option Nat)
    {consumers : List ConfigConsumer} (distinct : consumers.Pairwise fun a b => a.same b = false) :
    (main.watchersOf path watchGeneration consumers).Nodup := by
  unfold Main.watchersOf
  refine (List.pairwise_filterMap).mpr (distinct.imp ?_)
  intro a b apart id named other also
  cases a with
  | plugin plugin revision => cases named
  | watch first held =>
    cases b with
    | plugin plugin revision => cases also
    | watch second kept =>
      simp only at named also
      split at named <;> cases named
      split at also <;> cases also
      simpa [ConfigConsumer.same] using apart

/-- What a watcher is handed of a settled read. -/
def told (seeded : Finset String) (generation : Nat) (snapshot : ConfigSnapshot) (id : String) : Option Delivery :=
  if id ∉ seeded ∨ snapshot.watch = .changed then
    some ⟨id,generation,!decide (id ∈ seeded),snapshot.content⟩
  else none

theorem told_insert {seeded : Finset String} {id other : String} (apart : other ≠ id) (generation : Nat)
    (snapshot : ConfigSnapshot) :
    told (insert id seeded) generation snapshot other = told seeded generation snapshot other := by
  simp [told,apart]

section Consumers

variable {s : Settings} {host : Host} {path : Path}

theorem consume_plugin (plugin : Path) (revision : Nat) (watchGeneration : Option Nat)
    (result : Except String ConfigSnapshot) (state : Main × Nat) :
    let after := Main.consume s host path watchGeneration result state (.plugin plugin revision)
    after.1.configSeeded = state.1.configSeeded ∧ after.1.deliveries = state.1.deliveries ∧ after.2 = state.2 := by
  intro after
  simp only [after,Main.consume]
  split
  · exact ⟨rfl,rfl,rfl⟩
  split
  · refine ⟨?_,?_,rfl⟩ <;>
    · unfold Main.attachConfig
      split
      · rfl
      · split <;> rfl
  · exact ⟨rfl,rfl,rfl⟩

theorem consume_stale {id : String} {held : Nat} {watchGeneration : Option Nat} {state : Main × Nat}
    (stale : state.1.currentWatcher path watchGeneration id held = false) (result : Except String ConfigSnapshot) :
    Main.consume s host path watchGeneration result state (.watch id held) = state := by
  cases result with
  | error reason => rfl
  | ok snapshot => simp [Main.consume,stale]

theorem consume_current (atomic : ∀ id, host.delivering id = []) {id : String} {held generation : Nat}
    {snapshot : ConfigSnapshot} {state : Main × Nat} (settled : snapshot.watch ≠ .pressure)
    (current : state.1.currentWatcher path (some generation) id held = true) :
    let after := Main.consume s host path (some generation) (.ok snapshot) state (.watch id held)
    after.1.configSeeded = insert id state.1.configSeeded ∧
    after.1.deliveries = state.1.deliveries ++ (told state.1.configSeeded generation snapshot id).toList ∧
    after.2 = state.2 + 1 := by
  have own : held = generation := by
    simp only [Main.currentWatcher,Bool.and_eq_true,beq_iff_eq,Option.some.injEq] at current
    exact current.1.1.symm
  subst own
  intro after
  simp only [after,Main.consume,current,Bool.not_true,Bool.false_eq_true,if_false,settled,Main.deliver,atomic,
    List.foldl_nil,told]
  by_cases seeded : id ∈ state.1.configSeeded <;> by_cases changed : snapshot.watch = .changed <;>
    simp [seeded,changed]

/-- Every current watcher of the row is seeded and handed the content once. -/
theorem consumers_told (atomic : ∀ id, host.delivering id = []) {generation : Nat} {snapshot : ConfigSnapshot}
    (settled : snapshot.watch ≠ .pressure) (consumers : List ConfigConsumer) (state : Main × Nat)
    (distinct : (state.1.watchersOf path (some generation) consumers).Nodup) :
    let ids := state.1.watchersOf path (some generation) consumers
    let after := consumers.foldl (Main.consume s host path (some generation) (.ok snapshot)) state
    after.1.configSeeded = state.1.configSeeded ∪ ids.toFinset ∧
    after.1.deliveries = state.1.deliveries ++ ids.filterMap (told state.1.configSeeded generation snapshot) ∧
    after.2 = state.2 + ids.length := by
  induction consumers generalizing state with
  | nil => simp [Main.watchersOf]
  | cons consumer consumers ih =>
    have same := sameWatch_consume atomic path (some generation) (.ok snapshot) state consumer (s := s)
    have rest := Main.watchersOf_same same path (some generation) consumers
    have next := ih (Main.consume s host path (some generation) (.ok snapshot) state consumer)
    rw [rest] at next
    intro ids after
    cases consumer with
    | plugin plugin revision =>
      have ids_eq : ids = state.1.watchersOf path (some generation) consumers := rfl
      obtain ⟨seeded,deliveries,count⟩ := @consume_plugin s host path plugin revision
        (some generation) (.ok snapshot) state
      rw [seeded,deliveries,count] at next
      exact next distinct
    | watch id held =>
      cases current : state.1.currentWatcher path (some generation) id held with
      | false =>
        have ids_eq : ids = state.1.watchersOf path (some generation) consumers := by
          simp [ids,Main.watchersOf,current]
        rw [consume_stale current] at next
        simp only [after,List.foldl_cons,consume_stale current,ids_eq]
        exact next (ids_eq ▸ distinct)
      | true =>
        have ids_eq : ids = id :: state.1.watchersOf path (some generation) consumers := by
          simp [ids,Main.watchersOf,current]
        obtain ⟨seeded,deliveries,count⟩ := consume_current (s := s) atomic settled current
        have distinct : ids.Nodup := distinct
        rw [ids_eq,List.nodup_cons] at distinct
        obtain ⟨alone,distinct⟩ := distinct
        obtain ⟨nextSeeded,nextDeliveries,nextCount⟩ := next distinct
        have others : (state.1.watchersOf path (some generation) consumers).filterMap
            (told (insert id state.1.configSeeded) generation snapshot) =
            (state.1.watchersOf path (some generation) consumers).filterMap
              (told state.1.configSeeded generation snapshot) := by
          apply List.filterMap_congr
          intro other member
          apply told_insert
          rintro rfl
          exact alone member
        simp only [after,List.foldl_cons,ids_eq]
        refine ⟨?_,?_,?_⟩
        · rw [nextSeeded,seeded]
          simp [Finset.insert_union]
        · rw [nextDeliveries,deliveries,seeded,others,List.append_assoc]
          cases here : told state.1.configSeeded generation snapshot id <;>
            simp [here]
        · rw [nextCount,count,List.length_cons]
          omega

/-- A read that failed or met pressure tells nobody anything. -/
theorem consumers_untold {watchGeneration : Option Nat} {result : Except String ConfigSnapshot}
    (untold : ∀ snapshot, result = .ok snapshot → snapshot.watch = .pressure ∨ watchGeneration = none)
    (consumers : List ConfigConsumer) (state : Main × Nat) :
    let after := consumers.foldl (Main.consume s host path watchGeneration result) state
    after.1.configSeeded = state.1.configSeeded ∧ after.1.deliveries = state.1.deliveries := by
  induction consumers generalizing state with
  | nil => exact ⟨rfl,rfl⟩
  | cons consumer consumers ih =>
    obtain ⟨seeded,deliveries⟩ := ih (Main.consume s host path watchGeneration result state consumer)
    have here : (Main.consume s host path watchGeneration result state consumer).1.configSeeded =
        state.1.configSeeded ∧
        (Main.consume s host path watchGeneration result state consumer).1.deliveries = state.1.deliveries := by
      cases consumer with
      | plugin plugin revision =>
        obtain ⟨seeded,deliveries,_⟩ := @consume_plugin s host path plugin revision
          watchGeneration result state
        exact ⟨seeded,deliveries⟩
      | watch id held =>
        cases result with
        | error reason => exact ⟨rfl,rfl⟩
        | ok snapshot =>
          obtain pressure | unasked := untold snapshot rfl
          · simp only [Main.consume]
            split
            · exact ⟨rfl,rfl⟩
            · simp
          · subst unasked
            rw [consume_stale (by simp [Main.currentWatcher])]
            exact ⟨rfl,rfl⟩
    exact ⟨seeded.trans here.1,deliveries.trans here.2⟩

end Consumers

/-! ### Popping a result and the worker's turns -/

theorem tryResult_head (state : State) : (LoaderWorker.tryResult state).1 = state.results.head? := by
  unfold LoaderWorker.tryResult
  split
  next none => rw [none]; rfl
  next waiting =>
    rw [waiting]
    split <;> rfl

/-- The state without its oldest result and the obligation that one ends. -/
def popped (state : State) (key : WorkKey) (later : List (WorkKey × WorkerResult)) : State :=
  match state.obligations.lookup key with
  | none => { state with results := later }
  | some (request,reserved) =>
    { state with
      results := later
      obligations := state.obligations.erase key
      requestBytes := state.requestBytes - request
      reservedResultBytes := state.reservedResultBytes - reserved }

theorem tryResult_waiting {state : State} {key : WorkKey} {result : WorkerResult}
    {later : List (WorkKey × WorkerResult)} (waiting : state.results = (key,result) :: later) :
    LoaderWorker.tryResult state = (some (key,result),popped state key later) := by
  unfold LoaderWorker.tryResult popped
  rw [waiting]
  simp only
  cases state.obligations.lookup key <;> rfl

theorem pop_take (worker : Worker) (key : WorkKey) (later : List (WorkKey × WorkerResult)) :
    (worker.lock (popped worker.state key later)).take =
      worker.take.lock (popped worker.take.state key later) := by
  obtain ⟨state,baselines,turn⟩ := worker
  have controls : (popped state key later).controls = state.controls := by
    unfold popped State.controls
    split <;> rfl
  have order : (popped state key later).order = state.order := by
    unfold popped
    split <;> rfl
  have pending : (popped state key later).pending = state.pending := by
    unfold popped
    split <;> rfl
  cases turn with
  | some turn => rfl
  | none =>
    unfold Worker.take
    simp only [Worker.lock,controls,order,pending]
    split
    · unfold popped
      cases state.obligations.lookup key <;> rfl
    · split
      · rfl
      · split <;>
        · unfold popped
          cases state.obligations.lookup key <;> rfl

theorem popped_answer {state : State} {key : WorkKey} {result : WorkerResult}
    {later : List (WorkKey × WorkerResult)} (waiting : state.results = (key,result) :: later)
    (answered : WorkKey) (answer : WorkerResult) :
    ∃ later', (state.answer answered answer).results = (key,result) :: later' ∧
      (popped state key later).answer answered answer = popped (state.answer answered answer) key later' := by
  have rerun : (popped state key later).rerun = state.rerun := by
    unfold popped
    split <;> rfl
  unfold State.answer
  simp only [rerun]
  split
  · refine ⟨later,waiting,?_⟩
    unfold popped
    cases state.obligations.lookup key <;> rfl
  · refine ⟨later ++ [(answered,answer)],by simp [waiting],?_⟩
    unfold popped
    cases state.obligations.lookup key <;> rfl

theorem pop_finish {worker : Worker} {key : WorkKey} {result : WorkerResult}
    {later : List (WorkKey × WorkerResult)} (waiting : worker.state.results = (key,result) :: later)
    (policy : LoaderPolicy) (disk : Disk) :
    ∃ later', (worker.finish policy disk).state.results = (key,result) :: later' ∧
      (worker.lock (popped worker.state key later)).finish policy disk =
        (worker.finish policy disk).lock (popped (worker.finish policy disk).state key later') := by
  obtain ⟨state,baselines,turn⟩ := worker
  cases turn with
  | none => exact ⟨later,waiting,rfl⟩
  | some turn =>
    cases turn with
    | controls controls =>
      have pruned : ∀ after, (popped state key later).pruneWatches.syncConfigMetrics after =
          popped (state.pruneWatches.syncConfigMetrics after) key later := by
        intro after
        have same : (state.pruneWatches.syncConfigMetrics after).obligations = state.obligations := rfl
        unfold popped
        rw [same]
        cases state.obligations.lookup key <;> rfl
      refine ⟨later,waiting,?_⟩
      simp only [Worker.lock,Worker.finish,pruned]
    | request asked request =>
      have synced : ∀ after, (popped state key later).syncConfigMetrics after =
          popped (state.syncConfigMetrics after) key later := by
        intro after
        have same : (state.syncConfigMetrics after).obligations = state.obligations := rfl
        unfold popped
        rw [same]
        cases state.obligations.lookup key <;> rfl
      obtain ⟨later',results,same⟩ := @popped_answer (state.syncConfigMetrics
        (runRequest policy disk baselines request).2) key result later waiting asked (runRequest policy disk baselines request).1
      refine ⟨later',results,?_⟩
      simp only [Worker.lock,Worker.finish,synced,same]

/-- The worker adds answers behind the oldest one and reads none of them. -/
theorem pop_turn {policy : LoaderPolicy} {sys : System} {key : WorkKey} {result : WorkerResult}
    {later : List (WorkKey × WorkerResult)} (waiting : sys.worker.state.results = (key,result) :: later)
    (turn : Turn) :
    (∃ later', (sys.advance policy turn.event).worker.state.results = (key,result) :: later') ∧
    (sys.advance policy .tryResult).advance policy turn.event =
      (sys.advance policy turn.event).advance policy .tryResult := by
  cases turn with
  | take =>
    have kept := (take_keeps sys.worker).2.trans waiting
    refine ⟨⟨later,kept⟩,?_⟩
    simp only [Turn.event,System.advance,tryResult_waiting waiting,tryResult_waiting kept,pop_take]
  | finish disk =>
    obtain ⟨later',kept,same⟩ := pop_finish waiting policy disk
    refine ⟨⟨later',kept⟩,?_⟩
    simp only [Turn.event,System.advance,tryResult_waiting waiting,tryResult_waiting kept,same]

theorem pop_turns {policy : LoaderPolicy} (turns : List Turn) {sys : System} {key : WorkKey}
    {result : WorkerResult} {later : List (WorkKey × WorkerResult)}
    (waiting : sys.worker.state.results = (key,result) :: later) :
    (∃ later', (System.execute policy (turns.map Turn.event) sys).worker.state.results = (key,result) :: later') ∧
    System.execute policy (turns.map Turn.event) (sys.advance policy .tryResult) =
      (System.execute policy (turns.map Turn.event) sys).advance policy .tryResult := by
  induction turns generalizing sys later with
  | nil => exact ⟨⟨later,waiting⟩,rfl⟩
  | cons turn turns ih =>
    obtain ⟨⟨next,kept⟩,same⟩ := @pop_turn policy sys key result later waiting turn
    simp only [List.map_cons,System.execute]
    rw [same]
    exact ih kept

end S2Script.Loader
