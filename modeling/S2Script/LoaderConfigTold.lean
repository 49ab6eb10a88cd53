import S2Script.LoaderConfigChanges
import S2Script.LoaderIdsRuns

/-! Watched configs, run by run: a change handed to every seeded watcher of its
path, or to none, is never lost and never repeated. One read that reaches only
some of the watchers of a shared path breaks this for the others. -/
namespace S2Script.Loader

open LoaderWorker

/-- What the loader knows of its seeded watchers: the content each was told last
is the one that counts as committed for its path. -/
structure Told (main : Main) : Prop where
  answering : Answering main.gens main.nextConfigWatchGeneration main.sys.worker
  followed : ∀ {id path}, main.configPaths.lookup id = some path → ∃ generation, main.gens path = some generation
  rows : ∀ {path row}, main.configPending.lookup path = some row →
    row.consumers.Pairwise fun a b => a.same b = false
  seeded : ∀ id ∈ main.configSeeded, ∃ path generation content, main.configPaths.lookup id = some path ∧
    main.gens path = some generation ∧ lastContent main.deliveries id generation = some content ∧
    main.sys.worker.Effective path generation content
  changes : OnlyChanges main.deliveries

theorem told_start : Told {} where
  answering := answering_start
  followed := by simp
  rows := by simp
  seeded := by simp
  changes := onlyChanges_nil

section Told

variable {s : Settings} {main : Main}

theorem Told.turn (told : Told main) (kept : Kept s main.gens main.sys) (turn : Turn) :
    Told { main with sys := main.sys.advance s.policy turn.event } := by
  refine { told with answering := ?_, seeded := ?_ }
  · cases turn with
    | take => exact told.answering.take kept.watched
    | finish disk => exact told.answering.finish kept.watched kept.queue.placed kept.queue.latest s.policy disk
  · intro id member
    obtain ⟨path,generation,content,here,current,last,effective⟩ := told.seeded id member
    refine ⟨path,generation,content,here,current,last,?_⟩
    cases turn with
    | take => exact Effective.take effective
    | finish disk =>
      exact Effective.finish effective told.answering kept.watched kept.queue.latest current s.policy disk

theorem told_overtaken (sized : s.policy.Sized) (told : Told main) (kept : Kept s main.gens main.sys) :
    Told (main.overtaken s) := by
  have ran : ∀ (turns : List Turn) {sys : System}, Kept s main.gens sys → Told { main with sys := sys } →
      Told { main with sys := System.execute s.policy (turns.map Turn.event) sys } := by
    intro turns
    induction turns with
    | nil => exact fun _ told => told
    | cons turn turns ih =>
      exact fun kept told => ih (kept.turn sized turn) (told.turn kept turn)
  unfold Main.overtaken
  split
  · exact told
  next now later _ =>
    have here := ran now kept told
    exact { here with }

/-- A submit leaves the contents and the resolutions. -/
theorem Told.submit (told : Told main) (kept : Kept s main.gens main.sys) {request : Request}
    (asks : request.Asks main.gens) : Told { main with sys := main.sys.submit s.policy request } := by
  refine { told with answering := told.answering.submit kept.watched asks s.policy, seeded := ?_ }
  intro id member
  obtain ⟨path,generation,content,here,current,last,effective⟩ := told.seeded id member
  refine ⟨path,generation,content,here,current,last,Effective.of_same effective ?_ rfl⟩
  intro resolution
  have control := (registeredAt_trySubmit kept.watched asks s.policy path).2.2
  simp only [System.submit,Worker.Resolving,lock_state,takenAt_lock,control]

theorem told_trySubmit (sized : s.policy.Sized) (told : Told main) (kept : Kept s main.gens main.sys)
    {request : Request} (asks : request.Asks main.gens) : Told (main.trySubmit s request).2 := by
  have gens := overtaken_gens s main
  apply (told_overtaken sized told kept).submit
  · rw [gens]
    exact kept_overtaken sized kept
  · rw [gens]
    exact asks

theorem same_of_same {a b consumer : ConfigConsumer} (first : a.same consumer = true)
    (second : b.same consumer = true) : a.same b = true := by
  cases a <;> cases b <;> cases consumer <;> simp_all [ConfigConsumer.same]

/-- Joining a row replaces the consumer's older self. -/
theorem pairwise_joined (s : Settings) {row : PendingConfig} (revision : Nat) (consumer : ConfigConsumer)
    (distinct : row.consumers.Pairwise fun a b => a.same b = false) :
    (row.joined s revision consumer).consumers.Pairwise fun a b => a.same b = false := by
  have erased : ∀ {consumers : List ConfigConsumer}, (consumers.Pairwise fun a b => a.same b = false) →
      ∀ other ∈ consumers.eraseP (·.same consumer), other.same consumer = false := by
    intro consumers
    induction consumers with
    | nil => simp
    | cons first rest ih =>
      intro distinct other member
      obtain ⟨apart,distinct⟩ := List.pairwise_cons.mp distinct
      cases same : first.same consumer with
      | true =>
        simp only [List.eraseP_cons,same,cond_true] at member
        cases also : other.same consumer with
        | false => rfl
        | true => exact absurd (same_of_same same also) (by simp [apart other member])
      | false =>
        simp only [List.eraseP_cons,same,cond_false] at member
        obtain rfl | member := List.mem_cons.mp member
        · exact same
        · exact ih distinct other member
  rw [PendingConfig.joined,List.pairwise_append]
  refine ⟨distinct.sublist List.eraseP_sublist,by simp,?_⟩
  intro other member found single
  obtain rfl := List.mem_singleton.mp single
  exact erased distinct other member

theorem told_queueConfig (sized : s.policy.Sized) (told : Told main) (kept : Kept s main.gens main.sys)
    (path : Path) (consumer : ConfigConsumer) : Told (main.queueConfig s path consumer).2 := by
  obtain same | ⟨request,asks,same | same⟩ := queueConfig_asks s main path consumer <;> rw [same]
  · exact told
  · exact told_trySubmit sized told kept asks
  · have submitted := told_trySubmit sized told kept asks
    refine { submitted with rows := ?_ }
    intro other row found
    simp only [Table.lookup_insert_eq] at found
    split at found
    · cases found
      apply pairwise_joined
      cases here : main.configPending.lookup path with
      | none => simp
      | some row => exact told.rows here
    · exact told.rows found

theorem told_queueWatched (sized : s.policy.Sized) (told : Told main) (kept : Kept s main.gens main.sys)
    (visitIds : List String) : Told (main.queueWatched s visitIds) := by
  unfold Main.queueWatched
  extract_lets watched
  induction watched generalizing main with
  | nil => exact told
  | cons entry watched ih =>
    exact ih (told_queueConfig sized told kept entry.2.1 (.watch entry.1 entry.2.2))
      (kept_queueConfig sized kept entry.2.1 (.watch entry.1 entry.2.2))

theorem told_watching (told : Told main) (kept : Kept s main.gens main.sys) {id : String} (path : Path)
    (unwatched : id ∉ main.configPaths) (unwrapped : main.nextConfigWatchGeneration + 1 < 2 ^ 64) :
    Told (main.watching id path) := by
  have known : ∀ {other found}, main.configPaths.lookup other = some found →
      (main.configPaths.insert id path).lookup other = some found := by
    intro other found here
    rw [Table.lookup_insert_eq,if_neg]
    · exact here
    · rintro rfl
      exact unwatched (Table.mem_of_lookup here)
  obtain ⟨member,same⟩ | ⟨fresh,same⟩ := watching_cases main id path <;> rw [same]
  · refine { told with followed := ?_, seeded := ?_ }
    · intro other found here
      simp only [Table.lookup_insert_eq] at here
      split at here
      · cases here
        exact Table.lookup_of_mem member
      · exact told.followed here
    · intro other member
      obtain ⟨found,generation,content,here,rest⟩ := told.seeded other member
      exact ⟨found,generation,content,known here,rest⟩
  · have minted := Nat.mod_eq_of_lt unwrapped
    have others : ∀ {other}, other ≠ path →
        (main.configWatchGenerations.insert path (main.nextConfigWatchGeneration + 1)).lookup other =
          main.gens other := fun apart => AList.lookup_insert_ne apart
    have older : ∀ {other generation}, main.gens other = some generation → other ≠ path := by
      rintro other generation current rfl
      rw [fresh] at current
      cases current
    simp only [minted]
    exact {
      answering := told.answering.mint kept.watched (AList.lookup_insert _) fun other => others
      followed := by
        intro other found here
        by_cases same : found = path
        · subst same
          exact ⟨_,AList.lookup_insert _⟩
        · simp only [Table.lookup_insert_eq] at here
          split at here
          · cases here
            exact absurd rfl same
          · obtain ⟨generation,current⟩ := told.followed here
            exact ⟨generation,(others same).trans current⟩
      rows := told.rows
      seeded := by
        intro other member
        obtain ⟨found,generation,content,here,current,rest⟩ := told.seeded other member
        exact ⟨found,generation,content,known here,(others (older current)).trans current,rest⟩
      changes := told.changes }

theorem told_watchConfigFor (sized : s.policy.Sized) (told : Told main) (kept : Kept s main.gens main.sys)
    (id : String) (resolved : Except String Path) (unwrapped : main.nextConfigWatchGeneration + 1 < 2 ^ 64) :
    Told (main.watchConfigFor s resolved id) := by
  obtain same | ⟨path,generation,_,unwatched,same⟩ := watchConfigFor_cases s main resolved id <;> rw [same]
  · exact told
  · exact told_queueConfig sized (told_watching told kept path unwatched unwrapped) (kept_watching kept id path)
      path _

theorem told_unwatchConfigFor (sized : s.policy.Sized) (told : Told main) (kept : Kept s main.gens main.sys)
    (id : String) : Told (main.unwatchConfigFor s id) := by
  have others : ∀ {other found}, other ≠ id → main.configPaths.lookup other = some found →
      (main.configPaths.erase id).lookup other = some found := by
    intro other found apart here
    rw [AList.lookup_erase_ne apart]
    exact here
  have fewer : ∀ {other found}, (main.configPaths.erase id).lookup other = some found →
      main.configPaths.lookup other = some found := by
    intro other found here
    rw [Table.lookup_erase_eq] at here
    split at here
    · cases here
    · exact here
  obtain ⟨_,same⟩ | ⟨same,_⟩ | ⟨path,generation,watched,last,current,same⟩ := unwatchConfigFor_cases s main id <;>
    rw [same]
  · refine { told with seeded := ?_ }
    intro other member
    exact told.seeded other (Finset.mem_of_mem_erase member)
  · refine { told with followed := fun here => told.followed (fewer here), seeded := ?_ }
    intro other member
    obtain ⟨found,generation,content,here,rest⟩ := told.seeded other (Finset.mem_of_mem_erase member)
    exact ⟨found,generation,content,others (Finset.ne_of_mem_erase member) here,rest⟩
  · have now := told_overtaken sized told kept
    have gens := overtaken_gens s main
    have apart : ∀ {other found}, (main.configPaths.erase id).lookup other = some found → found ≠ path := by
      rintro other found here rfl
      exact last other here
    have elsewhere : ∀ {other}, other ≠ path → (main.configWatchGenerations.erase path).lookup other =
        (main.overtaken s).gens other := by
      intro other apart
      rw [gens]
      exact AList.lookup_erase_ne apart
    have same : (main.overtaken s).configPaths = main.configPaths ∧
        (main.overtaken s).configSeeded = main.configSeeded := by
      unfold Main.overtaken
      split <;> exact ⟨rfl,rfl⟩
    exact {
      answering := now.answering.retire (gens ▸ current) (AList.lookup_erase path _) fun other => elsewhere
      followed := by
        intro other found here
        obtain ⟨generation,watchedAt⟩ := told.followed (fewer here)
        exact ⟨generation,(elsewhere (apart here)).trans (by rw [gens]; exact watchedAt)⟩
      rows := now.rows
      seeded := by
        intro other member
        have seeded := now.seeded other (by rw [same.2]; exact Finset.mem_of_mem_erase member)
        rw [same.1] at seeded
        obtain ⟨found,held,content,here,watchedAt,told,effective⟩ := seeded
        have here := others (Finset.ne_of_mem_erase member) here
        refine ⟨found,held,content,here,(elsewhere (apart here)).trans watchedAt,told,
          Effective.of_same effective ?_ rfl⟩
        intro resolution
        simp only [System.advance,Worker.Resolving,lock_state,takenAt_lock,State.controlAt,
          watchAt_retire_other (apart here)]
      changes := now.changes }

/-- Popping a result leaves what every watcher was told. -/
theorem Told.popped (told : Told main) : Told { main with sys := main.sys.advance s.policy .tryResult } := by
  refine { told with answering := told.answering.tryResult, seeded := ?_ }
  intro id member
  obtain ⟨path,generation,content,here,current,last,effective⟩ := told.seeded id member
  refine ⟨path,generation,content,here,current,last,Effective.of_same effective ?_ rfl⟩
  intro resolution
  simp [System.advance,Worker.Resolving,State.controlAt]

/-! ### Resolving a popped result -/

/-- The oldest result answers a config read for a generation and holds a proposal. -/
structure Proposes (sys : System) (path : Path) (generation revision : Nat) (snapshot : ConfigSnapshot) : Prop where
  waiting : ∃ epoch later, sys.worker.state.results =
    (.config path,.config epoch revision path (some generation) (.ok snapshot)) :: later
  proposal : snapshot.watch = .seed ∨ snapshot.watch = .changed

section Proposes

variable {path : Path} {generation revision : Nat} {snapshot : ConfigSnapshot}

theorem Proposes.answers (proposes : Proposes main.sys path generation revision snapshot) (told : Told main) :
    generation ≤ main.nextConfigWatchGeneration ∧ (main.gens path = some generation →
      main.sys.worker.state.registeredAt path = some generation ∧
        (main.sys.worker.baselines.cell path).Answers generation revision snapshot) := by
  obtain ⟨epoch,later,waiting⟩ := proposes.waiting
  exact told.answering.answered (waiting ▸ List.mem_cons_self)

theorem Proposes.unresolved (proposes : Proposes main.sys path generation revision snapshot) (told : Told main)
    (resolution : Nat × Nat × Bool) : ¬main.sys.worker.Resolving path resolution := by
  obtain ⟨epoch,later,waiting⟩ := proposes.waiting
  exact not_resolving_of_answered told.answering (waiting ▸ List.mem_cons_self) resolution

theorem Proposes.proposed (proposes : Proposes main.sys path generation revision snapshot) (told : Told main)
    (current : main.gens path = some generation) :
    (main.sys.worker.baselines.cell path).proposal = some ⟨generation,revision,snapshot.content⟩ := by
  have answers := ((proposes.answers told).2 current).2
  have held := proposes.proposal
  cases answers with
  | pressure | unchanged => simp at held
  | seed content stamp unseen proposed => exact proposed
  | changed content stamp old committed differs proposed => exact proposed

/-- Once popped, nothing else of the path is being read, so the resolution settles. -/
theorem Proposes.settling (proposes : Proposes main.sys path generation revision snapshot) (told : Told main)
    (kept : Kept s main.gens main.sys) {applied : Bool}
    (current : applied = true → main.gens path = some generation) :
    Settling main.gens main.nextConfigWatchGeneration (main.sys.advance s.policy .tryResult).worker path generation
      revision applied := by
  obtain ⟨epoch,later,waiting⟩ := proposes.waiting
  have answered : .config path ∈ main.sys.worker.state.queue.answered := by
    simp [State.queue,Queue.answered,waiting]
  have once := kept.queue.placed.answered_nodup
  simp only [Queue.answered,State.queue,waiting,List.map_cons,List.nodup_cons] at once
  have after : (main.sys.advance s.policy .tryResult).worker.state = popped main.sys.worker.state (.config path) later := by
    simp only [System.advance,Worker.lock,tryResult_waiting waiting]
  have inFlight : (popped main.sys.worker.state (.config path) later).inFlight = main.sys.worker.state.inFlight := by
    unfold Loader.popped
    split <;> rfl
  have results : (popped main.sys.worker.state (.config path) later).results = later := by
    unfold Loader.popped
    split <;> rfl
  exact {
    bounded := (proposes.answers told).1
    idle := by
      rw [after,inFlight]
      exact fun running => kept.queue.placed.running_not_answered _ running answered
    unanswered := by
      rw [after,results]
      exact fun result member => once.1 (List.mem_map.mpr ⟨_,member,rfl⟩)
    proposed := fun current => ⟨snapshot.content,proposes.proposed told current⟩
    stale := fun apply other watched apart => by
      rw [current apply,Option.some.injEq] at watched
      exact absurd watched.symm apart }

/-- Popping a result and resolving it: what its path's watchers were told last is
the content applied, or still the one that counted before. -/
theorem told_resolved {after : Main} {applied : Bool} (told : Told main) (kept : Kept s main.gens main.sys)
    (proposes : Proposes main.sys path generation revision snapshot)
    (current : applied = true → main.gens path = some generation)
    (sys : after.sys = (main.sys.advance s.policy .tryResult).advance s.policy
      (.resolveConfigWatch path generation revision applied))
    (paths : after.configPaths = main.configPaths)
    (generations : after.configWatchGenerations = main.configWatchGenerations)
    (next : after.nextConfigWatchGeneration = main.nextConfigWatchGeneration)
    (rows : ∀ {other row}, after.configPending.lookup other = some row → main.configPending.lookup other = some row)
    (seeded : ∀ id ∈ after.configSeeded, ∃ other held content, main.configPaths.lookup id = some other ∧
      main.gens other = some held ∧ lastContent after.deliveries id held = some content ∧
      (main.sys.worker.Effective other held content ∧ (other = path → applied = false) ∨
        other = path ∧ applied = true ∧ content = snapshot.content))
    (changes : OnlyChanges after.deliveries) : Told after := by
  have gens : after.gens = main.gens := by
    unfold Main.gens
    rw [generations]
  have poppedTold := told.popped (s := s)
  have settling := proposes.settling (s := s) told kept current
  have unresolved := proposes.unresolved told
  have free : (main.sys.worker.takenAt path).resolution = none := by
    cases here : (main.sys.worker.takenAt path).resolution with
    | none => rfl
    | some resolution => exact absurd (.inr here) (unresolved resolution)
  have waiting : ((LoaderWorker.tryResult main.sys.worker.state).2.controlAt path).resolution = none := by
    cases here : (main.sys.worker.state.controlAt path).resolution with
    | none => simpa [State.controlAt] using here
    | some resolution => exact absurd (.inl here) (unresolved resolution)
  have resolves : ∀ {other}, other ≠ path → ∀ resolution,
      after.sys.worker.Resolving other resolution ↔ main.sys.worker.Resolving other resolution := by
    intro other apart resolution
    rw [sys]
    simp [System.advance,Worker.Resolving,State.controlAt,watchAt_resolve_other apart]
  have cell : ∀ other, after.sys.worker.baselines.cell other = main.sys.worker.baselines.cell other := by
    intro other
    rw [sys]
    rfl
  refine ⟨?_,?_,fun found => told.rows (rows found),?_,changes⟩
  · rw [gens,next,sys]
    exact poppedTold.answering.resolve settling free
  · intro id other here
    rw [gens]
    exact told.followed (paths ▸ here)
  · intro id member
    obtain ⟨other,held,content,here,watched,last,effective⟩ := seeded id member
    refine ⟨other,held,content,paths.symm ▸ here,gens.symm ▸ watched,last,?_⟩
    obtain ⟨effective,untouched⟩ | ⟨rfl,rfl,rfl⟩ := effective
    · by_cases own : other = path
      · subst own
        have discarded := untouched rfl
        subst discarded
        obtain ⟨found,ends,_⟩ | ⟨_,value⟩ := effective
        · exact absurd ends (unresolved _)
        refine .inr ⟨fun found ends => ?_,by rw [cell]; exact value⟩
        rw [sys] at ends
        obtain ⟨resolution,posted,now⟩ := watchAt_resolve (LoaderWorker.tryResult main.sys.worker.state).2 other
          generation revision false
        have ends : resolution = some (held,found,true) := by
          simpa [System.advance,Worker.Resolving,State.controlAt,now,free] using ends
        obtain rfl | rfl := posted
        · simp at ends
        · rw [waiting] at ends
          cases ends
      · exact Effective.of_same effective (resolves own) (cell other)
    · have here := current rfl
      rw [here,Option.some.injEq] at watched
      subst watched
      refine .inl ⟨revision,.inl ?_,by rw [cell]; exact proposes.proposed told here⟩
      rw [sys]
      apply resolution_resolve _ waiting
      apply @mem_of_registeredAt _ _ generation
      simpa [State.registeredAt] using ((proposes.answers told).2 here).1

end Proposes

/-! ### Handling a popped result -/

/-- What the watchers of a handled read are told: each the content, as a change
only if it is one, and nobody is left with another content than the one that
counts. -/
theorem told_consumers (told : Told main) {epoch generation revision : Nat} {path : Path}
    {snapshot : ConfigSnapshot}
    (waiting : (.config path,.config epoch revision path (some generation) (.ok snapshot)) ∈
      main.sys.worker.state.results)
    (settled : snapshot.watch ≠ .pressure) {consumers : List ConfigConsumer}
    (distinct : consumers.Pairwise fun a b => a.same b = false)
    (informed : snapshot.watch = .changed → main.watchersOf path (some generation) consumers ≠ [] →
      ∀ id ∈ main.configSeeded, main.configPaths.lookup id = some path → .watch id generation ∈ consumers) :
    let ids := main.watchersOf path (some generation) consumers
    let log := main.deliveries ++ ids.filterMap (Loader.told main.configSeeded generation snapshot)
    OnlyChanges log ∧ ∀ id ∈ main.configSeeded ∪ ids.toFinset, ∃ other held content,
      main.configPaths.lookup id = some other ∧ main.gens other = some held ∧
      lastContent log id held = some content ∧
      (main.sys.worker.Effective other held content ∧
        (other = path → snapshot.watch = .seed ∨ snapshot.watch = .changed → ids = []) ∨
      other = path ∧ (snapshot.watch = .seed ∨ snapshot.watch = .changed) ∧ ids ≠ [] ∧
        content = snapshot.content) := by
  intro ids log
  have unresolved := not_resolving_of_answered told.answering waiting
  have answers := (told.answering.answered waiting).2
  have watcher := main.mem_watchersOf path generation consumers
  -- a seeded watcher's content is the committed one while the result waits
  have committed : ∀ {id}, id ∈ main.configSeeded → main.configPaths.lookup id = some path →
      main.gens path = some generation → ∃ content, lastContent main.deliveries id generation = some content ∧
        (main.sys.worker.baselines.cell path).value = some ⟨generation,content⟩ := by
    intro id member here current
    obtain ⟨other,held,content,there,watched,last,effective⟩ := told.seeded id member
    rw [here,Option.some.injEq] at there
    subst there
    rw [current,Option.some.injEq] at watched
    subst watched
    obtain ⟨found,ends,_⟩ | ⟨_,value⟩ := effective
    · exact absurd ends (unresolved _)
    · exact ⟨content,last,value⟩
  have owner : ∀ delivery ∈ ids.filterMap (Loader.told main.configSeeded generation snapshot),
      delivery.id ∈ ids ∧ delivery.generation = generation ∧ delivery.content = snapshot.content ∧
        (delivery.initial = false → delivery.id ∈ main.configSeeded ∧ snapshot.watch = .changed) := by
    intro delivery member
    obtain ⟨id,listed,named⟩ := List.mem_filterMap.mp member
    unfold Loader.told at named
    split at named
    next reason =>
      cases named
      refine ⟨listed,rfl,rfl,fun repeated => ?_⟩
      have seeded : id ∈ main.configSeeded := by simpa using repeated
      exact ⟨seeded,reason.resolve_left (not_not.mpr seeded)⟩
    · cases named
  constructor
  · apply told.changes.append
    · rw [List.map_filterMap]
      apply (nodup_watchersOf main path (some generation) distinct).filterMap
      intro first second id here there
      obtain ⟨delivery,named,rfl⟩ := Option.map_eq_some_iff.mp here
      obtain ⟨other,also,same⟩ := Option.map_eq_some_iff.mp there
      unfold Loader.told at named also
      split at named <;> cases named
      split at also <;> cases also
      exact same.symm
    · intro delivery member repeated
      obtain ⟨listed,held,content,again⟩ := owner delivery member
      obtain ⟨seeded,changed⟩ := again repeated
      obtain ⟨_,here,current⟩ := (watcher delivery.id).mp listed
      obtain ⟨last,recorded,value⟩ := committed seeded here current
      rw [held,content]
      refine ⟨last,recorded,?_⟩
      have answers := (answers current).2
      cases answers with
      | pressure | unchanged | seed => simp at changed
      | changed content stamp old old_committed differs =>
        rw [value,Option.some.injEq,ConfigBaseline.mk.injEq] at old_committed
        rw [old_committed.2]
        exact differs
  · intro id member
    by_cases listed : id ∈ ids
    · obtain ⟨_,here,current⟩ := (watcher id).mp listed
      have some : ids ≠ [] := List.ne_nil_of_mem listed
      refine ⟨path,generation,snapshot.content,here,current,?_,?_⟩
      · by_cases fresh : id ∉ main.configSeeded ∨ snapshot.watch = .changed
        · have delivered : (⟨id,generation,!decide (id ∈ main.configSeeded),snapshot.content⟩ : Delivery) ∈
              ids.filterMap (Loader.told main.configSeeded generation snapshot) := by
            refine List.mem_filterMap.mpr ⟨id,listed,?_⟩
            rw [Loader.told,if_pos fresh]
          exact lastContent_append delivered ⟨rfl,rfl⟩ fun other also => (owner other also).2.2.1
        · obtain ⟨seeded,unchanged⟩ := not_or.mp fresh
          rw [not_not] at seeded
          obtain ⟨last,recorded,value⟩ := committed seeded here current
          have alone : lastContent log id generation = lastContent main.deliveries id generation := by
            apply lastContent_append_other
            rintro delivery also ⟨rfl,_⟩
            obtain ⟨owned,named⟩ := List.mem_filterMap.mp also
            unfold Loader.told at named
            split at named
            next reason =>
              cases named.2
              exact fresh reason
            · cases named.2
          rw [alone,recorded]
          have answers := (answers current).2
          cases answers with
          | pressure => simp at settled
          | unchanged content stamp same =>
            rw [value,Option.some.injEq,ConfigBaseline.mk.injEq] at same
            rw [same.2]
          | seed content stamp unseen => exact absurd rfl (unseen _ value)
          | changed => simp at unchanged
      · have answers := (answers current).2
        cases answers with
        | pressure => simp at settled
        | unchanged content stamp same =>
          exact .inl ⟨.inr ⟨fun found => unresolved _,same⟩,by simp⟩
        | seed | changed => exact .inr ⟨rfl,by simp,some,rfl⟩
    · have seeded : id ∈ main.configSeeded := by simpa [listed] using member
      obtain ⟨other,held,content,here,watched,last,effective⟩ := told.seeded id seeded
      refine ⟨other,held,content,here,watched,?_,.inl ⟨effective,?_⟩⟩
      · rw [← last]
        apply lastContent_append_other
        rintro delivery also ⟨rfl,_⟩
        exact listed (owner delivery also).1
      · rintro rfl proposal
        -- some watcher was told, so this one would have been among them
        by_contra some
        obtain ⟨first,also⟩ := List.exists_mem_of_ne_nil ids some
        obtain ⟨_,_,current⟩ := (watcher first).mp also
        obtain ⟨last,_,value⟩ := committed seeded here current
        have answers := (answers current).2
        cases answers with
        | pressure | unchanged => simp at proposal
        | seed content stamp unseen => exact unseen _ value rfl
        | changed content stamp old =>
          exact listed ((watcher id).mpr ⟨informed rfl some id seeded here,here,current⟩)

theorem Told.of_same {after : Main} (told : Told main) (same : SameWatch main after)
    (seeded : after.configSeeded = main.configSeeded) (deliveries : after.deliveries = main.deliveries) :
    Told after := by
  have gens : after.gens = main.gens := by
    unfold Main.gens
    rw [same.generations]
  constructor
  · rw [gens,same.next,same.sys]
    exact told.answering
  · rw [gens,same.configPaths]
    exact told.followed
  · rw [same.configPending]
    exact told.rows
  · rw [gens,same.configPaths,same.sys,seeded,deliveries]
    exact told.seeded
  · rw [deliveries]
    exact told.changes

theorem Told.finishBatchIfReady (told : Told main) (host : Host) : Told (main.finishBatchIfReady host) := by
  have same : ∀ batch,
      ({ main with activeBatch := none }.finishBatch host batch).configSeeded = main.configSeeded ∧
      ({ main with activeBatch := none }.finishBatch host batch).deliveries = main.deliveries := fun batch =>
    ⟨finishBatch_same Main.configSeeded (fun _ _ => rfl) (fun _ _ => rfl) (fun _ _ => rfl) host _ batch,
      finishBatch_same Main.deliveries (fun _ _ => rfl) (fun _ _ => rfl) (fun _ _ => rfl) host _ batch⟩
  apply told.of_same (sameWatch_finishBatchIfReady host main) <;> unfold Main.finishBatchIfReady
  · split
    · rfl
    · split
      · exact (same _).1
      · rfl
  · split
    · rfl
    · split
      · exact (same _).2
      · rfl

/-- The worker's turns before the resolution may as well have come before the pop. -/
theorem resolve_popped {after : Main} {key : WorkKey} {result : WorkerResult}
    {later : List (WorkKey × WorkerResult)} (waiting : main.sys.worker.state.results = (key,result) :: later)
    (turns : after.turns = main.turns) (sys : after.sys = main.sys.advance s.policy .tryResult) (path : Path)
    (generation revision : Nat) (applied : Bool) :
    (∃ later', (main.overtaken s).sys.worker.state.results = (key,result) :: later') ∧
    (after.resolveConfigWatch s path generation revision applied).sys =
      ((main.overtaken s).sys.advance s.policy .tryResult).advance s.policy
        (.resolveConfigWatch path generation revision applied) := by
  simp only [Main.resolveConfigWatch,Main.overtaken,turns]
  cases main.turns with
  | nil => exact ⟨⟨later,waiting⟩,by simp only [sys]⟩
  | cons now rest =>
    obtain ⟨more,commutes⟩ := @pop_turns s.policy now _ _ _ _ waiting
    exact ⟨more,by simp only [sys,commutes]⟩

/-- Resolving leaves the rest of the loader's state. -/
theorem resolveConfigWatch_tables (s : Settings) (main : Main) (path : Path) (generation revision : Nat)
    (applied : Bool) :
    let after := main.resolveConfigWatch s path generation revision applied
    after.configPaths = main.configPaths ∧ after.configWatchGenerations = main.configWatchGenerations ∧
    after.nextConfigWatchGeneration = main.nextConfigWatchGeneration ∧
    after.configPending = main.configPending ∧ after.configSeeded = main.configSeeded ∧
    after.deliveries = main.deliveries := by
  unfold Main.resolveConfigWatch Main.overtaken
  cases main.turns <;> exact ⟨rfl,rfl,rfl,rfl,rfl,rfl⟩

theorem overtaken_tables (s : Settings) (main : Main) :
    (main.overtaken s).configPaths = main.configPaths ∧
    (main.overtaken s).configWatchGenerations = main.configWatchGenerations ∧
    (main.overtaken s).nextConfigWatchGeneration = main.nextConfigWatchGeneration ∧
    (main.overtaken s).configPending = main.configPending ∧ (main.overtaken s).configSeeded = main.configSeeded ∧
    (main.overtaken s).deliveries = main.deliveries := by
  unfold Main.overtaken
  cases main.turns <;> exact ⟨rfl,rfl,rfl,rfl,rfl,rfl⟩

/-- A result nobody handles gives its proposal back. -/
theorem told_discarded (sized : s.policy.Sized) (told : Told main) (kept : Kept s main.gens main.sys)
    {path : Path} {generation revision : Nat} {snapshot : ConfigSnapshot}
    (proposes : Proposes main.sys path generation revision snapshot) :
    Told ({ main with sys := main.sys.advance s.policy .tryResult }.resolveConfigWatch s path generation revision
      false) := by
  obtain ⟨epoch,later,waiting⟩ := proposes.waiting
  obtain ⟨more,sys⟩ := @resolve_popped s main
    { main with sys := main.sys.advance s.policy .tryResult } _ _ _ waiting rfl rfl path generation revision false
  obtain ⟨paths,generations,next,pending,seeded,deliveries⟩ := resolveConfigWatch_tables s
    { main with sys := main.sys.advance s.policy .tryResult } path generation revision false
  obtain ⟨paths',generations',next',pending',seeded',deliveries'⟩ := overtaken_tables s main
  have now := told_overtaken sized told kept
  apply told_resolved now (by rw [overtaken_gens]; exact kept_overtaken sized kept)
    ⟨⟨epoch,more⟩,proposes.proposal⟩ (by simp) sys (paths.trans paths'.symm) (generations.trans generations'.symm)
    (next.trans next'.symm)
  · rw [pending,pending']
    exact id
  · rw [seeded,deliveries]
    intro id member
    obtain ⟨other,held,content,here,watched,last,effective⟩ := now.seeded id (by rw [seeded']; exact member)
    rw [deliveries'] at last
    exact ⟨other,held,content,here,watched,last,.inl ⟨effective,fun _ => rfl⟩⟩
  · rw [deliveries]
    exact told.changes

/-- Either every seeded watcher of the path is among the row's consumers, or no
current watcher is. -/
def Main.informsAll (main : Main) (path : Path) (generation : Nat) (row : PendingConfig) : Bool :=
  (main.watchersOf path (some generation) row.consumers).isEmpty ||
    decide (∀ id ∈ main.configSeeded, main.configPaths.lookup id = some path → .watch id generation ∈ row.consumers)

theorem told_handleConfig (sized : s.policy.Sized) (told : Told main) (kept : Kept s main.gens main.sys)
    {host : Host} (atomic : ∀ id, host.delivering id = []) {epoch revision : Nat} {path : Path}
    {watchGeneration : Option Nat} {result : Except String ConfigSnapshot} {later : List (WorkKey × WorkerResult)}
    (waiting : main.sys.worker.state.results =
      (.config path,.config epoch revision path watchGeneration result) :: later)
    (informed : ∀ generation snapshot row, watchGeneration = some generation → result = .ok snapshot →
      snapshot.watch = .changed → main.configPending.lookup path = some row → row.revision = revision →
      main.informsAll path generation row = true) :
    Told ({ main with sys := main.sys.advance s.policy .tryResult }.handleConfig s host path revision
      watchGeneration result) := by
  unfold Main.handleConfig
  extract_lets resolving taken
  have resolves : resolving = if Main.hasProposal result then watchGeneration else none := rfl
  have proposing : ∀ {generation}, resolving = some generation →
      ∃ snapshot, result = .ok snapshot ∧ watchGeneration = some generation ∧
        Proposes main.sys path generation revision snapshot := by
    intro generation asked
    rw [resolves] at asked
    split at asked
    next held =>
      cases result with
      | error reason => simp [Main.hasProposal] at held
      | ok snapshot =>
        simp only [Main.hasProposal,Bool.or_eq_true,decide_eq_true_eq] at held
        exact ⟨snapshot,rfl,asked,⟨epoch,later,by rw [waiting,asked]⟩,held⟩
    · cases asked
  clear_value resolving
  split
  · split
    · exact told.popped
    next generation =>
      obtain ⟨snapshot,_,_,proposes⟩ := proposing rfl
      exact told_discarded sized told kept proposes
  next row here =>
    obtain ⟨found,revised⟩ := Option.filter_eq_some_iff.mp here
    have found : main.configPending.lookup path = some row := found
    have distinct := told.rows found
    extract_lets consumed resolved
    apply Told.finishBatchIfReady
    have same : SameWatch taken consumed.1 :=
      sameWatch_consumers atomic path watchGeneration result row.consumers (taken,0)
    have rows : ∀ {other row}, taken.configPending.lookup other = some row →
        main.configPending.lookup other = some row := by
      intro other row here
      simp only [taken,Table.lookup_erase_eq] at here
      split at here
      · cases here
      · exact here
    have takenTold : Told taken := { told.popped (s := s) with rows := fun here => told.rows (rows here) }
    by_cases untold : ∀ snapshot, result = .ok snapshot → snapshot.watch = .pressure ∨ watchGeneration = none
    · have quiet : resolving = none := by
        rw [resolves]
        split
        next held =>
          cases result with
          | error reason => simp [Main.hasProposal] at held
          | ok snapshot =>
            obtain pressure | unasked := untold snapshot rfl
            · simp [Main.hasProposal,pressure] at held
            · exact unasked
        · rfl
      obtain ⟨seeded,deliveries⟩ := @consumers_untold s host path _ _ untold row.consumers
        (taken,0)
      simp only [resolved,quiet]
      exact takenTold.of_same same seeded deliveries
    · push Not at untold
      obtain ⟨snapshot,rfl,settled,asked⟩ := untold
      obtain ⟨generation,rfl⟩ := Option.ne_none_iff_exists'.mp asked
      have watchers : taken.watchersOf path (some generation) row.consumers =
          main.watchersOf path (some generation) row.consumers := rfl
      have once := nodup_watchersOf taken path (some generation) distinct
      obtain ⟨seeded,deliveries,count⟩ := consumers_told (s := s) atomic settled row.consumers (taken,0) once
      rw [watchers] at seeded deliveries count
      have complete : snapshot.watch = .changed → main.watchersOf path (some generation) row.consumers ≠ [] →
          ∀ id ∈ main.configSeeded, main.configPaths.lookup id = some path →
            .watch id generation ∈ row.consumers := by
        intro changed some
        have informs := informed generation snapshot row rfl rfl changed found (by simpa using revised)
        simpa [Main.informsAll,some] using informs
      simp only [resolved]
      cases resolving with
      | none =>
        have settledWatch : ¬(snapshot.watch = .seed ∨ snapshot.watch = .changed) := by
          simpa [Main.hasProposal] using resolves
        obtain ⟨changes,told'⟩ := told_consumers told (waiting ▸ List.mem_cons_self) settled distinct complete
        have poppedTold := told.popped (s := s)
        have gens : consumed.1.gens = main.gens := by
          unfold Main.gens
          rw [same.generations]
        refine ⟨?_,?_,fun here => takenTold.rows (same.configPending ▸ here),?_,deliveries.symm ▸ changes⟩
        · rw [gens,same.next,same.sys]
          exact poppedTold.answering
        · rw [gens,same.configPaths]
          exact told.followed
        · intro id member
          rw [seeded] at member
          obtain ⟨other,held,content,here,watched,last,⟨effective,_⟩ | ⟨_,proposal,_⟩⟩ := told' id member
          · refine ⟨other,held,content,same.configPaths.symm ▸ here,gens.symm ▸ watched,deliveries.symm ▸ last,
              Effective.of_same effective ?_ ?_⟩
            · intro resolution
              rw [same.sys]
              simp [taken,System.advance,Worker.Resolving,State.controlAt]
            · rw [same.sys]
              rfl
          · exact absurd proposal settledWatch
      | some asked =>
        obtain ⟨other,sameResult,sameGeneration,proposes⟩ := proposing rfl
        cases sameResult
        cases sameGeneration
        have now := told_overtaken sized told kept
        obtain ⟨more,sys⟩ := resolve_popped waiting same.turns same.sys path generation revision
          (decide (0 < consumed.2))
        obtain ⟨paths,generations,next,pending,seeded',deliveries'⟩ := resolveConfigWatch_tables s consumed.1 path
          generation revision (decide (0 < consumed.2))
        obtain ⟨nowPaths,nowGenerations,nowNext,nowPending,nowSeeded,nowDeliveries⟩ := overtaken_tables s main
        have gens := overtaken_gens s main
        have nowWatchers : (main.overtaken s).watchersOf path (some generation) row.consumers =
            main.watchersOf path (some generation) row.consumers := by
          unfold Main.watchersOf Main.currentWatcher
          rw [nowPaths,nowGenerations]
        obtain ⟨later',more'⟩ := more
        obtain ⟨changes,told'⟩ := told_consumers now (more' ▸ List.mem_cons_self) settled distinct (by
          rw [nowWatchers,nowSeeded,nowPaths]
          exact complete)
        rw [nowWatchers,nowDeliveries,nowSeeded] at changes told'
        have applied : 0 < consumed.2 ↔ main.watchersOf path (some generation) row.consumers ≠ [] := by
          rw [count,Nat.zero_add,List.length_pos_iff]
        apply told_resolved now (by rw [gens]; exact kept_overtaken sized kept)
          ⟨⟨epoch,later',more'⟩,proposes.proposal⟩ _ sys
          (paths.trans (same.configPaths.trans nowPaths.symm))
          (generations.trans (same.generations.trans nowGenerations.symm))
          (next.trans (same.next.trans nowNext.symm))
        · rw [pending,same.configPending,nowPending]
          exact rows
        · rw [seeded',deliveries',seeded,deliveries]
          intro id member
          obtain ⟨other,held,content,here,watched,last,⟨effective,unapplied⟩ | ⟨own,_,some,rfl⟩⟩ := told' id member
          · refine ⟨other,held,content,here,watched,last,.inl ⟨effective,fun own => ?_⟩⟩
            have none := unapplied own proposes.proposal
            simp [applied,none]
          · exact ⟨other,held,_,here,watched,last,.inr ⟨own,by simpa [applied] using some,rfl⟩⟩
        · rw [deliveries',deliveries]
          exact changes
        · intro apply
          obtain ⟨id,member⟩ := List.exists_mem_of_ne_nil _ (applied.mp (by simpa using apply))
          rw [gens]
          exact ((main.mem_watchersOf path generation row.consumers id).mp member).2.2

theorem told_popConfig (sized : s.policy.Sized) (told : Told main) (kept : Kept s main.gens main.sys) {host : Host}
    (atomic : ∀ id, host.delivering id = [])
    (informed : ∀ epoch revision path generation snapshot row, (main.tryResult s).1 =
        some (.config epoch revision path (some generation) (.ok snapshot)) → epoch = s.epoch →
      snapshot.watch = .changed → main.configPending.lookup path = some row → row.revision = revision →
      main.informsAll path generation row = true) : Told (main.popConfig s host) := by
  have gens := overtaken_gens s main
  have here := told_overtaken sized told kept
  have hereKept : Kept s (main.overtaken s).gens (main.overtaken s).sys := by
    rw [gens]
    exact kept_overtaken sized kept
  obtain ⟨paths,generations,_,pending,seeded,_⟩ := overtaken_tables s main
  have poppedTold : Told (main.tryResult s).2 := here.popped
  have head : (main.tryResult s).1 = ((main.overtaken s).sys.worker.state.results.head?).map Prod.snd := by
    simp only [Main.tryResult,tryResult_head]
  unfold Main.popConfig
  simp only
  split
  next epoch revision path watchGeneration result popped =>
    obtain ⟨⟨key,found⟩,first,same⟩ := Option.map_eq_some_iff.mp (head.symm.trans popped)
    obtain ⟨later,waiting⟩ := List.head?_eq_some_iff.mp first
    simp only at same
    subst same
    have isFor := (hereKept.queue.latest.answered (waiting ▸ List.mem_cons_self)).1
    obtain rfl : key = .config path := by
      cases key <;> simp only [WorkerResult.IsFor] at isFor
      rw [isFor]
    split
    next sameEpoch =>
      apply told_handleConfig sized here hereKept atomic waiting
      intro generation snapshot row asked ok changed found revised
      subst asked
      subst ok
      rw [pending] at found
      have informs := informed epoch revision path generation snapshot row popped sameEpoch changed found revised
      unfold Main.informsAll Main.watchersOf Main.currentWatcher at informs ⊢
      rw [paths,generations,seeded]
      exact informs
    split
    next generation =>
      split
      next held =>
        cases result with
        | error reason => simp [Main.hasProposal] at held
        | ok snapshot =>
          simp only [Main.hasProposal,Bool.or_eq_true,decide_eq_true_eq] at held
          exact told_discarded sized here hereKept ⟨⟨epoch,later,waiting⟩,held⟩
      · exact poppedTold
    · exact poppedTold
  · exact poppedTold

end Told

/-! ### Whole runs -/

/-- A change about to be handled reaches every seeded watcher of its path or none,
and a generation about to be minted is a new one. -/
def ConfigEvent.informs (s : Settings) (main : Main) : ConfigEvent → Bool
  | .watchConfigFor _ _ _ => decide (main.nextConfigWatchGeneration + 1 < 2 ^ 64)
  | .popConfig host =>
    match ({ main with turns := host.turns }.tryResult s).1 with
    | some (.config epoch revision path (some generation) (.ok snapshot)) =>
      decide (epoch ≠ s.epoch ∨ snapshot.watch ≠ .changed) ||
        ((main.configPending.lookup path).filter (·.revision = revision)).all (main.informsAll path generation)
    | _ => true
  | _ => true

def informedRun (s : Settings) : List ConfigEvent → Main → Bool
  | [], _ => true
  | event :: events, main => event.informs s main && informedRun s events (main.follow s event)

theorem told_follow {s : Settings} (sized : s.policy.Sized) {main : Main} (told : Told main)
    (kept : Kept s main.gens main.sys) {event : ConfigEvent} (informs : event.informs s main = true) :
    Told (main.follow s event) := by
  have ready : ∀ turns, Told { main with turns := turns } := fun _ => { told with }
  have readyKept : ∀ turns, Kept s { main with turns := turns }.gens { main with turns := turns }.sys :=
    fun _ => kept
  cases event with
  | turn turn => exact told.turn kept turn
  | watchConfigFor id resolved turns =>
    exact told_watchConfigFor sized (ready turns) (readyKept turns) id resolved (of_decide_eq_true informs)
  | unwatchConfigFor id turns => exact told_unwatchConfigFor sized (ready turns) (readyKept turns) id
  | queuePlugin configPath plugin revision turns =>
    exact told_queueConfig sized (ready turns) (readyKept turns) configPath _
  | queueWatched visitIds turns => exact told_queueWatched sized (ready turns) (readyKept turns) visitIds
  | preparePlugin path revision turns =>
    exact told_trySubmit sized (ready turns) (readyKept turns) (by simp [Request.Asks,Request.watch])
  | scanPlugins revision turns =>
    exact told_trySubmit sized (ready turns) (readyKept turns) (by simp [Request.Asks,Request.watch])
  | batch batch => exact { told with }
  | popConfig host =>
    apply told_popConfig sized (ready host.turns) (readyKept host.turns) fun _ => rfl
    rintro epoch revision path generation snapshot row popped rfl changed found rfl
    have found : main.configPending.lookup path = some row := found
    have informs : _ = true := informs
    simp only [ConfigEvent.informs,popped,found,changed,ne_eq,not_true_eq_false,or_self,decide_false,
      Bool.false_or,Option.filter_some,decide_true,if_true,Option.all_some] at informs
    exact informs

theorem told_followAll {s : Settings} (sized : s.policy.Sized) (events : List ConfigEvent) {main : Main}
    (told : Told main) (kept : Kept s main.gens main.sys) (informed : informedRun s events main = true) :
    Told (Main.followAll s events main) := by
  induction events generalizing main with
  | nil => exact told
  | cons event events ih =>
    obtain ⟨now,later⟩ := Bool.and_eq_true_iff.mp informed
    exact ih (told_follow sized told kept now) (kept_follow sized kept event) later

def configDisk (content : String) : Disk where
  scanPlugins := fun _ => .ok []
  prepare := fun _ => .error "unread"
  stableRead := fun _ => .ok (content,⟨1,1,1,1,1,1⟩)

/-- The worker reads the file, the result is handled, the resolution is applied. -/
def readConfigAs (content : String) : List ConfigEvent :=
  [.turn .take,.turn (.finish (configDisk content)),.popConfig .plain,.turn .take,
    .turn (.finish (configDisk content))]

/-- Two plugins whose ids name one config file. The second one's first read meets
a change; then the file changes back. -/
def secondWatcherReadsAlone : List ConfigEvent :=
  [.watchConfigFor "@a/b" (.ok [99]) []] ++ readConfigAs "old" ++
  [.watchConfigFor "_a/b" (.ok [99]) []] ++ readConfigAs "new" ++
  [.queueWatched ["@a/b","_a/b"] []] ++ readConfigAs "old"

/-- One plugin's config changes. -/
def configChanges : List ConfigEvent :=
  [.watchConfigFor "x" (.ok [99]) []] ++ readConfigAs "old" ++ [.queueWatched [] []] ++ readConfigAs "new"

end S2Script.Loader
