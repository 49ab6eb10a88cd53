import S2Script.LoaderFiles

/-! A load batch never wedges the loader. Whatever the batch waits for, the worker
still owes: the archive itself, or the config read its prepared row waits for. -/
namespace S2Script.Loader

open LoaderWorker

/-! ### What the worker owes -/

/-- The worker owes an answer for `key`, and it will carry `revision`. -/
def Owes (s : Settings) (sys : System) (key : WorkKey) (revision : Nat) : Prop :=
  key ∈ sys.worker.state.obligations ∧ sys.last key = some (s.epoch,revision)

theorem obligations_take (worker : Worker) : worker.take.state.obligations = worker.state.obligations := by
  unfold Worker.take
  split
  · rfl
  extract_lets state
  split
  · rfl
  split
  · rfl
  split <;> rfl

theorem obligations_answer (state : State) (key : WorkKey) (result : WorkerResult) :
    (state.answer key result).obligations = state.obligations := by
  obtain ⟨_,_,after⟩ | ⟨_,after⟩ := answer_cases state key result <;> rw [after]

theorem obligations_finish (policy : LoaderPolicy) (disk : Disk) (worker : Worker) :
    (worker.finish policy disk).state.obligations = worker.state.obligations := by
  unfold Worker.finish
  split
  · rfl
  · rfl
  · exact obligations_answer _ _ _

theorem obligations_turn (policy : LoaderPolicy) (sys : System) (turn : Turn) :
    (sys.advance policy turn.event).worker.state.obligations = sys.worker.state.obligations := by
  cases turn with
  | take => exact obligations_take _
  | finish disk => exact obligations_finish _ _ _

theorem last_turn (policy : LoaderPolicy) (sys : System) (turn : Turn) :
    (sys.advance policy turn.event).last = sys.last := by
  cases turn <;> rfl

/-- The worker's turns neither end nor change what it owes. -/
theorem turns_owing (policy : LoaderPolicy) (turns : List Turn) (sys : System) :
    (System.execute policy (turns.map Turn.event) sys).worker.state.obligations =
        sys.worker.state.obligations ∧
      (System.execute policy (turns.map Turn.event) sys).last = sys.last := by
  induction turns generalizing sys with
  | nil => exact ⟨rfl,rfl⟩
  | cons turn turns ih =>
    obtain ⟨obligations,last⟩ := ih (sys.advance policy turn.event)
    exact ⟨obligations.trans (obligations_turn policy sys turn),last.trans (last_turn policy sys turn)⟩

theorem coalesce_obligations (state : State) (request : Request) :
    (state.coalesce request).obligations = state.obligations := by
  obtain ⟨_,_,_,_,after⟩ | ⟨_,_,_,after⟩ | ⟨_,_,after⟩ := coalesce_cases state request <;> rw [after]

/-- An admitted submit makes the worker owe its key at its revision; a refused
one changes nothing of what it owes. -/
theorem submit_owing (s : Settings) (sys : System) (request : Request) :
    let answer := (LoaderWorker.trySubmit s.policy sys.worker.state request).1
    let after := sys.submit s.policy request
    (answer.admitted = true ∧ request.key ∈ after.worker.state.obligations ∧
      (∀ key, key ≠ request.key →
        (key ∈ after.worker.state.obligations ↔ key ∈ sys.worker.state.obligations)) ∧
      after.last = Function.update sys.last request.key (some request.submitted)) ∨
    (answer.admitted = false ∧ after.worker.state.obligations = sys.worker.state.obligations ∧
      after.last = sys.last) := by
  intro answer after
  obtain ⟨hit,outcome⟩ | ⟨hit,outcome⟩ | ⟨owed,outcome⟩ | ⟨unowed,_,outcome⟩ :=
    trySubmit_cases s.policy sys.worker.state request
  · exact .inr ⟨by simp [answer,outcome,Submit.admitted],
      by simp [after,System.submit,Worker.lock,outcome,State.reject],
      by simp [after,System.submit,outcome,Submit.admitted]⟩
  · exact .inr ⟨by simp [answer,outcome,Submit.admitted],
      by simp [after,System.submit,Worker.lock,outcome,State.reject],
      by simp [after,System.submit,outcome,Submit.admitted]⟩
  · have same : after.worker.state.obligations = sys.worker.state.obligations := by
      simp [after,System.submit,Worker.lock,outcome,coalesce_obligations,obligations_registerWatch]
    exact .inl ⟨by simp [answer,outcome,Submit.admitted],by rw [same]; exact owed,
      by intro key _; rw [same],by simp [after,System.submit,outcome,Submit.admitted]⟩
  · have grown : after.worker.state.obligations = (sys.worker.state.obligations.insert request.key
        (request.requestWeight,request.resultReservation s.policy)) := by
      simp [after,System.submit,Worker.lock,outcome,State.accept,obligations_registerWatch]
    exact .inl ⟨by simp [answer,outcome,Submit.admitted],by simp [grown],
      by intro key other; simp [grown,AList.mem_insert,other],
      by simp [after,System.submit,outcome,Submit.admitted]⟩

theorem Owes.submit {s : Settings} {sys : System} {key : WorkKey} {revision : Nat} (request : Request)
    (owes : Owes s sys key revision) (other : key ≠ request.key) :
    Owes s (sys.submit s.policy request) key revision := by
  obtain ⟨_,_,others,last⟩ | ⟨_,same,last⟩ := submit_owing s sys request
  · exact ⟨(others key other).mpr owes.1,by rw [last,Function.update_of_ne other]; exact owes.2⟩
  · exact ⟨by rw [same]; exact owes.1,by rw [last]; exact owes.2⟩

theorem owes_submitted {s : Settings} {sys : System} {request : Request} {revision : Nat}
    (admitted : (LoaderWorker.trySubmit s.policy sys.worker.state request).1.admitted = true)
    (submitted : request.submitted = (s.epoch,revision)) :
    Owes s (sys.submit s.policy request) request.key revision := by
  obtain ⟨_,owed,_,last⟩ | ⟨refused,_,_⟩ := submit_owing s sys request
  · exact ⟨owed,by rw [last,submitted]; simp⟩
  · simp [admitted] at refused

/-- Popping a result ends exactly the obligation it answers, at its last revision. -/
theorem tryResult_owing {policy : LoaderPolicy} {sys : System} (inv : Invariant policy sys) :
    ((LoaderWorker.tryResult sys.worker.state).1 = none ∧
      (sys.advance policy .tryResult).worker.state.obligations = sys.worker.state.obligations) ∨
    ∃ key result, (LoaderWorker.tryResult sys.worker.state).1 = some (key,result) ∧ result.IsFor key ∧
      sys.last key = some result.answers ∧ key ∈ sys.worker.state.obligations ∧
      ∀ other, other ∈ (sys.advance policy .tryResult).worker.state.obligations ↔
        other ≠ key ∧ other ∈ sys.worker.state.obligations := by
  obtain ⟨_,outcome⟩ | ⟨key,result,results,charge,waiting,here,outcome⟩ := tryResult_cases inv.placed
  · exact .inl ⟨by rw [outcome],by simp [System.advance,Worker.lock,outcome]⟩
  · have first : (key,result) ∈ sys.worker.state.queue.results := by simp [State.queue,waiting]
    obtain ⟨isFor,last⟩ := inv.latest.answered first
    refine .inr ⟨key,result,by rw [outcome],isFor,last,Table.mem_of_lookup here,?_⟩
    intro other
    simp [System.advance,Worker.lock,outcome,AList.mem_erase]

/-! ### What the loader waits for -/

/-- The part of the loader's state that the worker's answers move. -/
structure Traffic where
  sys : System
  configPending : Table Path PendingConfig
  scanInFlight : Bool
  scanRevision : Nat
  activeBatch : Option ActiveBatch

def Main.traffic (main : Main) : Traffic where
  sys := main.sys
  configPending := main.configPending
  scanInFlight := main.scanInFlight
  scanRevision := main.scanRevision
  activeBatch := main.activeBatch

/-- The prepared row of `path` waits for a config read that is still pending. -/
def AwaitsConfig (traffic : Traffic) (batch : ActiveBatch) (path : Path) (revision : Nat) : Prop :=
  path ∈ batch.prepared ∧ ∃ configPath row, traffic.configPending.lookup configPath = some row ∧
    .plugin path revision ∈ row.consumers

/-- Every pending row is owed by the worker, one scan at most is out and none
beside a batch, and the batch waits only for what is owed, the exempt aside. -/
structure Serving (s : Settings) (exempt : Path → Nat → Prop) (traffic : Traffic) : Prop where
  queue : Invariant s.policy traffic.sys
  rows : ∀ {path row}, traffic.configPending.lookup path = some row →
    Owes s traffic.sys (.config path) row.revision
  scanning : traffic.scanInFlight = true → traffic.activeBatch = none ∧
    Owes s traffic.sys (.scan s.pluginsDir) traffic.scanRevision
  scans : ∀ {dir}, .scan dir ∈ traffic.sys.worker.state.obligations →
    dir = s.pluginsDir ∧ traffic.scanInFlight = true
  awaited : ∀ {batch path revision}, traffic.activeBatch = some batch →
    batch.pending.lookup path = some revision → exempt path revision ∨
      Owes s traffic.sys (.plugin path) revision ∨ AwaitsConfig traffic batch path revision

/-- Nothing is exempt. -/
def nothing (_ : Path) (_ : Nat) : Prop := False

theorem Serving.weaken {s : Settings} {exempt more : Path → Nat → Prop} {traffic : Traffic}
    (serving : Serving s exempt traffic) (wider : ∀ {path revision}, exempt path revision → more path revision) :
    Serving s more traffic :=
  { serving with awaited := fun batch pending => (serving.awaited batch pending).imp_left wider }

/-- Turns and baseline controls change nothing the loader waits for. -/
theorem Serving.sameOwing {s : Settings} {exempt : Path → Nat → Prop} {traffic : Traffic} {sys : System}
    (serving : Serving s exempt traffic) (queue : Invariant s.policy sys)
    (obligations : sys.worker.state.obligations = traffic.sys.worker.state.obligations)
    (last : sys.last = traffic.sys.last) : Serving s exempt { traffic with sys := sys } := by
  have owes : ∀ {key revision}, Owes s traffic.sys key revision → Owes s sys key revision := by
    intro key revision owed
    exact ⟨by rw [obligations]; exact owed.1,by rw [last]; exact owed.2⟩
  exact {
    queue := queue
    rows := fun here => owes (serving.rows here)
    scanning := fun flying => ⟨(serving.scanning flying).1,owes (serving.scanning flying).2⟩
    scans := by
      intro dir owed
      rw [obligations] at owed
      exact serving.scans owed
    awaited := fun batch pending => (serving.awaited batch pending).imp_right (Or.imp_left owes) }

theorem invariant_turns {policy : LoaderPolicy} {sys : System} (sized : policy.Sized)
    (inv : Invariant policy sys) (turns : List Turn) :
    Invariant policy (System.execute policy (turns.map Turn.event) sys) :=
  invariant_execute sized _ inv

section Steps

variable {s : Settings} (sized : s.policy.Sized) {exempt : Path → Nat → Prop} {main : Main}
include sized

theorem serving_overtaken (serving : Serving s exempt main.traffic) :
    Serving s exempt (main.overtaken s).traffic := by
  unfold Main.overtaken
  split
  · exact serving
  next now later _ =>
    obtain ⟨obligations,last⟩ := turns_owing s.policy now main.sys
    exact serving.sameOwing (invariant_turns sized serving.queue now) obligations last

theorem serving_resolveConfigWatch (serving : Serving s exempt main.traffic) (path : Path)
    (generation revision : Nat) (applied : Bool) :
    Serving s exempt (main.resolveConfigWatch s path generation revision applied).traffic := by
  have here := serving_overtaken sized serving
  refine here.sameOwing
    (invariant_advance sized here.queue (.resolveConfigWatch path generation revision applied)) ?_ rfl
  have same := queue_resolveConfigWatch (main.overtaken s).sys.worker.state path generation revision applied
  exact congrArg Queue.obligations same

theorem serving_retireConfigWatch (serving : Serving s exempt main.traffic) (path : Path) (generation : Nat) :
    Serving s exempt (main.retireConfigWatch s path generation).traffic := by
  have here := serving_overtaken sized serving
  refine here.sameOwing
    (invariant_advance sized here.queue (.retireConfigWatch path generation)) ?_ rfl
  have same := queue_retireConfigWatch (main.overtaken s).sys.worker.state path generation
  exact congrArg Queue.obligations same

end Steps

/-- Submitting leaves the rest of the loader's state as it was. -/
theorem trySubmit_traffic (s : Settings) (main : Main) (request : Request) :
    (main.trySubmit s request).2.traffic = { main.traffic with
      sys := (main.overtaken s).sys.submit s.policy request } := by
  unfold Main.trySubmit Main.overtaken
  cases main.turns <;> rfl

/-- Whether a scan is out, which, and the batch. -/
def Main.stage (main : Main) : Bool × Nat × Option ActiveBatch :=
  (main.scanInFlight,main.scanRevision,main.activeBatch)

theorem overtaken_stage (s : Settings) (main : Main) : (main.overtaken s).stage = main.stage := by
  unfold Main.overtaken
  split <;> rfl

@[simp] theorem overtaken_configPending (s : Settings) (main : Main) :
    (main.overtaken s).configPending = main.configPending := by
  unfold Main.overtaken
  split <;> rfl

@[simp] theorem overtaken_activeBatch (s : Settings) (main : Main) :
    (main.overtaken s).activeBatch = main.activeBatch :=
  congrArg (fun stage => stage.2.2) (overtaken_stage s main)

theorem mem_joined (s : Settings) (row : PendingConfig) (revision : Nat) (consumer : ConfigConsumer) :
    consumer ∈ (row.joined s revision consumer).consumers := by
  simp [PendingConfig.joined]

/-- Joining a row keeps every consumer that is not an older self. -/
theorem mem_joined_of_mem (s : Settings) {row : PendingConfig} (revision : Nat) {consumer other : ConfigConsumer}
    (member : other ∈ row.consumers) (apart : other.same consumer = false) :
    other ∈ (row.joined s revision consumer).consumers := by
  simp only [PendingConfig.joined,List.mem_append]
  exact .inl ((List.mem_eraseP_of_neg (by simp [apart])).mpr member)

/-- What queueing a config read does: nothing, a refused submit, or an admitted
one whose row the consumer joins. -/
theorem queueConfig_cases (s : Settings) (main : Main) (path : Path) (consumer : ConfigConsumer) :
    (main.queueConfig s path consumer = (false,main)) ∨
    ∃ request, request.key = .config path ∧
      request.submitted = (s.epoch,main.nextConfigRevision path) ∧
      (((main.trySubmit s request).1.admitted = false ∧
        main.queueConfig s path consumer = (false,(main.trySubmit s request).2)) ∨
      ((main.trySubmit s request).1.admitted = true ∧
        main.queueConfig s path consumer = (true,{ (main.trySubmit s request).2 with
          configPending := main.configPending.insert path
            (((main.configPending.lookup path).getD ⟨main.nextConfigRevision path,[],0⟩).joined s
              (main.nextConfigRevision path) consumer) }))) := by
  by_cases admits : main.admitsConsumer s path consumer
  · refine .inr ⟨.config s.epoch (main.nextConfigRevision path) path (main.requestedGeneration path consumer),
      rfl,rfl,?_⟩
    generalize submission : main.trySubmit s (.config s.epoch (main.nextConfigRevision path) path
      (main.requestedGeneration path consumer)) = submitted
    have pending : submitted.2.configPending = main.configPending := by
      rw [← submission]
      exact overtaken_configPending s main
    cases admitted : submitted.1.admitted with
    | false => exact .inl ⟨rfl,by simp [Main.queueConfig,admits,submission,admitted]⟩
    | true => exact .inr ⟨rfl,by simp [Main.queueConfig,admits,submission,admitted,pending]⟩
  · exact .inl (by simp [Main.queueConfig,admits])

theorem queueConfig_stage (s : Settings) (main : Main) (path : Path) (consumer : ConfigConsumer) :
    (main.queueConfig s path consumer).2.stage = main.stage := by
  obtain outcome | ⟨request,_,_,⟨_,outcome⟩ | ⟨_,outcome⟩⟩ := queueConfig_cases s main path consumer
  · rw [outcome]
  · rw [outcome]
    exact overtaken_stage s main
  · rw [outcome]
    exact overtaken_stage s main

/-- A queued consumer is in the row of its path. -/
theorem queueConfig_queued {s : Settings} {main : Main} {path : Path} {consumer : ConfigConsumer}
    (queued : (main.queueConfig s path consumer).1 = true) :
    ∃ row, (main.queueConfig s path consumer).2.configPending.lookup path = some row ∧
      consumer ∈ row.consumers := by
  obtain outcome | ⟨request,_,_,⟨_,outcome⟩ | ⟨_,outcome⟩⟩ := queueConfig_cases s main path consumer
  · simp [outcome] at queued
  · simp [outcome] at queued
  · rw [outcome]
    exact ⟨_,AList.lookup_insert _,mem_joined _ _ _ _⟩

theorem serving_queueConfig {s : Settings} (sized : s.policy.Sized) {exempt : Path → Nat → Prop} {main : Main}
    (serving : Serving s exempt main.traffic) (path : Path) (consumer : ConfigConsumer)
    (own : ∀ {batch plugin revision found}, consumer = .plugin plugin revision →
      main.activeBatch = some batch → batch.pending.lookup plugin = some found →
      found = revision ∨ exempt plugin found) :
    Serving s exempt (main.queueConfig s path consumer).2.traffic := by
  have here := serving_overtaken sized serving
  obtain outcome | ⟨request,key,submitted,⟨refused,outcome⟩ | ⟨admitted,outcome⟩⟩ :=
    queueConfig_cases s main path consumer
  · rw [outcome]
    exact serving
  · rw [outcome]
    obtain ⟨answered,_⟩ | ⟨_,obligations,last⟩ := submit_owing s (main.overtaken s).sys request
    · exact absurd (refused.symm.trans answered) (by simp)
    · exact here.sameOwing (invariant_submit sized here.queue request) obligations last
  · rw [outcome]
    have pendingHere : ∀ {batch}, (main.overtaken s).activeBatch = some batch → main.activeBatch = some batch := by
      intro batch found
      rwa [overtaken_activeBatch] at found
    have owes : ∀ {key revision}, Owes s (main.overtaken s).sys key revision → key ≠ .config path →
        Owes s ((main.overtaken s).sys.submit s.policy request) key revision := by
      intro other revision owed apart
      exact owed.submit request (by rw [key]; exact apart)
    exact {
      queue := invariant_submit sized here.queue request
      rows := by
        intro other row found
        simp only [Main.traffic,Table.lookup_insert_eq] at found
        by_cases same : other = path
        · subst same
          simp only [if_true,Option.some.injEq] at found
          have now : Owes s ((main.overtaken s).sys.submit s.policy request) request.key _ :=
            owes_submitted admitted submitted
          rw [key] at now
          rw [← found]
          exact now
        · simp only [same,if_false] at found
          have old : (main.overtaken s).configPending.lookup other = some row := by
            rw [overtaken_configPending]
            exact found
          exact owes (here.rows old) (by simpa using same)
      scanning := fun flying => ⟨(here.scanning flying).1,owes (here.scanning flying).2 (by simp)⟩
      scans := by
        intro dir owed
        obtain ⟨_,_,others,_⟩ | ⟨_,obligations,_⟩ := submit_owing s (main.overtaken s).sys request
        · exact here.scans ((others _ (by rw [key]; simp)).mp owed)
        · exact here.scans (obligations ▸ owed)
      awaited := by
        intro batch plugin revision active pending
        obtain exempted | owed | ⟨prepared,configPath,row,found,member⟩ := here.awaited active pending
        · exact .inl exempted
        · exact .inr (.inl (owes owed (by simp)))
        have old : main.configPending.lookup configPath = some row := by
          rw [← overtaken_configPending s main]
          exact found
        by_cases same : configPath = path
        · subst same
          by_cases older : (ConfigConsumer.plugin plugin revision).same consumer = true
          · cases consumer with
            | watch id generation => simp [ConfigConsumer.same] at older
            | plugin other latest =>
              simp only [ConfigConsumer.same,beq_iff_eq] at older
              subst older
              obtain rfl | exempted := own rfl (pendingHere active) pending
              · exact .inr (.inr ⟨prepared,configPath,_,AList.lookup_insert _,mem_joined _ _ _ _⟩)
              · exact .inl exempted
          · refine .inr (.inr ⟨prepared,configPath,_,AList.lookup_insert _,?_⟩)
            rw [old]
            exact mem_joined_of_mem s _ member (by simpa using older)
        · refine .inr (.inr ⟨prepared,configPath,row,?_,member⟩)
          simpa [Main.traffic,Table.lookup_insert_eq,same] using old }

/-! ### What the host asks of the loader -/

@[simp] theorem enqueueIntent_traffic (s : Settings) (main : Main) (id : String) (op : PendingOp) :
    (main.enqueueIntent s id op).traffic = main.traffic := by
  unfold Main.enqueueIntent
  extract_lets oldBytes usedBytes grown
  split
  · rfl
  split <;> rfl

@[simp] theorem requestReload_traffic (s : Settings) (main : Main) (id : String) :
    (main.requestReload s id).traffic = main.traffic := by
  unfold Main.requestReload
  split
  · exact enqueueIntent_traffic s main id .reload
  · rfl

@[simp] theorem requestUnload_traffic (s : Settings) (main : Main) (id : String) :
    (main.requestUnload s id).traffic = main.traffic := by
  unfold Main.requestUnload
  split
  · exact enqueueIntent_traffic s main id .unload
  · rfl

@[simp] theorem requestLoad_traffic (s : Settings) (found : Option Path) (main : Main) (id : String) :
    (main.requestLoad s found id).traffic = main.traffic := by
  unfold Main.requestLoad
  split
  · exact enqueueIntent_traffic s main id .load
  split
  · rfl
  split <;> rfl

@[simp] theorem settle_traffic (s : Settings) (main : Main) (id : String) :
    (main.settle s id).traffic = main.traffic := by
  unfold Main.settle
  split
  · rfl
  extract_lets settled
  split
  · exact requestReload_traffic s settled id
  · rfl

@[simp] theorem unpark_traffic (published : String → Bool) (frame : Nat) (main : Main) (id : String) :
    (main.unpark published frame id).traffic = main.traffic := by
  unfold Main.unpark
  split
  · rfl
  split <;> rfl

/-- What no step changes, no sequence of them changes. -/
theorem foldl_same {α β : Type} (field : Main → β) (step : Main → α → Main)
    (same : ∀ main item, field (step main item) = field main) (items : List α) (main : Main) :
    field (items.foldl step main) = field main := by
  induction items generalizing main with
  | nil => rfl
  | cons item items ih => exact (ih (step main item)).trans (same main item)

@[simp] theorem startUnblockedWaiters_traffic (visit : List String) (published : String → Bool) (frame : Nat)
    (main : Main) : (main.startUnblockedWaiters visit published frame).traffic = main.traffic :=
  foldl_same Main.traffic _ (unpark_traffic published frame) _ _

theorem serving_watchConfigFor {s : Settings} (sized : s.policy.Sized) {exempt : Path → Nat → Prop} {main : Main}
    (serving : Serving s exempt main.traffic) (resolved : Except String Path) (id : String) :
    Serving s exempt (main.watchConfigFor s resolved id).traffic := by
  unfold Main.watchConfigFor
  split
  · exact serving
  split
  · exact serving
  next path =>
    extract_lets fresh generation minted watching
    have same : watching.traffic = main.traffic := by
      simp only [watching,minted]
      split <;> rfl
    apply serving_queueConfig sized (same ▸ serving)
    intro batch plugin revision found consumer
    simp at consumer

theorem serving_unwatchConfigFor {s : Settings} (sized : s.policy.Sized) {exempt : Path → Nat → Prop} {main : Main}
    (serving : Serving s exempt main.traffic) (id : String) :
    Serving s exempt (main.unwatchConfigFor s id).traffic := by
  unfold Main.unwatchConfigFor
  extract_lets unseeded
  split
  · exact serving
  extract_lets unwatched
  split
  · exact serving
  split
  · exact serving
  · apply serving_retireConfigWatch sized
    exact serving

theorem serving_callback {s : Settings} (sized : s.policy.Sized) {exempt : Path → Nat → Prop} {main : Main}
    (serving : Serving s exempt main.traffic) (callback : Callback) :
    Serving s exempt (callback.run s main).traffic := by
  cases callback with
  | watchConfigFor id resolved => exact serving_watchConfigFor sized serving resolved id
  | unwatchConfigFor id => exact serving_unwatchConfigFor sized serving id
  | startUnblockedWaiters visit published frame => simpa [Callback.run] using serving
  | settle id => simpa [Callback.run] using serving
  | requestUnload id => simpa [Callback.run] using serving
  | requestReload id => simpa [Callback.run] using serving
  | requestLoad id found => simpa [Callback.run] using serving

theorem serving_callbacks {s : Settings} (sized : s.policy.Sized) {exempt : Path → Nat → Prop}
    (callbacks : List Callback) {main : Main} (serving : Serving s exempt main.traffic) :
    Serving s exempt (callbacks.foldl (Callback.run s) main).traffic := by
  induction callbacks generalizing main with
  | nil => exact serving
  | cons callback callbacks ih => exact ih (serving_callback sized serving callback)

theorem stage_of_traffic {main after : Main} (same : after.traffic = main.traffic) : after.stage = main.stage := by
  simp only [Main.traffic,Traffic.mk.injEq] at same
  simp [Main.stage,same]

theorem callback_stage (s : Settings) (main : Main) (callback : Callback) :
    (callback.run s main).stage = main.stage := by
  cases callback with
  | watchConfigFor id resolved =>
    simp only [Callback.run,Main.watchConfigFor]
    split
    · rfl
    split
    · rfl
    · rw [queueConfig_stage]
      split <;> rfl
  | unwatchConfigFor id =>
    simp only [Callback.run,Main.unwatchConfigFor]
    split
    · rfl
    split
    · rfl
    split
    · rfl
    · exact overtaken_stage s _
  | startUnblockedWaiters visit published frame =>
    exact stage_of_traffic (startUnblockedWaiters_traffic visit published frame main)
  | settle id => exact stage_of_traffic (settle_traffic s main id)
  | requestUnload id => exact stage_of_traffic (requestUnload_traffic s main id)
  | requestReload id => exact stage_of_traffic (requestReload_traffic s main id)
  | requestLoad id found => exact stage_of_traffic (requestLoad_traffic s found main id)

theorem callbacks_stage (s : Settings) (callbacks : List Callback) (main : Main) :
    (callbacks.foldl (Callback.run s) main).stage = main.stage := by
  induction callbacks generalizing main with
  | nil => rfl
  | cons callback callbacks ih => exact (ih _).trans (callback_stage s main callback)

/-! ### The batch -/

/-- The batch that is out waits for something, and only for what the worker owes. -/
structure Owed (s : Settings) (main : Main) : Prop where
  serving : Serving s nothing main.traffic
  waits : ∀ {batch}, main.activeBatch = some batch → batch.pending.keys ≠ []

theorem Owed.of_traffic {s : Settings} {main after : Main} (owed : Owed s main)
    (same : after.traffic = main.traffic) : Owed s after where
  serving := same ▸ owed.serving
  waits := by
    intro batch active
    have : after.activeBatch = main.activeBatch := congrArg Traffic.activeBatch same
    exact owed.waits (this ▸ active)

/-- Changing the batch: what it still waits for it waited for, prepared or not. -/
theorem Serving.rebatch {s : Settings} {exempt more : Path → Nat → Prop} {traffic : Traffic}
    (serving : Serving s exempt traffic) (change : ActiveBatch → ActiveBatch)
    (kept : ∀ {batch path revision}, traffic.activeBatch = some batch →
      (change batch).pending.lookup path = some revision →
      batch.pending.lookup path = some revision ∧ (path ∈ batch.prepared → path ∈ (change batch).prepared) ∧
      (exempt path revision → more path revision)) :
    Serving s more { traffic with activeBatch := traffic.activeBatch.map change } where
  queue := serving.queue
  rows := serving.rows
  scanning := by
    intro flying
    exact ⟨by simp [(serving.scanning flying).1],(serving.scanning flying).2⟩
  scans := serving.scans
  awaited := by
    intro batch path revision active pending
    obtain ⟨old,found,rfl⟩ := Option.map_eq_some_iff.mp active
    obtain ⟨waited,prepared,exempted⟩ := kept found pending
    obtain exempt | owes | ⟨held,row⟩ := serving.awaited found waited
    · exact .inl (exempted exempt)
    · exact .inr (.inl owes)
    · exact .inr (.inr ⟨prepared held,row⟩)

theorem Serving.noBatch {s : Settings} {exempt more : Path → Nat → Prop} {traffic : Traffic}
    (serving : Serving s exempt traffic) : Serving s more { traffic with activeBatch := none } where
  queue := serving.queue
  rows := serving.rows
  scanning := fun flying => ⟨rfl,(serving.scanning flying).2⟩
  scans := serving.scans
  awaited := by
    intro batch path revision active
    simp at active

theorem serving_removeBatchPath {s : Settings} {exempt more : Path → Nat → Prop} {main : Main}
    (serving : Serving s exempt main.traffic) (path : Path)
    (others : ∀ {other revision}, other ≠ path → exempt other revision → more other revision) :
    Serving s more (main.removeBatchPath path).traffic := by
  apply serving.rebatch
  intro batch other revision _ pending
  simp only [Table.lookup_erase_eq] at pending
  split at pending
  · contradiction
  next apart => exact ⟨pending,by simp [AList.mem_erase,apart],others apart⟩

theorem serving_settleBatchPath {s : Settings} {exempt more : Path → Nat → Prop} {main : Main}
    (serving : Serving s exempt main.traffic) (path : Path)
    (others : ∀ {other revision}, other ≠ path → exempt other revision → more other revision) :
    Serving s more (main.settleBatchPath path).traffic := by
  apply serving.rebatch
  intro batch other revision _ pending
  simp only [Table.lookup_erase_eq] at pending
  split at pending
  · contradiction
  next apart => exact ⟨pending,id,others apart⟩

theorem serving_holdRow {s : Settings} {exempt : Path → Nat → Prop} {main : Main}
    (serving : Serving s exempt main.traffic) (row : PreparedLoad) :
    Serving s exempt (main.holdRow row).traffic := by
  apply serving.rebatch
  intro batch other revision _ pending
  exact ⟨pending,by simp +contextual [AList.mem_insert],id⟩

/-- Finishing a batch refuses and rejects rows and queues the rest. -/
theorem finishBatch_same {β : Type} (field : Main → β)
    (refuse : ∀ (main : Main) (row : PreparedLoad), field (main.refusePrepared row.path row.prepared row.oldId) = field main)
    (reject : ∀ main row, field (Main.rejectRow main row) = field main)
    (queue : ∀ (main : Main) (ready : List ApplyItem), field { main with readyApply := ready } = field main)
    (host : Host) (main : Main) (batch : ActiveBatch) : field (main.finishBatch host batch) = field main := by
  unfold Main.finishBatch
  extract_lets rows duplicates drifting refusing rejected remembering loads order byId
  have first : field refusing = field main := foldl_same field _ refuse _ _
  have second : field remembering = field refusing := foldl_same field _ reject _ _
  exact (queue remembering _).trans (second.trans first)

theorem finishBatch_traffic (host : Host) (main : Main) (batch : ActiveBatch) :
    (main.finishBatch host batch).traffic = main.traffic :=
  finishBatch_same Main.traffic (fun _ _ => rfl) (fun _ _ => rfl) (fun _ _ => rfl) host main batch

/-- A batch that waits for nothing more is finished. -/
theorem owed_finishBatchIfReady {s : Settings} {main : Main} (serving : Serving s nothing main.traffic)
    (host : Host) : Owed s (main.finishBatchIfReady host) := by
  unfold Main.finishBatchIfReady
  split
  next none => exact ⟨serving,by simp [none]⟩
  next batch active =>
    split
    · refine ⟨?_,?_⟩
      · rw [finishBatch_traffic]
        exact serving.noBatch
      · intro other found
        have := congrArg Traffic.activeBatch (finishBatch_traffic host { main with activeBatch := none } batch)
        rw [show (Main.finishBatch host { main with activeBatch := none } batch).activeBatch = none from this] at found
        contradiction
    next waits => exact ⟨serving,by intro other found; rw [active] at found; exact Option.some.inj found ▸ waits⟩

theorem owed_cancelPathWork {s : Settings} {main : Main} (serving : Serving s nothing main.traffic)
    (host : Host) (path : Path) : Owed s (main.cancelPathWork host path) := by
  unfold Main.cancelPathWork
  apply owed_finishBatchIfReady
  exact serving_removeBatchPath serving path (by simp [nothing])

theorem owed_callbacks {s : Settings} (sized : s.policy.Sized) (callbacks : List Callback) {main : Main}
    (owed : Owed s main) : Owed s (callbacks.foldl (Callback.run s) main) where
  serving := serving_callbacks sized callbacks owed.serving
  waits := by
    intro batch active
    have same : (callbacks.foldl (Callback.run s) main).activeBatch = main.activeBatch :=
      congrArg (fun stage => stage.2.2) (callbacks_stage s callbacks main)
    exact owed.waits (same ▸ active)

theorem owed_unloadPlugin {s : Settings} (sized : s.policy.Sized) {main : Main} (owed : Owed s main)
    (host : Host) (cause : Cause) (path : Path) (id : String) :
    Owed s (main.unloadPlugin s host cause path id) :=
  owed_callbacks sized _ (owed.of_traffic rfl)

/-! ### Commands -/

theorem owed_drainIntent {s : Settings} (sized : s.policy.Sized) {main : Main} (owed : Owed s main)
    (host : Host) (id : String) : Owed s (main.drainIntent s host id) := by
  unfold Main.drainIntent
  extract_lets drained
  have same : Owed s drained := owed.of_traffic rfl
  split
  · exact owed
  · -- unload: the cancelled work and the host's teardown, then the file is forgotten
    unfold Main.drainUnload
    extract_lets parked detached
    have detachedOwed : Owed s detached := same.of_traffic rfl
    split
    · exact detachedOwed
    next path _ =>
      extract_lets cancelled unloaded forgotten
      have cancelledOwed : Owed s cancelled := owed_cancelPathWork detachedOwed.serving host path
      have unloadedOwed : Owed s unloaded := by
        simp only [unloaded]
        split
        · exact owed_unloadPlugin sized cancelledOwed host .command path id
        · exact cancelledOwed
      split <;> exact unloadedOwed.of_traffic rfl
  · unfold Main.drainReload
    split
    · unfold Main.queuePendingReload
      split <;> exact same.of_traffic rfl
    split
    · exact same
    next path _ => exact (owed_cancelPathWork same.serving host path).of_traffic rfl
  · unfold Main.drainLoad
    extract_lets cancelled
    have cancelledOwed : Owed s cancelled := by
      simp only [cancelled]
      split
      · exact same
      next path _ => exact owed_cancelPathWork same.serving host path
    exact cancelledOwed.of_traffic rfl

/-! ### Results -/

/-- A popped result: what it answered is no longer owed, all else still is. -/
theorem tryResult_serving {s : Settings} (sized : s.policy.Sized) {main : Main} (owed : Owed s main) :
    (main.tryResult s).2.activeBatch = main.activeBatch ∧
    ((main.tryResult s).1 = none ∧ Owed s (main.tryResult s).2 ∨
    ∃ key result, (main.tryResult s).1 = some result ∧ result.IsFor key ∧
      Invariant s.policy (main.tryResult s).2.sys ∧
      (∀ {other revision}, Owes s main.sys other revision → other ≠ key →
        Owes s (main.tryResult s).2.sys other revision) ∧
      (∀ {revision}, Owes s main.sys key revision → result.answers = (s.epoch,revision)) ∧
      key ∈ main.sys.worker.state.obligations ∧
      ∀ {other}, other ∈ (main.tryResult s).2.sys.worker.state.obligations →
        other ≠ key ∧ other ∈ main.sys.worker.state.obligations) := by
  have here := serving_overtaken sized owed.serving
  have same : (main.overtaken s).sys.worker.state.obligations = main.sys.worker.state.obligations ∧
      (main.overtaken s).sys.last = main.sys.last := by
    unfold Main.overtaken
    split
    · exact ⟨rfl,rfl⟩
    · exact turns_owing s.policy _ main.sys
  refine ⟨overtaken_activeBatch s main,?_⟩
  obtain ⟨nothing,obligations⟩ | ⟨key,result,popped,isFor,last,owes,left⟩ := tryResult_owing here.queue
  · have none : (main.tryResult s).1 = none := by
      simp only [Main.tryResult]
      rw [show LoaderWorker.tryResult (main.overtaken s).sys.worker.state =
        (none,_) from Prod.ext nothing rfl]
      rfl
    refine .inl ⟨none,?_,?_⟩
    · exact here.sameOwing (invariant_advance sized here.queue .tryResult) obligations rfl
    · intro batch active
      rw [show (main.tryResult s).2.activeBatch = main.activeBatch from overtaken_activeBatch s main] at active
      exact owed.waits active
  · refine .inr ⟨key,result,?_,isFor,invariant_advance sized here.queue .tryResult,?_,?_,?_,?_⟩
    · have popped : (LoaderWorker.tryResult (main.overtaken s).sys.worker.state).1 = _ := popped
      simp [Main.tryResult,popped]
    · intro other revision owed apart
      exact ⟨(left other).mpr ⟨apart,same.1 ▸ owed.1⟩,same.2 ▸ owed.2⟩
    · intro revision owed
      have lastKey : main.sys.last key = some result.answers := same.2 ▸ last
      rw [owed.2] at lastKey
      exact (Option.some.inj lastKey).symm
    · exact same.1 ▸ owes
    · intro other remains
      have := (left other).mp remains
      exact ⟨this.1,same.1 ▸ this.2⟩

theorem tryResult_traffic (s : Settings) (main : Main) :
    (main.tryResult s).2.traffic = { main.traffic with sys := (main.tryResult s).2.sys } := by
  unfold Main.tryResult Main.overtaken
  cases main.turns <;> rfl

/-- The archive of `path` at `revision` was just answered: the batch may handle it. -/
theorem owed_handlePlugin {s : Settings} (sized : s.policy.Sized) {main : Main} {path : Path} {revision : Nat}
    (serving : Serving s (fun other found => other = path ∧ found = revision) main.traffic)
    (waits : ∀ {batch}, main.activeBatch = some batch → batch.pending.keys ≠ [])
    (host : Host) (result : Except String PreparedPlugin) :
    Owed s (main.handlePlugin s host revision path result) := by
  have settled : ∀ {after : Main}, after.traffic = main.traffic →
      Owed s ((after.settleBatchPath path).finishBatchIfReady host) := by
    intro after same
    apply owed_finishBatchIfReady
    apply serving_settleBatchPath (same ▸ serving)
    rintro other found apart ⟨rfl,_⟩
    exact absurd rfl apart
  unfold Main.handlePlugin
  split
  next unexpected =>
    refine ⟨{ serving with awaited := ?_ },waits⟩
    intro batch other found active pending
    obtain ⟨rfl,rfl⟩ | rest := serving.awaited active pending
    · have active : main.activeBatch = some batch := active
      simp [active,pending] at unexpected
    · exact .inr rest
  next expected =>
    rw [not_not] at expected
    extract_lets oldId
    split
    · exact settled rfl
    next prepared =>
      extract_lets row held
      have heldServing : Serving s (fun other found => other = path ∧ found = revision) held.traffic :=
        serving_holdRow serving row
      have removed : ∀ {after : Main},
          Serving s (fun other found => other = path ∧ found = revision) after.traffic →
          Serving s nothing (after.removeBatchPath path).traffic := by
        intro after serving
        apply serving_removeBatchPath serving
        rintro other found apart ⟨rfl,_⟩
        exact absurd rfl apart
      split
      · exact settled (show (main.refusePrepared path prepared oldId).traffic = main.traffic from rfl)
      split
      · exact settled rfl
      split
      · apply owed_finishBatchIfReady
        apply serving_settleBatchPath heldServing
        rintro other found apart ⟨rfl,_⟩
        exact absurd rfl apart
      split
      · apply owed_finishBatchIfReady
        exact removed heldServing
      next configPath _ =>
        extract_lets queued
        obtain ⟨batch,active,pending⟩ := Option.bind_eq_some_iff.mp expected
        have heldActive : held.activeBatch = some { batch with prepared := batch.prepared.insert path row } := by
          simp [held,Main.holdRow,active,row]
        have queuedServing : Serving s (fun other found => other = path ∧ found = revision) queued.2.traffic := by
          apply serving_queueConfig sized heldServing
          intro batch' plugin revision' found consumer active' pending'
          obtain ⟨rfl,rfl⟩ := ConfigConsumer.plugin.inj consumer
          rw [heldActive] at active'
          obtain rfl := Option.some.inj active'
          exact .inl (Option.some.inj (pending'.symm.trans pending))
        have queuedActive : queued.2.activeBatch = some { batch with prepared := batch.prepared.insert path row } :=
          (congrArg (fun stage => stage.2.2) (queueConfig_stage s held configPath _)).trans heldActive
        split
        next queuedOk =>
          obtain ⟨configRow,here,member⟩ := queueConfig_queued queuedOk
          refine ⟨{ queuedServing with awaited := ?_ },?_⟩
          · intro batch' other found active' pending'
            obtain ⟨rfl,rfl⟩ | rest := queuedServing.awaited active' pending'
            · have same : queued.2.activeBatch = some batch' := active'
              rw [queuedActive] at same
              obtain rfl := Option.some.inj same
              exact .inr (.inr ⟨by simp,configPath,configRow,here,member⟩)
            · exact .inr rest
          · intro batch' active'
            rw [queuedActive] at active'
            obtain rfl := Option.some.inj active'
            have member : path ∈ batch.pending := Table.mem_of_lookup pending
            exact List.ne_nil_of_mem member
        · exact owed_finishBatchIfReady (removed queuedServing) host

/-- The consumers still to be served are exempt. -/
def unserved (consumers : List ConfigConsumer) (path : Path) (revision : Nat) : Prop :=
  .plugin path revision ∈ consumers

theorem serving_consume {s : Settings} (sized : s.policy.Sized) {state : Main × Nat} {consumer : ConfigConsumer}
    {rest : List ConfigConsumer} (serving : Serving s (unserved (consumer :: rest)) state.1.traffic)
    (host : Host) (path : Path) (watchGeneration : Option Nat) (result : Except String ConfigSnapshot) :
    Serving s (unserved rest)
      (Main.consume s host path watchGeneration result state consumer).1.traffic := by
  cases consumer with
  | plugin plugin revision =>
    have others : ∀ {other found}, other ≠ plugin →
        unserved (.plugin plugin revision :: rest) other found → unserved rest other found := by
      intro other found apart member
      simp only [unserved,List.mem_cons,ConfigConsumer.plugin.injEq] at member
      exact member.resolve_left fun same => apart same.1
    simp only [Main.consume]
    split
    next unawaited =>
      refine { serving with awaited := ?_ }
      intro batch other found active pending
      obtain member | kept := serving.awaited active pending
      · simp only [unserved,List.mem_cons,ConfigConsumer.plugin.injEq] at member
        obtain ⟨rfl,rfl⟩ | member := member
        · have active : state.1.activeBatch = some batch := active
          simp [Main.awaitsConfig,active,pending] at unawaited
        · exact .inl member
      · exact .inr kept
    · split
      · unfold Main.attachConfig
        split
        · exact serving_removeBatchPath serving plugin others
        split
        · exact serving_settleBatchPath (serving_holdRow serving _) plugin others
        · exact serving_removeBatchPath serving plugin others
      · exact serving_removeBatchPath serving plugin others
  | watch id generation =>
    have dropped : Serving s (unserved rest) state.1.traffic :=
      serving.weaken (by simp [unserved])
    simp only [Main.consume]
    split
    · exact dropped
    split
    · exact dropped
    split
    · exact dropped
    · unfold Main.deliver
      extract_lets seeded marked
      split
      · exact serving_callbacks sized _ dropped
      · exact dropped

theorem serving_consumers {s : Settings} (sized : s.policy.Sized) (host : Host) (path : Path)
    (watchGeneration : Option Nat) (result : Except String ConfigSnapshot) (consumers : List ConfigConsumer)
    {state : Main × Nat} (serving : Serving s (unserved consumers) state.1.traffic) :
    Serving s nothing
      (consumers.foldl (Main.consume s host path watchGeneration result) state).1.traffic := by
  induction consumers generalizing state with
  | nil => exact serving.weaken (by simp [unserved])
  | cons consumer rest ih => exact ih (serving_consume sized serving host path watchGeneration result)

/-- The config read of `path` at `revision` was just answered. -/
theorem owed_handleConfig {s : Settings} (sized : s.policy.Sized) {main : Main} {path : Path} {revision : Nat}
    (queue : Invariant s.policy main.sys)
    (rows : ∀ {other row}, other ≠ path → main.configPending.lookup other = some row →
      Owes s main.sys (.config other) row.revision)
    (answered : ∀ {row}, main.configPending.lookup path = some row → row.revision = revision)
    (scanning : main.scanInFlight = true → main.activeBatch = none ∧
      Owes s main.sys (.scan s.pluginsDir) main.scanRevision)
    (scans : ∀ {dir}, .scan dir ∈ main.sys.worker.state.obligations →
      dir = s.pluginsDir ∧ main.scanInFlight = true)
    (awaited : ∀ {batch plugin found}, main.activeBatch = some batch →
      batch.pending.lookup plugin = some found →
        Owes s main.sys (.plugin plugin) found ∨ AwaitsConfig main.traffic batch plugin found)
    (waits : ∀ {batch}, main.activeBatch = some batch → batch.pending.keys ≠ [])
    (host : Host) (watchGeneration : Option Nat) (result : Except String ConfigSnapshot) :
    Owed s (main.handleConfig s host path revision watchGeneration result) := by
  unfold Main.handleConfig
  extract_lets resolving taken
  clear_value resolving
  cases here : main.configPending.lookup path with
  | none =>
    have owed : Owed s main := by
      refine ⟨⟨queue,?_,scanning,scans,fun active pending => .inr (awaited active pending)⟩,waits⟩
      intro other row found
      refine rows ?_ found
      rintro rfl
      have found : main.configPending.lookup other = some row := found
      simp [here] at found
    simp only [Option.filter_none]
    cases resolving with
    | none => exact owed
    | some generation =>
      refine ⟨serving_resolveConfigWatch sized owed.serving path generation revision false,?_⟩
      intro batch active
      exact owed.waits ((overtaken_activeBatch s main).symm.trans active)
  | some row =>
    have current := answered here
    simp only [Option.filter_some,current,decide_true,if_true]
    have takenServing : Serving s (unserved row.consumers) taken.traffic := by
      refine ⟨queue,?_,scanning,scans,?_⟩
      · intro other found lookup
        simp only [taken,Main.traffic,Table.lookup_erase_eq] at lookup
        split at lookup
        · contradiction
        next apart => exact rows apart lookup
      · intro batch plugin found active pending
        obtain owes | ⟨prepared,configPath,configRow,lookup,member⟩ := awaited active pending
        · exact .inr (.inl owes)
        by_cases same : configPath = path
        · subst same
          have same : configRow = row := Option.some.inj (lookup.symm.trans here)
          exact .inl (same ▸ member)
        · refine .inr (.inr ⟨prepared,configPath,configRow,?_,member⟩)
          simpa [taken,Main.traffic,Table.lookup_erase_eq,same] using lookup
    have consumedServing : Serving s nothing
        (row.consumers.foldl (Main.consume s host path watchGeneration result) (taken,0)).1.traffic :=
      serving_consumers sized host path watchGeneration result row.consumers takenServing
    apply owed_finishBatchIfReady
    cases resolving with
    | none => exact consumedServing
    | some generation => exact serving_resolveConfigWatch sized consumedServing _ _ _ _

/-! ### Scans -/

/-- Neither a batch nor a scan is out. -/
structure Quiet (s : Settings) (main : Main) : Prop where
  serving : Serving s nothing main.traffic
  noBatch : main.activeBatch = none
  noScan : main.scanInFlight = false

theorem Quiet.owed {s : Settings} {main : Main} (quiet : Quiet s main) : Owed s main where
  serving := quiet.serving
  waits := by simp [quiet.noBatch]

theorem quiet_callbacks {s : Settings} (sized : s.policy.Sized) (callbacks : List Callback) {main : Main}
    (quiet : Quiet s main) : Quiet s (callbacks.foldl (Callback.run s) main) where
  serving := serving_callbacks sized callbacks quiet.serving
  noBatch := (congrArg (fun stage => stage.2.2) (callbacks_stage s callbacks main)).trans quiet.noBatch
  noScan := (congrArg Prod.fst (callbacks_stage s callbacks main)).trans quiet.noScan

theorem cancelPathWork_quiet {main : Main} (noBatch : main.activeBatch = none) (host : Host) (path : Path) :
    (main.cancelPathWork host path).traffic = main.traffic := by
  simp [Main.cancelPathWork,Main.removeBatchPath,Main.finishBatchIfReady,Main.traffic,noBatch]

theorem quiet_vanish {s : Settings} (sized : s.policy.Sized) {main : Main} (quiet : Quiet s main) (host : Host)
    (gone : Path × String) : Quiet s (main.vanish s host gone) := by
  unfold Main.vanish
  extract_lets retained cancelled unloaded
  have same : cancelled.traffic = main.traffic := cancelPathWork_quiet quiet.noBatch host gone.1
  have cancelledQuiet : Quiet s cancelled :=
    ⟨same ▸ quiet.serving,(congrArg Traffic.activeBatch same).trans quiet.noBatch,
      (congrArg Traffic.scanInFlight same).trans quiet.noScan⟩
  have unloadedQuiet : Quiet s unloaded := by
    simp only [unloaded]
    split
    · exact quiet_callbacks sized _
        ⟨cancelledQuiet.serving,cancelledQuiet.noBatch,cancelledQuiet.noScan⟩
    · exact cancelledQuiet
  exact ⟨unloadedQuiet.serving,unloadedQuiet.noBatch,unloadedQuiet.noScan⟩

theorem quiet_sweep {s : Settings} (sized : s.policy.Sized) (host : Host) (vanished : List (Path × String))
    {main : Main} (quiet : Quiet s main) : Quiet s (vanished.foldl (Main.vanish s host) main) := by
  induction vanished generalizing main with
  | nil => exact quiet
  | cons gone vanished ih => exact ih (quiet_vanish sized quiet host gone)

/-- A batch being built: the worker owes every file in it. -/
structure Building (s : Settings) (building : Main × ActiveBatch) : Prop where
  quiet : Quiet s building.1
  owes : ∀ {path revision}, building.2.pending.lookup path = some revision →
    Owes s building.1.sys (.plugin path) revision

theorem building_prepareFile {s : Settings} (sized : s.policy.Sized) {building : Main × ActiveBatch}
    (built : Building s building) {file : Path × FileStamp} (fresh : file.1 ∉ building.2.pending) :
    Building s (Main.prepareFile s building file) := by
  unfold Main.prepareFile
  extract_lets main batch revision dropped submitted
  split
  · exact built
  have here : Serving s nothing (dropped.overtaken s).traffic := serving_overtaken sized built.quiet.serving
  have owing : ∀ {key found}, Owes s main.sys key found → Owes s (dropped.overtaken s).sys key found := by
    intro key found owes
    unfold Main.overtaken
    split
    · exact owes
    · obtain ⟨obligations,last⟩ := turns_owing s.policy _ dropped.sys
      exact ⟨obligations ▸ owes.1,last ▸ owes.2⟩
  have noBatch : (dropped.overtaken s).activeBatch = none :=
    (overtaken_activeBatch s dropped).trans built.quiet.noBatch
  have noScan : (dropped.overtaken s).scanInFlight = false :=
    (congrArg Prod.fst (overtaken_stage s dropped)).trans built.quiet.noScan
  have quiet : Quiet s submitted.2 := by
    refine ⟨?_,noBatch,noScan⟩
    exact {
      queue := invariant_submit sized here.queue _
      rows := fun found => (here.rows found).submit _ (by simp [Request.key])
      scanning := fun flying => ⟨(here.scanning flying).1,(here.scanning flying).2.submit _ (by simp [Request.key])⟩
      scans := by
        intro dir owed
        obtain ⟨_,_,others,_⟩ | ⟨_,obligations,_⟩ :=
          submit_owing s (dropped.overtaken s).sys (.plugin s.epoch revision file.1)
        · exact here.scans ((others _ (by simp [Request.key])).mp owed)
        · exact here.scans (obligations ▸ owed)
      awaited := by
        intro batch path found active
        rw [show submitted.2.traffic.activeBatch = none from noBatch] at active
        contradiction }
  refine ⟨quiet,?_⟩
  intro path found pending
  have others : ∀ {found}, batch.pending.lookup path = some found → Owes s submitted.2.sys (.plugin path) found := by
    intro found pending
    apply (owing (built.owes pending)).submit
    simp only [Request.key,ne_eq,WorkKey.plugin.injEq]
    rintro rfl
    exact fresh (Table.mem_of_lookup pending)
  simp only at pending
  split at pending
  next admitted =>
    simp only [Table.lookup_insert_eq] at pending
    split at pending
    next same =>
      subst same
      obtain rfl := Option.some.inj pending
      exact owes_submitted admitted rfl
    · exact others pending
  · exact others pending

theorem prepareFile_pending {s : Settings} {building : Main × ActiveBatch} {file : Path × FileStamp} {path : Path}
    (pending : path ∈ (Main.prepareFile s building file).2.pending) :
    path = file.1 ∨ path ∈ building.2.pending := by
  unfold Main.prepareFile at pending
  extract_lets main batch revision dropped submitted at pending
  split at pending
  · exact .inr pending
  simp only at pending
  split at pending
  · simpa [AList.mem_insert] using pending
  · exact .inr pending

theorem building_files {s : Settings} (sized : s.policy.Sized) (files : List (Path × FileStamp))
    (distinct : (files.map Prod.fst).Nodup) {building : Main × ActiveBatch} (built : Building s building)
    (fresh : ∀ file ∈ files, file.1 ∉ building.2.pending) :
    Building s (files.foldl (Main.prepareFile s) building) := by
  induction files generalizing building with
  | nil => exact built
  | cons file files ih =>
    rw [List.map_cons,List.nodup_cons] at distinct
    apply ih distinct.2 (building_prepareFile sized built (fresh file (by simp)))
    intro other member pending
    obtain same | old := prepareFile_pending pending
    · exact distinct.1 (same ▸ List.mem_map_of_mem member)
    · exact fresh other (by simp [member]) old

/-- A listing that names each key by itself lists no key twice. -/
theorem nodup_named {V : Type} {keys : List Path} (distinct : keys.Nodup) (name : Path → Option (Path × V))
    (own : ∀ {path entry}, name path = some entry → entry.1 = path) : ((keys.filterMap name).map Prod.fst).Nodup := by
  rw [List.map_filterMap]
  apply distinct.filterMap
  intro first second path here there
  obtain ⟨entry,found,rfl⟩ := Option.map_eq_some_iff.mp here
  obtain ⟨other,also,same⟩ := Option.map_eq_some_iff.mp there
  exact (own found).symm.trans (same.symm.trans (own also))

theorem nodup_listed {V : Type} (visit : List Path) (table : Table Path V) :
    (((arrange visit table.keys).filterMap fun path => (table.lookup path).map (path,·)).map Prod.fst).Nodup := by
  apply nodup_named (nodup_arrange visit table.keys_nodup)
  intro path entry listed
  obtain ⟨value,_,rfl⟩ := Option.map_eq_some_iff.mp listed
  rfl

theorem owed_handleScan {s : Settings} (sized : s.policy.Sized) {main : Main}
    (quiet : Quiet s { main with scanInFlight := false }) (host : Host) (revision : Nat)
    (entries : Except String (List (Path × FileStamp))) : Owed s (main.handleScan s host revision entries) := by
  unfold Main.handleScan
  extract_lets landed sessions
  split
  · exact quiet.owed
  split
  · exact quiet.owed
  next entries =>
    extract_lets current retained vanished swept files built
    have sweptQuiet : Quiet s swept :=
      quiet_sweep sized host vanished (⟨quiet.serving,quiet.noBatch,quiet.noScan⟩ : Quiet s retained)
    have finished : Building s built :=
      building_files sized files (nodup_listed host.visit current) ⟨sweptQuiet,by simp⟩ (by simp)
    split
    · exact finished.quiet.owed
    next some =>
      refine ⟨?_,?_⟩
      · refine { finished.quiet.serving with scanning := ?_, awaited := ?_ }
        · intro flying
          exact absurd (flying.symm.trans finished.quiet.noScan) (by simp)
        · intro batch path found active pending
          obtain rfl := Option.some.inj active
          exact .inr (.inl (finished.owes pending))
      · intro batch active
        obtain rfl := Option.some.inj active
        exact some

theorem owed_popResult {s : Settings} (sized : s.policy.Sized) {main : Main} (owed : Owed s main) (host : Host) :
    Owed s (main.popResult s host) := by
  obtain ⟨active,⟨nothing,same⟩ | ⟨key,result,popped,isFor,queue,others,revised,owes,left⟩⟩ :=
    tryResult_serving sized owed
  · simp only [Main.popResult,nothing]
    exact same
  have frame := tryResult_traffic s main
  simp only [Main.popResult,popped]
  generalize (main.tryResult s).2 = after at active queue others left frame
  have pending : ∀ {path row}, after.configPending.lookup path = some row ↔
      main.configPending.lookup path = some row := by
    intro path row
    rw [show after.configPending = main.configPending from congrArg Traffic.configPending frame]
  have scanning : after.scanInFlight = true → key ≠ .scan s.pluginsDir → after.activeBatch = none ∧
      Owes s after.sys (.scan s.pluginsDir) after.scanRevision := by
    intro flying apart
    have revision : after.scanRevision = main.scanRevision := congrArg Traffic.scanRevision frame
    rw [show after.scanInFlight = main.scanInFlight from congrArg Traffic.scanInFlight frame] at flying
    obtain ⟨noBatch,owesScan⟩ := owed.serving.scanning flying
    exact ⟨active.trans noBatch,revision ▸ others owesScan apart.symm⟩
  have scans : ∀ {dir}, .scan dir ∈ after.sys.worker.state.obligations →
      dir = s.pluginsDir ∧ after.scanInFlight = true := by
    intro dir remains
    rw [show after.scanInFlight = main.scanInFlight from congrArg Traffic.scanInFlight frame]
    exact owed.serving.scans (left remains).2
  have waits : ∀ {batch}, after.activeBatch = some batch → batch.pending.keys ≠ [] := by
    intro batch found
    exact owed.waits (active ▸ found)
  have awaits : ∀ {batch path revision}, AwaitsConfig main.traffic batch path revision →
      AwaitsConfig after.traffic batch path revision := by
    rintro batch path revision ⟨prepared,configPath,row,found,member⟩
    exact ⟨prepared,configPath,row,pending.mpr found,member⟩
  cases result with
  | scan epoch revision entries =>
    cases key with
    | scan dir =>
      obtain ⟨rfl,flying⟩ := owed.serving.scans owes
      obtain ⟨noBatch,owesScan⟩ := owed.serving.scanning flying
      have epochs := revised owesScan
      simp only [WorkerResult.answers,Prod.mk.injEq] at epochs
      simp only [epochs.1,if_true]
      apply owed_handleScan sized
      refine ⟨⟨queue,?_,by simp [Main.traffic],?_,?_⟩,active.trans noBatch,rfl⟩
      · intro path row found
        exact others (owed.serving.rows (pending.mp found)) (by simp)
      · intro dir remains
        obtain ⟨apart,old⟩ := left remains
        exact absurd (congrArg WorkKey.scan (owed.serving.scans old).1) apart
      · intro batch path found activeBatch
        have activeBatch : after.activeBatch = some batch := activeBatch
        have noBatch : main.activeBatch = none := noBatch
        simp [active,noBatch] at activeBatch
    | plugin path => exact isFor.elim
    | config path => exact isFor.elim
  | plugin epoch revision path prepared =>
    cases key with
    | scan dir => exact isFor.elim
    | config path => exact isFor.elim
    | plugin asked =>
      obtain rfl : path = asked := isFor
      have serving : Serving s (fun other found => other = path ∧ (epoch,revision) = (s.epoch,found))
          after.traffic := by
        refine ⟨queue,?_,fun flying => scanning flying (by simp),scans,?_⟩
        · intro configPath row found
          exact others (owed.serving.rows (pending.mp found)) (by simp)
        · intro batch other found activeBatch waited
          have activeBatch : after.activeBatch = some batch := activeBatch
          obtain exempted | owesPlugin | config := owed.serving.awaited (active.symm.trans activeBatch) waited
          · exact exempted.elim
          · by_cases same : other = path
            · subst same
              exact .inl ⟨rfl,revised owesPlugin⟩
            · exact .inr (.inl (others owesPlugin (by simpa using same)))
          · exact .inr (.inr (awaits config))
      simp only
      split
      next sameEpoch =>
        apply owed_handlePlugin sized (serving.weaken ?_) waits
        rintro other found ⟨rfl,answers⟩
        exact ⟨rfl,(Prod.mk.inj answers).2.symm⟩
      next otherEpoch =>
        refine ⟨serving.weaken ?_,waits⟩
        rintro other found ⟨_,answers⟩
        exact absurd (Prod.mk.inj answers).1 otherEpoch
  | config epoch revision path watchGeneration snapshot =>
    cases key with
    | scan dir => exact isFor.elim
    | plugin path => exact isFor.elim
    | config asked =>
      obtain rfl : path = asked := isFor
      have answered : ∀ {row}, after.configPending.lookup path = some row →
          (epoch,revision) = (s.epoch,row.revision) := by
        intro row found
        exact revised (owed.serving.rows (pending.mp found))
      have rows : ∀ {other row}, other ≠ path → after.configPending.lookup other = some row →
          Owes s after.sys (.config other) row.revision := by
        intro other row apart found
        exact others (owed.serving.rows (pending.mp found)) (by simpa using apart)
      have awaited : ∀ {batch plugin found}, after.activeBatch = some batch →
          batch.pending.lookup plugin = some found →
            Owes s after.sys (.plugin plugin) found ∨ AwaitsConfig after.traffic batch plugin found := by
        intro batch plugin found activeBatch waited
        obtain exempted | owesPlugin | config := owed.serving.awaited (active.symm.trans activeBatch) waited
        · exact exempted.elim
        · exact .inl (others owesPlugin (by simp))
        · exact .inr (awaits config)
      simp only
      split
      · exact owed_handleConfig sized queue rows (fun found => (Prod.mk.inj (answered found)).2.symm)
          (fun flying => scanning flying (by simp)) scans awaited waits host watchGeneration snapshot
      next otherEpoch =>
        have still : Owed s after := by
          refine ⟨⟨queue,?_,fun flying => scanning flying (by simp),scans,
            fun activeBatch waited => .inr (awaited activeBatch waited)⟩,waits⟩
          intro other row found
          have found : after.configPending.lookup other = some row := found
          by_cases same : other = path
          · subst same
            exact absurd (Prod.mk.inj (answered found)).1 otherEpoch
          · exact rows same found
        split
        · split
          · refine ⟨serving_resolveConfigWatch sized still.serving _ _ _ _,?_⟩
            intro batch found
            exact still.waits ((overtaken_activeBatch s after).symm.trans found)
          · exact still
        · exact still

/-! ### Applying and scanning -/

theorem owed_beginLoad {s : Settings} (sized : s.policy.Sized) {main : Main} (owed : Owed s main) (host : Host)
    (row : PreparedLoad) : Owed s (main.beginLoad s host row) := by
  unfold Main.beginLoad
  extract_lets id started ran
  have startedOwed : Owed s started := owed.of_traffic rfl
  have ranOwed : Owed s ran := owed_callbacks sized _ startedOwed
  exact ranOwed.of_traffic rfl

theorem owed_applyReady {s : Settings} (sized : s.policy.Sized) {main : Main} (owed : Owed s main) (host : Host) :
    Owed s (main.applyReady s host) := by
  unfold Main.applyReady
  split
  · exact owed
  next item ready _ =>
    have popped : Owed s { main with readyApply := ready } := owed.of_traffic rfl
    generalize { main with readyApply := ready } = main at popped
    have outcome := Main.applied s host main item
    generalize main.applyPrepared s host item = after at outcome
    cases outcome with
    | ungated => exact popped.of_traffic rfl
    | duplicate => exact popped.of_traffic rfl
    | refused => exact popped.of_traffic rfl
    | parked => exact popped.of_traffic rfl
    | behind old =>
      unfold Main.queuePendingReload
      split <;> exact popped.of_traffic rfl
    | deferred =>
      unfold Main.deferPrepared
      split <;> exact popped.of_traffic rfl
    | loaded _ _ replaced _ retired =>
      have replacedOwed : Owed s replaced := by
        obtain ⟨_,rfl⟩ | ⟨old,_,rfl⟩ := retired
        · exact popped
        · exact owed_unloadPlugin sized popped host .replaced _ old
      exact owed_beginLoad sized replacedOwed host item.row

theorem quiet_queueConfig {s : Settings} (sized : s.policy.Sized) {main : Main} (quiet : Quiet s main) (path : Path)
    (id : String) (generation : Nat) : Quiet s (main.queueConfig s path (.watch id generation)).2 where
  serving := serving_queueConfig sized quiet.serving path _ (by simp)
  noBatch := (congrArg (fun stage => stage.2.2) (queueConfig_stage s main path _)).trans quiet.noBatch
  noScan := (congrArg Prod.fst (queueConfig_stage s main path _)).trans quiet.noScan

theorem quiet_queueWatched {s : Settings} (sized : s.policy.Sized) (watched : List (String × Path × Nat))
    {main : Main} (quiet : Quiet s main) :
    Quiet s (watched.foldl (fun main (id,path,generation) =>
      (main.queueConfig s path (.watch id generation)).2) main) := by
  induction watched generalizing main with
  | nil => exact quiet
  | cons watch watched ih => exact ih (quiet_queueConfig sized quiet _ _ _)

theorem owed_scheduleScan {s : Settings} (sized : s.policy.Sized) {main : Main} (owed : Owed s main) (host : Host) :
    Owed s (main.scheduleScan s host) := by
  unfold Main.scheduleScan
  split
  · exact owed
  next idle =>
    simp only [Bool.or_eq_true,not_or,Bool.not_eq_true,Option.isSome_eq_false_iff,Option.isNone_iff_eq_none] at idle
    extract_lets watched queued revision submitted
    have queuedQuiet : Quiet s queued := quiet_queueWatched sized watched ⟨owed.serving,idle.1.2,idle.1.1⟩
    have here : Serving s nothing (Main.overtaken s { queued with scanRevision := revision }).traffic := by
      apply serving_overtaken sized
      refine { queuedQuiet.serving with scanning := ?_ }
      intro flying
      exact absurd (flying.symm.trans queuedQuiet.noScan) (by simp)
    have noBatch : submitted.2.activeBatch = none :=
      (overtaken_activeBatch s { queued with scanRevision := revision }).trans queuedQuiet.noBatch
    have noScan : (Main.overtaken s { queued with scanRevision := revision }).scanInFlight = false :=
      (congrArg Prod.fst (overtaken_stage s { queued with scanRevision := revision })).trans queuedQuiet.noScan
    have revised : submitted.2.scanRevision = revision :=
      congrArg (fun stage => stage.2.1) (overtaken_stage s { queued with scanRevision := revision })
    have unscanned : ∀ {dir}, .scan dir ∉ (Main.overtaken s { queued with scanRevision := revision }).sys.worker.state.obligations := by
      intro dir owes
      exact absurd ((here.scans owes).2.symm.trans noScan) (by simp)
    have submission := submit_owing s (Main.overtaken s { queued with scanRevision := revision }).sys
      (.scan s.epoch revision s.pluginsDir)
    have rows : ∀ {path row}, submitted.2.configPending.lookup path = some row →
        Owes s submitted.2.sys (.config path) row.revision := by
      intro path row found
      exact (here.rows found).submit _ (by simp [Request.key])
    split
    next admitted =>
      obtain ⟨_,_,others,_⟩ | ⟨refused,_⟩ := submission
      · refine ⟨⟨invariant_submit sized here.queue _,rows,?_,?_,?_⟩,?_⟩
        · intro _
          refine ⟨noBatch,?_⟩
          have owes : Owes s submitted.2.sys (.scan s.pluginsDir) revision := owes_submitted admitted rfl
          exact revised ▸ owes
        · intro dir owes
          by_cases same : dir = s.pluginsDir
          · exact ⟨same,rfl⟩
          · exact absurd ((others _ (by simpa [Request.key] using same)).mp owes) unscanned
        · intro batch path found activeBatch
          have activeBatch : submitted.2.activeBatch = some batch := activeBatch
          simp [noBatch] at activeBatch
        · intro batch activeBatch
          have activeBatch : submitted.2.activeBatch = some batch := activeBatch
          simp [noBatch] at activeBatch
      · exact absurd (admitted.symm.trans refused) (by simp)
    next refused =>
      obtain ⟨admitted,_⟩ | ⟨_,obligations,last⟩ := submission
      · exact absurd admitted refused
      · refine ⟨here.sameOwing (invariant_submit sized here.queue _) obligations last,?_⟩
        intro batch activeBatch
        rw [noBatch] at activeBatch
        contradiction

/-! ### Whole runs -/

theorem owed_advance {s : Settings} (sized : s.policy.Sized) {main : Main} (owed : Owed s main) (event : Event) :
    Owed s (main.advance s event) := by
  have ready : ∀ turns, Owed s { main with turns := turns } := fun _ => owed.of_traffic rfl
  cases event with
  | turn turn =>
    exact ⟨owed.serving.sameOwing (invariant_advance sized owed.serving.queue _)
      (obligations_turn s.policy main.sys turn) (last_turn s.policy main.sys turn),owed.waits⟩
  | callback callback turns => exact owed_callbacks sized [callback] (ready turns)
  | drainIntent id host => exact owed_drainIntent sized (ready host.turns) host id
  | popResult host => exact owed_popResult sized (ready host.turns) host
  | applyReady host => exact owed_applyReady sized (ready host.turns) host
  | scheduleScan host => exact owed_scheduleScan sized (ready host.turns) host

theorem owed_start (s : Settings) : Owed s {} where
  serving := {
    queue := invariant_start s.policy
    rows := by simp [Main.traffic]
    scanning := by simp [Main.traffic]
    scans := by simp [Main.traffic]
    awaited := by simp [Main.traffic] }
  waits := by simp

theorem owed_execute {s : Settings} (sized : s.policy.Sized) (events : List Event) {main : Main}
    (owed : Owed s main) : Owed s (Main.execute s events main) := by
  induction events generalizing main with
  | nil => exact owed
  | cons event events ih => exact ih (owed_advance sized owed event)

/-- In every run, the batch that is out waits for something, and the worker owes
it every file it waits for: the archive, or the config read of its prepared row.
Once the worker owes nothing, neither a batch nor a scan is out. -/
theorem batch_never_wedges (s : Settings) (valid : s.policy.validate = .ok ()) (events : List Event) :
    let main := Main.execute s events {}
    (∀ batch, main.activeBatch = some batch → batch.pending.keys ≠ [] ∧
      ∀ path revision, batch.pending.lookup path = some revision →
        Owes s main.sys (.plugin path) revision ∨
        (path ∈ batch.prepared ∧ ∃ configPath row, main.configPending.lookup configPath = some row ∧
          .plugin path revision ∈ row.consumers ∧ Owes s main.sys (.config configPath) row.revision)) ∧
    (main.sys.worker.state.obligations = ∅ → main.activeBatch = none ∧ main.scanInFlight = false) := by
  intro main
  have owed : Owed s main := owed_execute (LoaderPolicy.sized valid) events (owed_start s)
  have awaited : ∀ batch, main.activeBatch = some batch → ∀ path revision,
      batch.pending.lookup path = some revision → Owes s main.sys (.plugin path) revision ∨
        (path ∈ batch.prepared ∧ ∃ configPath row, main.configPending.lookup configPath = some row ∧
          .plugin path revision ∈ row.consumers ∧ Owes s main.sys (.config configPath) row.revision) := by
    intro batch active path revision pending
    obtain exempted | owes | ⟨prepared,configPath,row,found,member⟩ := owed.serving.awaited active pending
    · exact exempted.elim
    · exact .inl owes
    · exact .inr ⟨prepared,configPath,row,found,member,owed.serving.rows found⟩
  refine ⟨fun batch active => ⟨owed.waits active,awaited batch active⟩,?_⟩
  intro nothingOwed
  have unowed : ∀ {key revision}, ¬Owes s main.sys key revision := by
    intro key revision owes
    rw [Owes,nothingOwed] at owes
    exact absurd owes.1 (AList.notMem_empty key)
  constructor
  · cases active : main.activeBatch with
    | none => rfl
    | some batch =>
      obtain ⟨path,member⟩ := List.exists_mem_of_ne_nil _ (owed.waits active)
      obtain ⟨revision,pending⟩ := Table.lookup_of_mem (AList.mem_keys.mpr member)
      obtain owes | ⟨_,_,_,_,_,owes⟩ := awaited batch active path revision pending
      · exact absurd owes unowed
      · exact absurd owes unowed
  · cases flying : main.scanInFlight with
    | false => rfl
    | true => exact absurd (owed.serving.scanning flying).2 unowed

/-- One scan that finds one new file. -/
def firstScan : List Event :=
  [.scheduleScan .plain,.turn .take,
    .turn (.finish ⟨fun _ => .ok [([97],⟨1,1,1,1,1,1⟩)],fun _ => .error "unread",fun _ => .error "unread"⟩),
    .popResult .plain]

theorem batch_never_wedges_scanned :
    ({} : LoaderPolicy).validate = .ok () ∧
    (Main.execute ⟨{},1,[47],List.length⟩ firstScan {}).activeBatch.map (·.pending.keys) = some [[97]] ∧
    ∀ batch, (Main.execute ⟨{},1,[47],List.length⟩ firstScan {}).activeBatch = some batch →
      batch.pending.keys ≠ [] :=
  ⟨rfl,by decide +kernel,fun batch active =>
    ((batch_never_wedges ⟨{},1,[47],List.length⟩ rfl firstScan).1 batch active).1⟩

end S2Script.Loader
