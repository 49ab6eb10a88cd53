import S2Script.LoaderWorker

/-! The loader worker's queue over every interleaving of the two threads. A key
the worker owes sits in exactly one of three places, its charges are the sums the
policy bounds, and the answer it gets is the one to its last admitted submit. -/
namespace S2Script.LoaderWorker

inductive Event where
  | submit (request : Request)
  | tryResult
  | resolveConfigWatch (path : Path) (generation revision : Nat) (applied : Bool)
  | retireConfigWatch (path : Path) (generation : Nat)
  | take
  | finish (disk : Disk)

/-- The two threads' state, and the last admitted submit of every key. -/
structure System where
  worker : Worker := {}
  last : WorkKey → Option (Nat × Nat) := fun _ => none

def Worker.lock (worker : Worker) (state : State) : Worker := { worker with state := state }

namespace System

def submit (policy : LoaderPolicy) (sys : System) (request : Request) : System :=
  let answer := trySubmit policy sys.worker.state request
  { worker := sys.worker.lock answer.2
    last := if answer.1.admitted then Function.update sys.last request.key (some request.submitted)
      else sys.last }

def advance (policy : LoaderPolicy) (sys : System) : Event → System
  | .submit request => sys.submit policy request
  | .tryResult => { sys with worker := sys.worker.lock (LoaderWorker.tryResult sys.worker.state).2 }
  | .resolveConfigWatch path generation revision applied =>
    let state := LoaderWorker.resolveConfigWatch sys.worker.state path generation revision applied
    { sys with worker := sys.worker.lock state }
  | .retireConfigWatch path generation =>
    let state := LoaderWorker.retireConfigWatch sys.worker.state path generation
    { sys with worker := sys.worker.lock state }
  | .take => { sys with worker := sys.worker.take }
  | .finish disk => { sys with worker := sys.worker.finish policy disk }

def execute (policy : LoaderPolicy) : List Event → System → System
  | [], sys => sys
  | event :: events, sys => execute policy events (sys.advance policy event)

end System

/-- The part of the state that requests move through. -/
structure Queue where
  order : List WorkKey
  pending : Table WorkKey Request
  rerun : Table WorkKey Request
  inFlight : Finset WorkKey
  results : List (WorkKey × WorkerResult)
  obligations : Table WorkKey (Nat × Nat)
  requestBytes : Nat
  reservedResultBytes : Nat

def State.queue (state : State) : Queue where
  order := state.order
  pending := state.pending
  rerun := state.rerun
  inFlight := state.inFlight
  results := state.results
  obligations := state.obligations
  requestBytes := state.requestBytes
  reservedResultBytes := state.reservedResultBytes

/-! ### Watch and counter updates leave the queue alone -/

@[simp] theorem queue_reject (state : State) (hit : WorkerRejections) : (state.reject hit).queue = state.queue :=
  rfl

@[simp] theorem queue_registerWatch (state : State) (watch : Option (Path × Nat)) :
    (state.registerWatch watch).queue = state.queue := by
  cases watch <;> rfl

@[simp] theorem queue_resolveConfigWatch (state : State) (path : Path) (generation revision : Nat)
    (applied : Bool) : (resolveConfigWatch state path generation revision applied).queue = state.queue := by
  unfold resolveConfigWatch
  split <;> rfl

@[simp] theorem queue_retireConfigWatch (state : State) (path : Path) (generation : Nat) :
    (retireConfigWatch state path generation).queue = state.queue := by
  unfold retireConfigWatch
  split <;> rfl

@[simp] theorem queue_syncConfigMetrics (state : State) (baselines : ConfigBaselines) :
    (state.syncConfigMetrics baselines).queue = state.queue := rfl

@[simp] theorem queue_pruneWatches (state : State) : state.pruneWatches.queue = state.queue := rfl

/-! ### Where a key is -/

namespace Queue

def answered (queue : Queue) : List WorkKey := queue.results.map Prod.fst

/-- Every owed key is queued, running or answered, and only one of them. -/
structure Placed (queue : Queue) : Prop where
  order_nodup : queue.order.Nodup
  order_pending : ∀ key, key ∈ queue.order ↔ key ∈ queue.pending
  answered_nodup : queue.answered.Nodup
  owed : ∀ key, key ∈ queue.obligations ↔
    key ∈ queue.pending ∨ key ∈ queue.inFlight ∨ key ∈ queue.answered
  queued_not_running : ∀ key, key ∈ queue.pending → key ∉ queue.inFlight
  queued_not_answered : ∀ key, key ∈ queue.pending → key ∉ queue.answered
  running_not_answered : ∀ key, key ∈ queue.inFlight → key ∉ queue.answered
  rerun_running : ∀ key, key ∈ queue.rerun → key ∈ queue.inFlight

/-- The byte counters are the sums over the obligations, within the policy. -/
structure Charged (policy : LoaderPolicy) (queue : Queue) : Prop where
  request_sum : queue.requestBytes = queue.obligations.weight fun _ charge => charge.1
  result_sum : queue.reservedResultBytes = queue.obligations.weight fun _ charge => charge.2
  request_bound : queue.requestBytes ≤ policy.requestBytes
  result_bound : queue.reservedResultBytes ≤ policy.resultBytes
  request_items : queue.obligations.size ≤ policy.requestItems
  result_items : queue.obligations.size ≤ policy.resultItems

end Queue

/-- The weight of every request for this key. -/
def WorkKey.requestWeight : WorkKey → Nat
  | .scan path | .plugin path | .config path => path.length + 64

theorem requestWeight_key (request : Request) : request.requestWeight = request.key.requestWeight := by
  cases request <;> rfl

/-- The result answers a request for this key. -/
def WorkerResult.IsFor : WorkerResult → WorkKey → Prop
  | .scan _ _ _, .scan _ => True
  | .plugin _ _ path _, .plugin asked | .config _ _ path _ _, .config asked => path = asked
  | _, _ => False

/-- What is queued, running or answered for a key is its last admitted submit. -/
structure Latest (queue : Queue) (turn : Option WorkerTurn) (last : WorkKey → Option (Nat × Nat)) :
    Prop where
  queued : ∀ {key request}, queue.pending.lookup key = some request →
    request.key = key ∧ last key = some request.submitted
  again : ∀ {key request}, queue.rerun.lookup key = some request →
    request.key = key ∧ last key = some request.submitted
  answered : ∀ {key result}, (key,result) ∈ queue.results →
    result.IsFor key ∧ last key = some result.answers
  turned : ∀ {key request}, turn = some (.request key request) → request.key = key ∧
    key ∈ queue.inFlight ∧ (key ∉ queue.rerun → last key = some request.submitted)
  running : ∀ {key}, key ∈ queue.inFlight → ∃ request, turn = some (.request key request)
  charged : ∀ {key charge}, queue.obligations.lookup key = some charge → charge.1 = key.requestWeight

structure Invariant (policy : LoaderPolicy) (sys : System) : Prop where
  placed : sys.worker.state.queue.Placed
  charged : sys.worker.state.queue.Charged policy
  latest : Latest sys.worker.state.queue sys.worker.turn sys.last

theorem invariant_start (policy : LoaderPolicy) : Invariant policy {} where
  placed := by
    constructor <;> simp [State.queue,Queue.answered]
  charged := by
    constructor <;> simp [State.queue]
  latest := by
    constructor <;> simp [State.queue]

/-! ### Submitting -/

@[simp] theorem coalesceWith_key (request older : Request) : (request.coalesceWith older).key = request.key := by
  cases request <;> cases older <;> rfl

@[simp] theorem coalesceWith_submitted (request older : Request) :
    (request.coalesceWith older).submitted = request.submitted := by
  cases request <;> cases older <;> rfl

/-- Coalescing asks a running key for a rerun, replaces a queued request, or
queues again a key whose result was not yet delivered. -/
theorem coalesce_cases (state : State) (request : Request) :
    (∃ latest, request.key ∈ state.inFlight ∧ latest.key = request.key ∧
      latest.submitted = request.submitted ∧
      state.coalesce request =
        { state with rerun := (state.rerun.erase request.key).insert request.key latest }) ∨
    (∃ old, request.key ∉ state.inFlight ∧ state.pending.lookup request.key = some old ∧
      state.coalesce request = { state with
        requestBytes := saturatingAdd (state.requestBytes - old.requestWeight) request.requestWeight
        pending := (state.pending.erase request.key).insert request.key (request.coalesceWith old) }) ∨
    (request.key ∉ state.inFlight ∧ request.key ∉ state.pending ∧
      state.coalesce request = { state with
        results := state.results.filter fun entry => entry.1 ≠ request.key
        pending := state.pending.insert request.key request
        order := state.order ++ [request.key] }) := by
  by_cases running : request.key ∈ state.inFlight
  · refine .inl ⟨((state.rerun.lookup request.key).map request.coalesceWith).getD request,running,?_,?_,
      by simp [State.coalesce,running]⟩ <;>
    · cases state.rerun.lookup request.key <;> simp
  · cases queued : state.pending.lookup request.key with
    | some old => exact .inr (.inl ⟨old,running,rfl,by simp [State.coalesce,running,queued]⟩)
    | none =>
      exact .inr (.inr ⟨running,AList.lookup_eq_none.mp queued,by simp [State.coalesce,running,queued]⟩)

theorem placed_coalesce {state : State} {request : Request} (placed : state.queue.Placed)
    (owed : request.key ∈ state.obligations) : (state.coalesce request).queue.Placed := by
  obtain ⟨latest,running,_,_,after⟩ | ⟨old,_,queued,after⟩ | ⟨idle,unqueued,after⟩ :=
    coalesce_cases state request
  · rw [after]
    refine { placed with rerun_running := ?_ }
    intro key member
    simp only [State.queue,AList.mem_insert,AList.mem_erase] at member
    obtain rfl | ⟨_,member⟩ := member
    · exact running
    · exact placed.rerun_running key member
  · have same : ∀ key, key ∈ (state.pending.erase request.key).insert request.key (request.coalesceWith old) ↔
        key ∈ state.pending := by
      intro key
      have member := Table.mem_of_lookup queued
      simp only [AList.mem_insert,AList.mem_erase]
      grind
    rw [after]
    exact {
      order_nodup := placed.order_nodup
      order_pending := fun key => (placed.order_pending key).trans (same key).symm
      answered_nodup := placed.answered_nodup
      owed := fun key => (placed.owed key).trans (or_congr_left (same key).symm)
      queued_not_running := fun key member => placed.queued_not_running key ((same key).mp member)
      queued_not_answered := fun key member => placed.queued_not_answered key ((same key).mp member)
      running_not_answered := placed.running_not_answered
      rerun_running := placed.rerun_running }
  · have answered : request.key ∈ state.queue.answered := by
      have := (placed.owed request.key).mp owed
      simp only [State.queue] at this
      tauto
    have kept : ∀ key, key ∈ (state.results.filter fun entry => entry.1 ≠ request.key).map Prod.fst ↔
        key ≠ request.key ∧ key ∈ state.queue.answered := by
      intro key
      simp only [State.queue,Queue.answered,List.mem_map,List.mem_filter,decide_eq_true_eq]
      grind
    have unordered : request.key ∉ state.order := fun member =>
      unqueued ((placed.order_pending request.key).mp member)
    rw [after]
    exact {
      order_nodup := by
        simp only [State.queue,List.nodup_append,List.nodup_singleton,List.mem_singleton]
        exact ⟨placed.order_nodup,trivial,by rintro key member _ rfl rfl; exact unordered member⟩
      order_pending := by
        intro key
        have := placed.order_pending key
        simp only [State.queue] at this
        simp only [State.queue,List.mem_append,List.mem_singleton,AList.mem_insert,this]
        tauto
      answered_nodup := placed.answered_nodup.sublist (List.filter_sublist.map _)
      owed := by
        intro key
        have owes := placed.owed key
        simp only [State.queue,Queue.answered] at owes answered kept ⊢
        rw [kept,owes,AList.mem_insert]
        grind
      queued_not_running := by
        intro key member
        simp only [State.queue,AList.mem_insert] at member
        obtain rfl | member := member
        · exact idle
        · exact placed.queued_not_running key member
      queued_not_answered := by
        intro key member
        simp only [State.queue,AList.mem_insert] at member
        simp only [State.queue,Queue.answered]
        rw [kept]
        rintro ⟨other,old⟩
        obtain rfl | member := member
        · exact other rfl
        · exact placed.queued_not_answered key member old
      running_not_answered := by
        intro key member old
        simp only [State.queue,Queue.answered] at old
        rw [kept] at old
        exact placed.running_not_answered key member old.2
      rerun_running := placed.rerun_running }

/-- What a validated policy promises: its sums never saturate. -/
structure LoaderPolicy.Sized (policy : LoaderPolicy) : Prop where
  request : policy.requestBytes < usizeMax
  result : policy.resultBytes < usizeMax
  baseline : policy.configBaselineBytes < usizeMax

theorem LoaderPolicy.bounded {policy : LoaderPolicy} (valid : policy.validate = .ok ()) :
    ∀ value ∈ policy.sizedFields, 0 < value ∧ value ≤ safeSize := by
  unfold validate at valid
  split at valid
  · contradiction
  next fields =>
    simp only [Bool.or_eq_true,List.any_eq_true,not_or,not_exists,not_and,decide_eq_true_eq,beq_iff_eq] at fields
    intro value member
    have := fields.1 value member
    omega

theorem safeSize_lt : LoaderPolicy.safeSize < usizeMax := by decide

theorem LoaderPolicy.sized {policy : LoaderPolicy} (valid : policy.validate = .ok ()) : policy.Sized where
  request := Nat.lt_of_le_of_lt (bounded valid _ (by simp [sizedFields])).2 safeSize_lt
  result := Nat.lt_of_le_of_lt (bounded valid _ (by simp [sizedFields])).2 safeSize_lt
  baseline := Nat.lt_of_le_of_lt (bounded valid _ (by simp [sizedFields])).2 safeSize_lt

theorem saturatingAdd_of_le {a b bound : Nat} (below : bound < usizeMax) (fits : ¬bound < saturatingAdd a b) :
    a + b ≤ bound := by
  unfold saturatingAdd at fits
  omega

theorem charged_coalesce {policy : LoaderPolicy} {state : State} {turn : Option WorkerTurn}
    {last : WorkKey → Option (Nat × Nat)} {request : Request} (sized : policy.Sized)
    (charged : state.queue.Charged policy) (latest : Latest state.queue turn last)
    (owed : request.key ∈ state.obligations) : (state.coalesce request).queue.Charged policy := by
  obtain ⟨_,_,_,_,after⟩ | ⟨old,_,queued,after⟩ | ⟨_,_,after⟩ := coalesce_cases state request
  · rw [after]
    exact { charged with }
  · obtain ⟨charge,here⟩ := Table.lookup_of_mem owed
    have paid : request.key.requestWeight ≤ state.requestBytes := by
      have held := Table.charge_le_weight (fun _ charge => charge.1) here
      have sum : state.requestBytes = _ := charged.request_sum
      have weight : charge.1 = _ := latest.charged here
      simp only [State.queue] at sum
      omega
    have unchanged : saturatingAdd (state.requestBytes - old.requestWeight) request.requestWeight =
        state.requestBytes := by
      have bound : state.requestBytes ≤ policy.requestBytes := charged.request_bound
      have below := sized.request
      have same : old.key = request.key := (latest.queued queued).1
      rw [requestWeight_key old,requestWeight_key request,same,saturatingAdd]
      omega
    rw [after,unchanged]
    exact { charged with }
  · rw [after]
    exact { charged with }

/-- Queueing a request for a key that is not running makes it the key's latest. -/
theorem Latest.queueing {before : Queue} {turn : Option WorkerTurn}
    {last : WorkKey → Option (Nat × Nat)} (latest : Latest before turn last) (after : Queue)
    (request : Request) (placed : before.Placed) (idle : request.key ∉ before.inFlight)
    (rerun : after.rerun = before.rerun) (inFlight : after.inFlight = before.inFlight)
    (pending : ∀ key, after.pending.lookup key =
      if key = request.key then some request else before.pending.lookup key)
    (results : ∀ {entry}, entry ∈ after.results → entry.1 ≠ request.key ∧ entry ∈ before.results)
    (charged : ∀ {key charge}, after.obligations.lookup key = some charge → charge.1 = key.requestWeight) :
    Latest after turn (Function.update last request.key (some request.submitted)) where
  queued := by
    intro key found here
    rw [pending] at here
    by_cases same : key = request.key
    · subst same
      simp only [if_true,Option.some.injEq] at here
      simp [here]
    · simp only [same,if_false] at here
      simpa [Function.update_of_ne same] using latest.queued here
  again := by
    intro key found here
    rw [rerun] at here
    have other : key ≠ request.key := by
      rintro rfl
      exact idle (placed.rerun_running _ (Table.mem_of_lookup here))
    simpa [Function.update_of_ne other] using latest.again here
  answered := by
    intro key result member
    obtain ⟨other,old⟩ := results member
    simpa [Function.update_of_ne other] using latest.answered old
  turned := by
    intro key found here
    obtain ⟨same,flying,rest⟩ := latest.turned here
    have other : key ≠ request.key := by
      rintro rfl
      exact idle flying
    rw [rerun,inFlight,Function.update_of_ne other]
    exact ⟨same,flying,rest⟩
  running := by
    intro key member
    rw [inFlight] at member
    exact latest.running member
  charged := charged

/-- Asking a running key for a rerun makes that request the key's latest. -/
theorem Latest.rerunning {state : State} {turn : Option WorkerTurn}
    {last : WorkKey → Option (Nat × Nat)} {request : Request} (latest : Latest state.queue turn last)
    (placed : state.queue.Placed) (running : request.key ∈ state.inFlight) :
    Latest { state with rerun := (state.rerun.erase request.key).insert request.key request }.queue turn
      (Function.update last request.key (some request.submitted)) where
  queued := by
    intro key found here
    have other : key ≠ request.key := by
      rintro rfl
      exact placed.queued_not_running _ (Table.mem_of_lookup here) running
    simpa [Function.update_of_ne other] using latest.queued here
  again := by
    intro key found here
    simp only [State.queue,Table.lookup_insert_eq,Table.lookup_erase_eq] at here
    by_cases same : key = request.key
    · subst same
      simp only [if_true,Option.some.injEq] at here
      simp [here]
    · simp only [same,if_false] at here
      simpa [Function.update_of_ne same] using latest.again here
  answered := by
    intro key result member
    have other : key ≠ request.key := by
      rintro rfl
      exact placed.running_not_answered _ running (List.mem_map.mpr ⟨_,member,rfl⟩)
    simpa [Function.update_of_ne other] using latest.answered member
  turned := by
    intro key found here
    obtain ⟨same,flying,rest⟩ := latest.turned here
    refine ⟨same,flying,?_⟩
    intro unasked
    simp only [State.queue,AList.mem_insert,AList.mem_erase,not_or,not_and] at unasked
    simpa [Function.update_of_ne unasked.1] using rest (unasked.2 unasked.1)
  running := latest.running
  charged := latest.charged

theorem latest_coalesce {state : State} {turn : Option WorkerTurn}
    {last : WorkKey → Option (Nat × Nat)} {request : Request} (placed : state.queue.Placed)
    (latest : Latest state.queue turn last) :
    Latest (state.coalesce request).queue turn
      (Function.update last request.key (some request.submitted)) := by
  obtain ⟨next,running,sameKey,submitted,after⟩ | ⟨old,idle,queued,after⟩ | ⟨idle,unqueued,after⟩ :=
    coalesce_cases state request
  · rw [after,← sameKey,← submitted]
    exact latest.rerunning placed (sameKey ▸ running)
  · have unanswered : request.key ∉ state.queue.answered :=
      placed.queued_not_answered _ (Table.mem_of_lookup queued)
    have replaced := latest.queueing (state.coalesce request).queue (request.coalesceWith old)
      placed (by simpa [State.queue] using idle) (by rw [after]; rfl) (by rw [after]; rfl)
    simp only [coalesceWith_key,coalesceWith_submitted] at replaced
    apply replaced
    · intro key
      rw [after]
      simp only [State.queue,Table.lookup_insert_eq,Table.lookup_erase_eq]
      split <;> rfl
    · intro entry member
      rw [after] at member
      refine ⟨?_,member⟩
      intro same
      exact unanswered (List.mem_map.mpr ⟨entry,member,same⟩)
    · rw [after]
      exact latest.charged
  · have kept := latest.queueing (state.coalesce request).queue request placed idle
      (by rw [after]; rfl) (by rw [after]; rfl)
    apply kept
    · intro key
      rw [after]
      exact Table.lookup_insert_eq _ _ _ _
    · intro entry member
      rw [after] at member
      simpa [State.queue,and_comm] using member
    · rw [after]
      exact latest.charged

theorem placed_accept {policy : LoaderPolicy} {state : State} {request : Request}
    (placed : state.queue.Placed) (unowed : request.key ∉ state.obligations) :
    (state.accept policy request).queue.Placed := by
  have nowhere : request.key ∉ state.pending ∧ request.key ∉ state.inFlight ∧
      request.key ∉ state.queue.answered := by
    have owes := placed.owed request.key
    simp only [State.queue] at owes
    tauto
  exact {
    order_nodup := by
      have unordered : request.key ∉ state.order := fun member =>
        nowhere.1 ((placed.order_pending request.key).mp member)
      simp only [State.accept,State.queue,List.nodup_append,List.nodup_singleton,List.mem_singleton]
      exact ⟨placed.order_nodup,trivial,by rintro key member _ rfl rfl; exact unordered member⟩
    order_pending := by
      intro key
      have := placed.order_pending key
      simp only [State.queue] at this
      simp only [State.accept,State.queue,List.mem_append,List.mem_singleton,AList.mem_insert,this]
      tauto
    answered_nodup := placed.answered_nodup
    owed := by
      intro key
      have owes := placed.owed key
      simp only [State.accept,State.queue,Queue.answered,AList.mem_insert] at owes ⊢
      rw [owes]
      tauto
    queued_not_running := by
      intro key member
      simp only [State.accept,State.queue,AList.mem_insert] at member
      obtain rfl | member := member
      · exact nowhere.2.1
      · exact placed.queued_not_running key member
    queued_not_answered := by
      intro key member
      simp only [State.accept,State.queue,AList.mem_insert] at member
      obtain rfl | member := member
      · exact nowhere.2.2
      · exact placed.queued_not_answered key member
    running_not_answered := placed.running_not_answered
    rerun_running := placed.rerun_running }

theorem charged_accept {policy : LoaderPolicy} {state : State} {request : Request} (sized : policy.Sized)
    (charged : state.queue.Charged policy) (unowed : request.key ∉ state.obligations)
    (room : queuePressure policy state request = {}) : (state.accept policy request).queue.Charged policy := by
  have fits : ¬policy.requestItems ≤ state.obligations.size ∧
      ¬policy.requestBytes < saturatingAdd state.requestBytes request.requestWeight ∧
      ¬policy.resultItems ≤ state.obligations.size ∧
      ¬policy.resultBytes < saturatingAdd state.reservedResultBytes (request.resultReservation policy) := by
    simpa [queuePressure] using room
  obtain ⟨requestItems,requestBytes,resultItems,resultBytes⟩ := fits
  have requestSum : state.requestBytes = _ := charged.request_sum
  have resultSum : state.reservedResultBytes = _ := charged.result_sum
  have grown : ((state.accept policy request).obligations).size = state.obligations.size + 1 :=
    Table.size_insert_new unowed _
  exact {
    request_sum := by
      simp only [State.accept,State.queue] at requestSum ⊢
      rw [Table.weight_insert_new _ unowed,← requestSum]
    result_sum := by
      simp only [State.accept,State.queue] at resultSum ⊢
      rw [Table.weight_insert_new _ unowed,← resultSum]
    request_bound := saturatingAdd_of_le sized.request requestBytes
    result_bound := saturatingAdd_of_le sized.result resultBytes
    request_items := by
      change ((state.accept policy request).obligations).size ≤ _
      omega
    result_items := by
      change ((state.accept policy request).obligations).size ≤ _
      omega }

theorem latest_accept {policy : LoaderPolicy} {state : State} {turn : Option WorkerTurn}
    {last : WorkKey → Option (Nat × Nat)} {request : Request} (placed : state.queue.Placed)
    (latest : Latest state.queue turn last) (unowed : request.key ∉ state.obligations) :
    Latest (state.accept policy request).queue turn
      (Function.update last request.key (some request.submitted)) := by
  have owes := placed.owed request.key
  simp only [State.queue] at owes
  apply latest.queueing (state.accept policy request).queue request placed (by simp only [State.queue]; tauto)
    rfl rfl
  · exact fun key => Table.lookup_insert_eq _ _ _ _
  · intro entry member
    refine ⟨?_,member⟩
    intro same
    exact unowed (owes.mpr (.inr (.inr (List.mem_map.mpr ⟨entry,member,same⟩))))
  · intro key charge here
    simp only [State.accept,State.queue,Table.lookup_insert_eq] at here
    by_cases same : key = request.key
    · subst same
      simp only [if_true,Option.some.injEq] at here
      simp [← here,requestWeight_key]
    · simp only [same,if_false] at here
      exact latest.charged here

/-- What a submit can answer, and what it then leaves behind. -/
theorem trySubmit_cases (policy : LoaderPolicy) (state : State) (request : Request) :
    (∃ hit, trySubmit policy state request = (.oversized,state.reject hit)) ∨
    (∃ hit, trySubmit policy state request = (.full,state.reject hit)) ∨
    (request.key ∈ state.obligations ∧
      trySubmit policy state request =
        (.coalesced,(state.registerWatch request.watch).coalesce request)) ∨
    (request.key ∉ state.obligations ∧ queuePressure policy state request = {} ∧
      trySubmit policy state request =
        (.accepted,(state.registerWatch request.watch).accept policy request)) := by
  unfold trySubmit
  extract_lets watchWeight
  split
  · exact .inl ⟨_,rfl⟩
  split
  · exact .inl ⟨_,rfl⟩
  split
  · exact .inr (.inl ⟨_,rfl⟩)
  split
  next owed => exact .inr (.inr (.inl ⟨owed,rfl⟩))
  next unowed =>
    split
    · exact .inr (.inl ⟨_,rfl⟩)
    next room => exact .inr (.inr (.inr ⟨unowed,not_not.mp room,rfl⟩))

theorem obligations_registerWatch (state : State) (watch : Option (Path × Nat)) :
    (state.registerWatch watch).obligations = state.obligations :=
  congrArg Queue.obligations (queue_registerWatch state watch)

theorem queuePressure_registerWatch (policy : LoaderPolicy) (state : State) (request : Request)
    (watch : Option (Path × Nat)) :
    queuePressure policy (state.registerWatch watch) request = queuePressure policy state request := by
  cases watch <;> rfl

theorem invariant_submit {policy : LoaderPolicy} {sys : System} (sized : policy.Sized)
    (inv : Invariant policy sys) (request : Request) : Invariant policy (sys.submit policy request) := by
  have registered : ((sys.worker.state.registerWatch request.watch).queue).Placed ∧
      ((sys.worker.state.registerWatch request.watch).queue).Charged policy ∧
      Latest (sys.worker.state.registerWatch request.watch).queue sys.worker.turn sys.last := by
    simpa using ⟨inv.placed,inv.charged,inv.latest⟩
  obtain ⟨placed,charged,latest⟩ := registered
  obtain ⟨hit,answer⟩ | ⟨hit,answer⟩ | ⟨owed,answer⟩ | ⟨unowed,room,answer⟩ :=
    trySubmit_cases policy sys.worker.state request
  · exact ⟨by simpa [System.submit,Worker.lock,answer] using inv.placed,
      by simpa [System.submit,Worker.lock,answer] using inv.charged,
      by simpa [System.submit,Worker.lock,answer,Submit.admitted] using inv.latest⟩
  · exact ⟨by simpa [System.submit,Worker.lock,answer] using inv.placed,
      by simpa [System.submit,Worker.lock,answer] using inv.charged,
      by simpa [System.submit,Worker.lock,answer,Submit.admitted] using inv.latest⟩
  · rw [← obligations_registerWatch _ request.watch] at owed
    exact ⟨by simpa [System.submit,Worker.lock,answer] using placed_coalesce placed owed,
      by simpa [System.submit,Worker.lock,answer] using charged_coalesce sized charged latest owed,
      by simpa [System.submit,Worker.lock,answer,Submit.admitted] using latest_coalesce placed latest⟩
  · rw [← obligations_registerWatch _ request.watch] at unowed
    rw [← queuePressure_registerWatch _ _ _ request.watch] at room
    exact ⟨by simpa [System.submit,Worker.lock,answer] using placed_accept placed unowed,
      by simpa [System.submit,Worker.lock,answer] using charged_accept sized charged unowed room,
      by simpa [System.submit,Worker.lock,answer,Submit.admitted] using latest_accept placed latest unowed⟩

/-! ### Delivering a result -/

/-- Popping a result ends the obligation it answers. -/
theorem tryResult_cases {state : State} (placed : state.queue.Placed) :
    (state.results = [] ∧ tryResult state = (none,state)) ∨
    ∃ key result results charge, state.results = (key,result) :: results ∧
      state.obligations.lookup key = some charge ∧
      tryResult state = (some (key,result),{ state with
        results := results
        obligations := state.obligations.erase key
        requestBytes := state.requestBytes - charge.1
        reservedResultBytes := state.reservedResultBytes - charge.2 }) := by
  cases waiting : state.results with
  | nil => exact .inl ⟨rfl,by simp [tryResult,waiting]⟩
  | cons entry results =>
    obtain ⟨key,result⟩ := entry
    have owed : key ∈ state.obligations :=
      (placed.owed key).mpr (.inr (.inr (by simp [State.queue,Queue.answered,waiting])))
    obtain ⟨charge,here⟩ := Table.lookup_of_mem owed
    exact .inr ⟨key,result,results,charge,rfl,here,by simp [tryResult,waiting,here]⟩

theorem invariant_tryResult {policy : LoaderPolicy} {sys : System} (inv : Invariant policy sys) :
    Invariant policy { sys with worker := sys.worker.lock (tryResult sys.worker.state).2 } := by
  obtain ⟨_,answer⟩ | ⟨key,result,results,charge,waiting,here,answer⟩ := tryResult_cases inv.placed
  · simpa [answer,Worker.lock] using inv
  rw [answer]
  obtain ⟨placed,charged,latest⟩ := inv
  have answeredKeys : sys.worker.state.queue.answered = key :: results.map Prod.fst := by
    simp [State.queue,Queue.answered,waiting]
  have once := placed.answered_nodup
  rw [answeredKeys,List.nodup_cons] at once
  have apart : key ∉ sys.worker.state.pending ∧ key ∉ sys.worker.state.inFlight := by
    have answered : key ∈ sys.worker.state.queue.answered := by simp [answeredKeys]
    exact ⟨fun member => placed.queued_not_answered key member answered,
      fun member => placed.running_not_answered key member answered⟩
  have requestSum : sys.worker.state.requestBytes = _ := charged.request_sum
  have resultSum : sys.worker.state.reservedResultBytes = _ := charged.result_sum
  have requestWeight := Table.weight_erase (fun _ charge => charge.1) here
  have resultWeight := Table.weight_erase (fun _ charge => charge.2) here
  have requestBound : sys.worker.state.requestBytes ≤ _ := charged.request_bound
  have resultBound : sys.worker.state.reservedResultBytes ≤ _ := charged.result_bound
  have smaller := Table.size_erase_le sys.worker.state.obligations key
  simp only [State.queue] at requestSum resultSum
  constructor
  · exact {
      order_nodup := placed.order_nodup
      order_pending := placed.order_pending
      answered_nodup := once.2
      owed := by
        intro other
        have owes := placed.owed other
        rw [answeredKeys,List.mem_cons] at owes
        simp only [Worker.lock,State.queue,Queue.answered,AList.mem_erase] at owes ⊢
        rw [owes]
        grind
      queued_not_running := placed.queued_not_running
      queued_not_answered := by
        intro other member old
        exact placed.queued_not_answered other member (by rw [answeredKeys]; exact List.mem_cons_of_mem _ old)
      running_not_answered := by
        intro other member old
        exact placed.running_not_answered other member (by rw [answeredKeys]; exact List.mem_cons_of_mem _ old)
      rerun_running := placed.rerun_running }
  · exact {
      request_sum := by
        simp only [Worker.lock,State.queue]
        omega
      result_sum := by
        simp only [Worker.lock,State.queue]
        omega
      request_bound := by
        simp only [Worker.lock,State.queue]
        omega
      result_bound := by
        simp only [Worker.lock,State.queue]
        omega
      request_items := Nat.le_trans smaller charged.request_items
      result_items := Nat.le_trans smaller charged.result_items }
  · exact {
      queued := latest.queued
      again := latest.again
      answered := fun member => latest.answered (by simp only [State.queue,waiting]; exact .tail _ member)
      turned := latest.turned
      running := latest.running
      charged := by
        intro other paid found
        simp only [Worker.lock,State.queue,Table.lookup_erase_eq] at found
        split at found
        · contradiction
        · exact latest.charged found }

/-! ### The worker's turns -/

theorem current_key (state : State) (request : Request) : (state.current request).key = request.key := by
  cases request <;> rfl

theorem current_submitted (state : State) (request : Request) :
    (state.current request).submitted = request.submitted := by
  cases request <;> rfl

theorem runRequest_answers (policy : LoaderPolicy) (disk : Disk) (baselines : ConfigBaselines)
    (request : Request) : (runRequest policy disk baselines request).1.IsFor request.key ∧
      (runRequest policy disk baselines request).1.answers = request.submitted := by
  cases request <;> simp [runRequest,WorkerResult.IsFor,WorkerResult.answers,Request.key,Request.submitted]

/-- A turn the thread takes: controls leave the queue alone; a request moves the
oldest queued key to the running ones. -/
theorem take_cases {worker : Worker} (placed : worker.state.queue.Placed) :
    worker.take = worker ∨
    (∃ watches, worker.turn = none ∧ worker.state.controls ≠ [] ∧ worker.take = { worker with
      state := { worker.state with configWatches := watches }
      turn := some (.controls worker.state.controls) }) ∨
    ∃ key order request, worker.turn = none ∧ worker.state.order = key :: order ∧
      worker.state.pending.lookup key = some request ∧
      worker.take = { worker with
        state := { worker.state with
          order := order
          pending := worker.state.pending.erase key
          inFlight := insert key worker.state.inFlight }
        turn := some (.request key (worker.state.current request)) } := by
  cases busy : worker.turn with
  | some turn => exact .inl (by simp [Worker.take,busy])
  | none =>
    by_cases waiting : worker.state.controls = []
    · cases queued : worker.state.order with
      | nil => exact .inl (by simp [Worker.take,busy,waiting,queued])
      | cons key order =>
        have member : key ∈ worker.state.pending :=
          (placed.order_pending key).mp (by simp [State.queue,queued])
        obtain ⟨request,here⟩ := Table.lookup_of_mem member
        exact .inr (.inr ⟨key,order,request,rfl,rfl,here,by simp [Worker.take,busy,waiting,queued,here]⟩)
    · exact .inr (.inl ⟨worker.state.configWatches.mapValues fun _ watch => { watch with control := {} },
        rfl,waiting,by simp [Worker.take,busy,waiting]⟩)

theorem invariant_take {policy : LoaderPolicy} {sys : System} (inv : Invariant policy sys) :
    Invariant policy { sys with worker := sys.worker.take } := by
  obtain ⟨placed,charged,latest⟩ := inv
  obtain after | ⟨watches,idle,_,after⟩ | ⟨key,order,request,idle,queued,here,after⟩ := take_cases placed
  · rw [after]
    exact ⟨placed,charged,latest⟩
  · rw [after]
    refine ⟨placed,{ charged with },{ latest with turned := ?_, running := ?_ }⟩
    · intro key request taken
      simp at taken
    · intro key member
      obtain ⟨request,taken⟩ := latest.running member
      simp [idle] at taken
  have member : key ∈ sys.worker.state.pending := Table.mem_of_lookup here
  have noneRunning : ∀ other, other ∉ sys.worker.state.inFlight := by
    intro other running
    obtain ⟨request,taken⟩ := latest.running running
    simp [idle] at taken
  have once := placed.order_nodup
  simp only [State.queue,queued,List.nodup_cons] at once
  obtain ⟨sameKey,submitted⟩ := latest.queued here
  rw [after]
  constructor
  · exact {
      order_nodup := once.2
      order_pending := by
        intro other
        have listed := placed.order_pending other
        simp only [State.queue,queued,List.mem_cons] at listed
        simp only [State.queue,AList.mem_erase,← listed]
        grind
      answered_nodup := placed.answered_nodup
      owed := by
        intro other
        have owes := placed.owed other
        simp only [State.queue,Queue.answered,AList.mem_erase,Finset.mem_insert] at owes ⊢
        rw [owes]
        grind
      queued_not_running := by
        intro other queuedOther
        simp only [State.queue,AList.mem_erase] at queuedOther
        simp only [State.queue,Finset.mem_insert,not_or]
        exact ⟨queuedOther.1,noneRunning other⟩
      queued_not_answered := by
        intro other queuedOther
        simp only [State.queue,AList.mem_erase] at queuedOther
        exact placed.queued_not_answered other queuedOther.2
      running_not_answered := by
        intro other running
        simp only [State.queue,Finset.mem_insert] at running
        obtain rfl | running := running
        · exact placed.queued_not_answered other member
        · exact absurd running (noneRunning other)
      rerun_running := by
        intro other asked
        exact absurd (placed.rerun_running other asked) (noneRunning other) }
  · exact { charged with }
  · exact {
      queued := by
        intro other found there
        simp only [State.queue,Table.lookup_erase_eq] at there
        split at there
        · contradiction
        · exact latest.queued there
      again := latest.again
      answered := latest.answered
      turned := by
        intro other found taken
        simp only [Option.some.injEq,WorkerTurn.request.injEq] at taken
        obtain ⟨rfl,rfl⟩ := taken
        refine ⟨(current_key _ _).trans sameKey,by simp [State.queue],fun _ => ?_⟩
        rw [current_submitted]
        exact submitted
      running := by
        intro other running
        simp only [State.queue,Finset.mem_insert] at running
        obtain rfl | running := running
        · exact ⟨_,rfl⟩
        · exact absurd running (noneRunning other)
      charged := latest.charged }

/-- An answer queues the key again when a rerun was asked for, else it waits. -/
theorem answer_cases (state : State) (key : WorkKey) (result : WorkerResult) :
    (∃ next, state.rerun.lookup key = some next ∧ state.answer key result = { state with
      inFlight := state.inFlight.erase key
      rerun := state.rerun.erase key
      pending := state.pending.insert key next
      order := state.order ++ [key] }) ∨
    (key ∉ state.rerun ∧ state.answer key result = { state with
      inFlight := state.inFlight.erase key
      results := state.results ++ [(key,result)] }) := by
  cases asked : state.rerun.lookup key with
  | some next => exact .inl ⟨next,rfl,by simp [State.answer,asked]⟩
  | none => exact .inr ⟨AList.lookup_eq_none.mp asked,by simp [State.answer,asked]⟩

theorem placed_answer {state : State} {key : WorkKey} (placed : state.queue.Placed)
    (running : key ∈ state.inFlight) (result : WorkerResult) : (state.answer key result).queue.Placed := by
  have unqueued : key ∉ state.pending := fun member => placed.queued_not_running key member running
  have unanswered : key ∉ state.queue.answered := placed.running_not_answered key running
  obtain ⟨next,asked,after⟩ | ⟨unasked,after⟩ := answer_cases state key result
  · have unordered : key ∉ state.order := fun member => unqueued ((placed.order_pending key).mp member)
    rw [after]
    exact {
      order_nodup := by
        simp only [State.queue,List.nodup_append,List.nodup_singleton,List.mem_singleton]
        exact ⟨placed.order_nodup,trivial,by rintro other member _ rfl rfl; exact unordered member⟩
      order_pending := by
        intro other
        have listed := placed.order_pending other
        simp only [State.queue] at listed
        simp only [State.queue,List.mem_append,List.mem_singleton,AList.mem_insert,listed]
        tauto
      answered_nodup := placed.answered_nodup
      owed := by
        intro other
        have owes := placed.owed other
        simp only [State.queue,Queue.answered,AList.mem_insert,Finset.mem_erase] at owes ⊢
        rw [owes]
        grind
      queued_not_running := by
        intro other member
        simp only [State.queue,AList.mem_insert] at member
        simp only [State.queue,Finset.mem_erase,not_and]
        intro apart
        exact placed.queued_not_running other (member.resolve_left apart)
      queued_not_answered := by
        intro other member
        simp only [State.queue,AList.mem_insert] at member
        obtain rfl | member := member
        · exact unanswered
        · exact placed.queued_not_answered other member
      running_not_answered := by
        intro other member
        simp only [State.queue,Finset.mem_erase] at member
        exact placed.running_not_answered other member.2
      rerun_running := by
        intro other member
        simp only [State.queue,AList.mem_erase] at member
        simp only [State.queue,Finset.mem_erase]
        exact ⟨member.1,placed.rerun_running other member.2⟩ }
  · have answeredKeys : (state.answer key result).queue.answered = state.queue.answered ++ [key] := by
      rw [after]
      simp [State.queue,Queue.answered]
    have others : ∀ other, other ∈ (state.answer key result).inFlight ↔ other ≠ key ∧ other ∈ state.inFlight := by
      intro other
      rw [after]
      exact Finset.mem_erase
    exact {
      order_nodup := by
        rw [after]
        exact placed.order_nodup
      order_pending := by
        rw [after]
        exact placed.order_pending
      answered_nodup := by
        rw [answeredKeys]
        simp only [List.nodup_append,List.nodup_singleton,List.mem_singleton]
        exact ⟨placed.answered_nodup,trivial,by rintro other member _ rfl rfl; exact unanswered member⟩
      owed := by
        intro other
        have owes := placed.owed other
        rw [answeredKeys]
        rw [after]
        simp only [State.queue,List.mem_append,List.mem_singleton,Finset.mem_erase] at owes ⊢
        rw [owes]
        grind
      queued_not_running := by
        intro other member running
        rw [after] at member
        exact placed.queued_not_running other member ((others other).mp running).2
      queued_not_answered := by
        intro other member
        rw [after] at member
        rw [answeredKeys,List.mem_append,List.mem_singleton,not_or]
        refine ⟨placed.queued_not_answered other member,?_⟩
        rintro rfl
        exact unqueued member
      running_not_answered := by
        intro other member
        obtain ⟨apart,flying⟩ := (others other).mp member
        rw [answeredKeys,List.mem_append,List.mem_singleton,not_or]
        exact ⟨placed.running_not_answered other flying,apart⟩
      rerun_running := by
        intro other member
        rw [after] at member
        refine (others other).mpr ⟨?_,placed.rerun_running other member⟩
        rintro rfl
        exact unasked member }

theorem charged_answer {policy : LoaderPolicy} {state : State} (charged : state.queue.Charged policy)
    (key : WorkKey) (result : WorkerResult) : (state.answer key result).queue.Charged policy := by
  obtain ⟨next,_,after⟩ | ⟨_,after⟩ := answer_cases state key result <;>
  · rw [after]
    exact { charged with }

theorem latest_answer {state : State} {key : WorkKey} {request : Request} {result : WorkerResult}
    {last : WorkKey → Option (Nat × Nat)} (latest : Latest state.queue (some (.request key request)) last)
    (answers : result.IsFor request.key ∧ result.answers = request.submitted) : Latest (state.answer key result).queue none last := by
  obtain ⟨sameKey,_,current⟩ := latest.turned rfl
  have alone : ∀ {other}, other ∈ state.inFlight → other = key := by
    intro other running
    obtain ⟨_,taken⟩ := latest.running running
    simp only [Option.some.injEq,WorkerTurn.request.injEq] at taken
    exact taken.1.symm
  obtain ⟨next,asked,after⟩ | ⟨unasked,after⟩ := answer_cases state key result
  · rw [after]
    exact {
      queued := by
        intro other found here
        simp only [State.queue,Table.lookup_insert_eq] at here
        by_cases same : other = key
        · subst same
          simp only [if_true,Option.some.injEq] at here
          subst here
          exact latest.again asked
        · simp only [same,if_false] at here
          exact latest.queued here
      again := by
        intro other found here
        simp only [State.queue,Table.lookup_erase_eq] at here
        split at here
        · contradiction
        · exact latest.again here
      answered := latest.answered
      turned := by simp
      running := by
        intro other member
        simp only [State.queue,Finset.mem_erase] at member
        exact absurd (alone member.2) member.1
      charged := latest.charged }
  · rw [after]
    exact {
      queued := latest.queued
      again := latest.again
      answered := by
        intro other found member
        simp only [State.queue,List.mem_append,List.mem_singleton,Prod.mk.injEq] at member
        obtain member | ⟨rfl,rfl⟩ := member
        · exact latest.answered member
        · exact ⟨sameKey ▸ answers.1,answers.2 ▸ current unasked⟩
      turned := by simp
      running := by
        intro other member
        simp only [State.queue,Finset.mem_erase] at member
        exact absurd (alone member.2) member.1
      charged := latest.charged }

theorem invariant_finish {policy : LoaderPolicy} {sys : System} (inv : Invariant policy sys) (disk : Disk) :
    Invariant policy { sys with worker := sys.worker.finish policy disk } := by
  obtain ⟨placed,charged,latest⟩ := inv
  cases taken : sys.worker.turn with
  | none =>
    simp only [Worker.finish,taken]
    exact ⟨placed,charged,latest⟩
  | some turn =>
    rw [taken] at latest
    cases turn with
    | controls controls =>
      simp only [Worker.finish,taken]
      refine ⟨by simpa using placed,by simpa using charged,?_⟩
      simp only [queue_syncConfigMetrics,queue_pruneWatches]
      refine { latest with turned := by simp, running := ?_ }
      intro key member
      obtain ⟨_,turned⟩ := latest.running member
      simp at turned
    | request key request =>
      simp only [Worker.finish,taken]
      have synced := queue_syncConfigMetrics sys.worker.state
        (runRequest policy disk sys.worker.baselines request).2
      have running := (latest.turned rfl).2.1
      rw [← synced] at placed charged latest
      exact ⟨placed_answer placed running _,charged_answer charged _ _,
        latest_answer latest (runRequest_answers _ _ _ _)⟩

/-! ### Whole runs -/

theorem invariant_advance {policy : LoaderPolicy} {sys : System} (sized : policy.Sized)
    (inv : Invariant policy sys) (event : Event) : Invariant policy (sys.advance policy event) := by
  cases event with
  | submit request => exact invariant_submit sized inv request
  | tryResult => exact invariant_tryResult inv
  | resolveConfigWatch path generation revision applied =>
    exact ⟨by simpa [System.advance,Worker.lock] using inv.placed,
      by simpa [System.advance,Worker.lock] using inv.charged,
      by simpa [System.advance,Worker.lock] using inv.latest⟩
  | retireConfigWatch path generation =>
    exact ⟨by simpa [System.advance,Worker.lock] using inv.placed,
      by simpa [System.advance,Worker.lock] using inv.charged,
      by simpa [System.advance,Worker.lock] using inv.latest⟩
  | take => exact invariant_take inv
  | finish disk => exact invariant_finish inv disk

theorem invariant_execute {policy : LoaderPolicy} (sized : policy.Sized) (events : List Event)
    {sys : System} (inv : Invariant policy sys) : Invariant policy (System.execute policy events sys) := by
  induction events generalizing sys with
  | nil => exact inv
  | cons event events ih => exact ih (invariant_advance sized inv event)

/-- Over every interleaving of the game thread's calls with the worker's turns, no
obligation is lost, duplicated or answered stale. -/
theorem queue_conserves_obligations (policy : LoaderPolicy) (valid : policy.validate = .ok ())
    (events : List Event) :
    let sys := System.execute policy events {}
    let state := sys.worker.state
    state.queue.Placed ∧ state.queue.Charged policy ∧
    (∀ request, (trySubmit policy state request).1.admitted = false →
      ∃ hit, (trySubmit policy state request).2 = state.reject hit) ∧
    ∀ key result, (tryResult state).1 = some (key,result) →
      result.IsFor key ∧ sys.last key = some result.answers := by
  intro sys state
  have inv : Invariant policy sys := invariant_execute (LoaderPolicy.sized valid) events (invariant_start policy)
  refine ⟨inv.placed,inv.charged,?_,?_⟩
  · intro request refused
    obtain ⟨hit,answer⟩ | ⟨hit,answer⟩ | ⟨_,answer⟩ | ⟨_,_,answer⟩ := trySubmit_cases policy state request
    · exact ⟨hit,by rw [answer]⟩
    · exact ⟨hit,by rw [answer]⟩
    · simp [answer,Submit.admitted] at refused
    · simp [answer,Submit.admitted] at refused
  · intro key result popped
    obtain ⟨_,answer⟩ | ⟨other,found,results,charge,waiting,_,answer⟩ := tryResult_cases inv.placed
    · have answer : tryResult state = (none,state) := answer
      simp [answer] at popped
    · have first : (tryResult state).1 = some (other,found) := by
        have answer : tryResult state = _ := answer
        rw [answer]
      rw [first] at popped
      obtain ⟨rfl,rfl⟩ := Prod.mk.inj (Option.some.inj popped)
      exact inv.latest.answered (by simp [State.queue,waiting])

/-- A plugin read again while it ran is answered at the later revision. -/
def rereadEvents (disk : Disk) : List Event :=
  [.submit (.plugin 1 1 [97]),.take,.submit (.plugin 1 2 [97]),.finish disk,.take,.finish disk]

theorem queue_conserves_obligations_reread :
    ({} : LoaderPolicy).validate = .ok () ∧
    (System.execute {} (rereadEvents ⟨fun _ => .ok [],fun _ => .error "missing: gone",fun _ => .error "missing: gone"⟩)
      {}).last (.plugin [97]) = some (1,2) :=
  ⟨rfl,((queue_conserves_obligations {} rfl _).2.2.2 (.plugin [97])
    (.plugin 1 2 [97] (.error "missing: gone")) rfl).2⟩

end S2Script.LoaderWorker
