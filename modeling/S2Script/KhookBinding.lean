import S2Script.Table

/-! Checked hook bindings and their retirement. Every critical section and every atomic access
is one step of one thread; a thread is somewhere inside `NoteObserve`, `LeaveObserve` or
`BeginRemove` between two of them. -/
namespace S2Script.KhookBinding

inductive HookState where
  | failed
  | pending
  | active
  | removing
  | removed
deriving DecidableEq, Repr

inductive HookLifecycle where
  | running
  | retiring
  | ready
deriving DecidableEq, Repr

/-- A hook id that a binding was handed. -/
structure Hook where
  binding : Nat
  id : Nat
deriving DecidableEq, Repr

structure Owned where
  state : HookState
  invocations : Nat
  removeScheduled : Bool
  complete : Bool
  capsule : Option Nat

/-- `S2HookBindingState`. -/
structure Binding where
  owned : Table Nat Owned
  lastId : Option Nat
  lastState : HookState
  reason : String

def Binding.default : Binding := ⟨∅,none,.failed,""⟩

/-- Write a record back. -/
def Binding.put (b : Binding) (id : Nat) (o : Owned) : Binding := { b with owned := b.owned.insert id o }

/-- Write a record back with a new state, which the receipt of the last id follows. -/
def Binding.become (b : Binding) (id : Nat) (o : Owned) (state : HookState) : Binding :=
  { b with
    owned := b.owned.insert id { o with state }
    lastState := if b.lastId = some id then state else b.lastState }

/-- `Accept`. -/
def Binding.accept (b : Binding) (id : Nat) (capsule : Option Nat) : Binding :=
  match b.owned.lookup id with
  | none => ⟨b.owned.insert id ⟨.pending,0,false,false,capsule⟩,some id,.pending,""⟩
  | some o => { b with lastId := some id, lastState := o.state, reason := "" }

/-- The first critical section of `NoteObserve`. No result is a refusal. -/
def Binding.noteObserve (b : Binding) (id : Nat) : Option Binding :=
  match b.owned.lookup id with
  | none => none
  | some o =>
    match o.state with
    | .failed => none
    | .removed => none
    | .pending => some (b.become id { o with invocations := o.invocations + 1 } .active)
    | _ => some (b.put id { o with invocations := o.invocations + 1 })

/-- The critical section of `LeaveObserve`. -/
def Binding.leaveObserve (b : Binding) (id : Nat) : Binding :=
  match b.owned.lookup id with
  | none => b
  | some o =>
    let o := { o with invocations := o.invocations - 1 }
    if o.complete = true ∧ o.invocations = 0 then b.become id o .removed else b.put id o

def Binding.onRemoved (b : Binding) (id : Nat) : Binding :=
  match b.owned.lookup id with
  | none => b
  | some o =>
    let o := { o with complete := true }
    if o.invocations = 0 then b.become id o .removed else b.put id o

/-- Why a synchronous `BeginRemove` returns false under the lock. -/
def Binding.refusesSync (b : Binding) (terminal : Option Nat) : Bool :=
  b.owned.values.any fun o =>
    o.state ≠ .removed && (terminal.isSome && o.capsule == terminal || o.removeScheduled)

/-- `to_remove`. -/
def Binding.toRemove (b : Binding) : List Nat :=
  (b.owned.entries.filter fun entry => !entry.2.removeScheduled).map fun entry => entry.1

def Owned.schedule (o : Owned) : Owned :=
  if o.removeScheduled then o else { o with removeScheduled := true, state := .removing }

def Binding.schedule (b : Binding) : Binding :=
  { b with
    owned := b.owned.mapValues fun _ o => o.schedule
    lastState := if b.toRemove.any fun id => b.lastId = some id then .removing else b.lastState }

structure Frame where
  hook : Hook
  capsule : Option Nat

/-- Where a thread stands: past the first lock of `NoteObserve`, past its count, or past the
count of `LeaveObserve`. -/
inductive Stage where
  | idle
  | noted (hook : Hook)
  | entered (hook : Hook)
  | leaving (hook : Hook)

/-- `g_callback_depth` and `g_observe_stack`, the top first. -/
structure Thread where
  callbackDepth : Nat
  observeStack : List Frame
  stage : Stage

def Thread.new : Thread := ⟨0,[],.idle⟩

/-- A `BeginRemove` before its lock, with the capsule of a terminal permit that holds, or in
its loop, with the id it has just queued for retirement. -/
inductive Job where
  | checked (binding : Nat) (async : Bool) (terminal : Option Nat)
  | removing (binding : Nat) (async : Bool) (toRemove : List Nat) (queued : Option Nat)

/-- The holder of `g_retire_mu`, at its index into the queue. -/
inductive Scan where
  | drain (i : Nat)
  | pending (i count : Nat)

/-- `scheduled`, `calls` and `confirmed` record what was marked for removal, what was passed to
`RemoveHook` and what `OnRemoved` was told; `drained` and `pending` what `DrainRetirement` and
`RetirementPending` last returned with no binding operation since. -/
structure World (n : Nat) where
  bindings : Nat → Binding
  threads : Fin n → Thread
  activeCallbacks : Int
  lifecycle : HookLifecycle
  retire : List Hook
  scan : Option Scan
  drainers : Nat
  jobs : List Job
  constructing : Nat
  dispatchGuards : Nat
  scheduled : List (Hook × Bool)
  calls : List (Hook × Bool)
  confirmed : List Hook
  drained : Option Bool
  pending : Option Nat

variable {n : Nat}

def World.new (n : Nat) : World n :=
  ⟨fun _ => .default,fun _ => .new,0,.running,[],none,0,[],0,0,[],[],[],none,none⟩

def World.record (w : World n) (h : Hook) : Option Owned := (w.bindings h.binding).owned.lookup h.id

def World.setBinding (w : World n) (b : Nat) (binding : Binding) : World n :=
  { w with bindings := Function.update w.bindings b binding }

def World.setThread (w : World n) (t : Fin n) (thread : Thread) : World n :=
  { w with threads := Function.update w.threads t thread }

/-- A binding operation makes the last answers stale. -/
def World.stale (w : World n) : World n := { w with drained := none, pending := none }

def World.accept (w : World n) (b id : Nat) (capsule : Option Nat) : World n :=
  (w.setBinding b ((w.bindings b).accept id capsule)).stale

def World.noteObserve (w : World n) (t : Fin n) (b : Nat) (id : Option Nat) : World n :=
  match (w.threads t).stage,id with
  | .idle,some id =>
    match (w.bindings b).noteObserve id with
    | none => w
    | some binding => (w.setBinding b binding).setThread t { w.threads t with stage := .noted ⟨b,id⟩ }
  | _,_ => w

/-- `NoteObserve` counts the callback. -/
def World.enterObserve (w : World n) (t : Fin n) : World n :=
  match w.threads t with
  | ⟨depth,stack,.noted h⟩ =>
    { w.setThread t ⟨depth + 1,stack,.entered h⟩ with activeCallbacks := w.activeCallbacks + 1 }
  | _ => w

/-- `NoteObserve` reads the capsule, pushes its frame and returns a guard. -/
def World.grantObserve (w : World n) (t : Fin n) : World n :=
  match w.threads t with
  | ⟨depth,stack,.entered h⟩ => w.setThread t ⟨depth,⟨h,(w.record h).bind Owned.capsule⟩ :: stack,.idle⟩
  | _ => w

/-- `LeaveObserve` of the thread's last guard, up to its lock. -/
def World.leaveObserve (w : World n) (t : Fin n) : World n :=
  match w.threads t with
  | ⟨depth,frame :: stack,.idle⟩ =>
    { w.setThread t ⟨depth - 1,stack,.leaving frame.hook⟩ with activeCallbacks := w.activeCallbacks - 1 }
  | _ => w

def World.leftObserve (w : World n) (t : Fin n) : World n :=
  match w.threads t with
  | ⟨depth,stack,.leaving h⟩ =>
    (w.setBinding h.binding ((w.bindings h.binding).leaveObserve h.id)).setThread t ⟨depth,stack,.idle⟩
  | _ => w

/-- `S2HookDispatchGuard` counts its entry before it looks at the lifecycle. -/
def World.dispatchEnter (w : World n) : World n :=
  { w with activeCallbacks := w.activeCallbacks + 1, constructing := w.constructing + 1 }

def World.dispatchDecide (w : World n) : World n :=
  if w.constructing = 0 then w
  else if w.lifecycle = .running then
    { w with constructing := w.constructing - 1, dispatchGuards := w.dispatchGuards + 1 }
  else { w with constructing := w.constructing - 1, activeCallbacks := w.activeCallbacks - 1 }

def World.dispatchReset (w : World n) : World n :=
  if w.dispatchGuards = 0 then w
  else { w with dispatchGuards := w.dispatchGuards - 1, activeCallbacks := w.activeCallbacks - 1 }

/-- `S2Hook_NoActiveDispatch`. -/
def World.noActiveDispatch (w : World n) (t : Fin n) : Bool :=
  (w.threads t).callbackDepth = 0 && w.activeCallbacks = 0

/-- `terminal` of `BeginRemove`, with the capsule of a valid permit. -/
def World.terminal (w : World n) (t : Fin n) (async : Bool) (permit : Option Nat) : Bool :=
  !async && permit.isSome && w.activeCallbacks = 1 &&
    match (w.threads t).observeStack with
    | [frame] => frame.capsule == permit
    | _ => false

/-- `BeginRemove` before its lock. -/
def World.beginRemove (w : World n) (t : Fin n) (b : Nat) (async : Bool) (permit : Option Nat) : World n :=
  if !async && !w.terminal t async permit && !w.noActiveDispatch t then w.stale
  else { w.stale with
    jobs := w.jobs ++ [.checked b async (if w.terminal t async permit then permit else none)] }

/-- `BeginRemove` under its lock. -/
def World.schedule (w : World n) (j : Nat) : World n :=
  match w.jobs[j]? with
  | some (.checked b async terminal) =>
    if !async && (w.bindings b).refusesSync terminal then { w.stale with jobs := w.jobs.eraseIdx j }
    else { w.stale with
      bindings := Function.update w.bindings b (w.bindings b).schedule
      jobs := w.jobs.set j (.removing b async (w.bindings b).toRemove none)
      scheduled := w.scheduled ++ (w.bindings b).toRemove.map fun id => (⟨b,id⟩,async) }
  | _ => w

/-- The loop of `BeginRemove` queues one of its ids for retirement. -/
def World.enqueue (w : World n) (j id : Nat) : World n :=
  match w.jobs[j]?,w.scan with
  | some (.removing b true toRemove none),none =>
    if id ∈ toRemove then { w.stale with
      retire := w.retire ++ [⟨b,id⟩]
      jobs := w.jobs.set j (.removing b true (toRemove.erase id) (some id)) }
    else w
  | _,_ => w

/-- The loop of `BeginRemove` calls `RemoveHook`. -/
def World.removeHook (w : World n) (j id : Nat) : World n :=
  match w.jobs[j]? with
  | some (.removing b true toRemove (some queued)) => { w.stale with
      calls := w.calls ++ [(⟨b,queued⟩,true)]
      jobs := w.jobs.set j (.removing b true toRemove none) }
  | some (.removing b false toRemove none) =>
    if id ∈ toRemove then { w.stale with
      calls := w.calls ++ [(⟨b,id⟩,false)]
      jobs := w.jobs.set j (.removing b false (toRemove.erase id) none) }
    else w
  | _ => w

/-- `BeginRemove` returns. -/
def World.returned (w : World n) (j : Nat) : World n :=
  match w.jobs[j]? with
  | some (.removing _ _ [] none) => { w with jobs := w.jobs.eraseIdx j }
  | _ => w

/-- The provider tells `OnRemoved` once of an id it was given. -/
def World.onRemoved (w : World n) (h : Hook) : World n :=
  if h ∈ w.calls.map Prod.fst ∧ h ∉ w.confirmed then
    { w.setBinding h.binding ((w.bindings h.binding).onRemoved h.id) with confirmed := w.confirmed ++ [h] }
  else w

/-- `S2Hook_DrainRetirement` before its lock. -/
def World.drainRetirement (w : World n) (t : Fin n) : World n :=
  if 0 < (w.threads t).callbackDepth ∨ 0 < w.activeCallbacks then { w with drained := some false }
  else { w with drainers := w.drainers + 1 }

def World.drainLock (w : World n) : World n :=
  match w.drainers,w.scan with
  | drainers + 1,none => { w with drainers, scan := some (.drain 0) }
  | _,_ => w

/-- `S2Hook_RetirementPending` takes the lock. -/
def World.pendingLock (w : World n) : World n :=
  match w.scan with
  | none => { w with scan := some (.pending 0 0) }
  | some _ => w

/-- Whether an id is not owned or `Removed`. -/
def World.gone (w : World n) (h : Hook) : Bool :=
  match w.record h with
  | none => true
  | some o => o.state = .removed

/-- Whether `RetirementPending` counts an entry. -/
def World.unfinished (w : World n) (h : Hook) : Bool :=
  match w.record h with
  | none => true
  | some o => o.state ≠ .removed

/-- The holder of the queue looks at its next entry, or returns. -/
def World.scanNext (w : World n) : World n :=
  match w.scan with
  | none => w
  | some (.drain i) =>
    match w.retire[i]? with
    | none => { w with scan := none, drained := some true }
    | some h =>
      if w.gone h then { w with retire := w.retire.eraseIdx i }
      else { w with scan := some (.drain (i + 1)) }
  | some (.pending i count) =>
    match w.retire[i]? with
    | none => { w with scan := none, pending := some count }
    | some h =>
      { w with scan := some (.pending (i + 1) (if w.unfinished h then count + 1 else count)) }

/-- `S2Hook_PruneCompletedBridgeTicket`. -/
def World.prune (w : World n) (h : Hook) : World n :=
  match w.scan,w.record h with
  | some _,_ => w
  | none,none => { w with retire := w.retire.filter (· ≠ h) }
  | none,some o =>
    if o.state ≠ .removed ∨ o.invocations ≠ 0 then w else { w with retire := w.retire.filter (· ≠ h) }

inductive Action (n : Nat) where
  | accept (b id : Nat) (capsule : Option Nat)
  | noteObserve (t : Fin n) (b : Nat) (id : Option Nat)
  | enterObserve (t : Fin n)
  | grantObserve (t : Fin n)
  | leaveObserve (t : Fin n)
  | leftObserve (t : Fin n)
  | dispatchEnter
  | dispatchDecide
  | dispatchReset
  | setLifecycle (lifecycle : HookLifecycle)
  | beginRemove (t : Fin n) (b : Nat) (async : Bool) (permit : Option Nat)
  | schedule (j : Nat)
  | enqueue (j id : Nat)
  | removeHook (j id : Nat)
  | returned (j : Nat)
  | onRemoved (h : Hook)
  | drainRetirement (t : Fin n)
  | drainLock
  | pendingLock
  | scanNext
  | prune (h : Hook)

/-- One step. A step whose thread, job or lock is not ready for it does nothing. -/
def World.step (w : World n) : Action n → World n
  | .accept b id capsule => w.accept b id capsule
  | .noteObserve t b id => w.noteObserve t b id
  | .enterObserve t => w.enterObserve t
  | .grantObserve t => w.grantObserve t
  | .leaveObserve t => w.leaveObserve t
  | .leftObserve t => w.leftObserve t
  | .dispatchEnter => w.dispatchEnter
  | .dispatchDecide => w.dispatchDecide
  | .dispatchReset => w.dispatchReset
  | .setLifecycle lifecycle => { w with lifecycle }
  | .beginRemove t b async permit => w.beginRemove t b async permit
  | .schedule j => w.schedule j
  | .enqueue j id => w.enqueue j id
  | .removeHook j id => w.removeHook j id
  | .returned j => w.returned j
  | .onRemoved h => w.onRemoved h
  | .drainRetirement t => w.drainRetirement t
  | .drainLock => w.drainLock
  | .pendingLock => w.pendingLock
  | .scanNext => w.scanNext
  | .prune h => w.prune h

def run : List (Action n) → World n → World n
  | [], w => w
  | action :: actions, w => run actions (w.step action)

end S2Script.KhookBinding
