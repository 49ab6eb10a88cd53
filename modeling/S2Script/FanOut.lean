import S2Script.Liveness
import S2Script.Multiplexer

/-! The two fan-outs of one dispatch: the Rust loop over a snapshot, and the
multiplexer's JavaScript loop over the rows pushed for that snapshot. Handlers are
state transformers that may throw, return any value and unload plugins. -/
namespace S2Script.FanOut

open Liveness Multiplexer

/-- A JavaScript number. Every finite double is a rational. -/
inductive JsNumber where
  | nan
  | infinity (negative : Bool)
  | finite (value : ℚ)

/-- `ToUint32`: truncation toward zero, modulo `2^32`. -/
def JsNumber.toUint32 : JsNumber → Nat
  | .nan => 0
  | .infinity _ => 0
  | .finite value => ((if 0 ≤ value then value.floor else value.ceil) % 2 ^ 32).toNat

/-- A handler's return as the dispatchers tell values apart. `other` is anything
else: its conversion to a number runs code and may throw. -/
inductive JsValue (O : Type) where
  | undefined
  | number (value : JsNumber)
  | other (object : O)

/-- The isolate: `call` applies a handler to its payload. Running code changes the
world, of which only the host's books are fixed here. -/
structure Engine (σ O P H : Type) where
  host : σ → Host
  call : P → H → σ → Except Unit (JsValue O) × σ
  toNumber : O → σ → Except Unit JsNumber × σ
  call_unloads : ∀ payload handler world,
    (host world).Unloads (host (call payload handler world).2)
  toNumber_unloads : ∀ object world, (host world).Unloads (host (toNumber object world).2)

namespace Engine

variable (engine : Engine σ O P H)

/-- `ToUint32` of any value, as V8's `uint32_value` and the operator `>>> 0` do it. -/
def toUint32 : JsValue O → σ → Except Unit Nat × σ
  | .undefined, world => (.ok 0,world)
  | .number value, world => (.ok value.toUint32,world)
  | .other object, world =>
    let (value,world) := engine.toNumber object world
    (value.map JsNumber.toUint32,world)

def ownerIsLive (owner : String) (generation : Nat) (world : σ) : Bool :=
  (engine.host world).registry.isLive owner generation

/-- The same isolate with the invocations written down, oldest first. -/
def logged : Engine (σ × List (P × H)) O P H where
  host world := engine.host world.1
  call payload handler world :=
    let (answer,after) := engine.call payload handler world.1
    (answer,(after,world.2 ++ [(payload,handler)]))
  toNumber object world :=
    let (answer,after) := engine.toNumber object world.1
    (answer,(after,world.2))
  call_unloads payload handler world := engine.call_unloads payload handler world.1
  toNumber_unloads object world := engine.toNumber_unloads object world.1

end Engine

/-- How far a return value truncates the chain. -/
inductive StopAt where
  | never | stop | handled
  deriving DecidableEq, Repr

def StopAt.truncated : StopAt → HookResult → Bool
  | .never, _ => false
  | .stop, result => decide (result = .stop)
  | .handled, result => decide (.handled ≤ result)

/-- `hook_result`, and the match of the Rust loops on `uint32_value`. -/
def hookResult : Nat → HookResult
  | 1 => .changed
  | 2 => .handled
  | 3 => .stop
  | _ => .continue

section Rust

variable (engine : Engine σ O P H)

/-- The Rust subscriber loop. `buildArgs` gives the arguments built in the owner's
own realm. -/
def fanOutCallSubscribers (buildArgs : String → P) (stopAt : StopAt) :
    List (String × Nat × H) → HookResult → σ → HookResult × σ
  | [], result, world => (result,world)
  | (owner,generation,handler) :: rest, result, world =>
    if stopAt ≠ .never ∧ stopAt.truncated result then (result,world)
    else if !engine.ownerIsLive owner generation world then
      fanOutCallSubscribers buildArgs stopAt rest result world
    else if !(engine.host world).plugins owner then
      fanOutCallSubscribers buildArgs stopAt rest result world
    else match engine.call (buildArgs owner) handler world with
      | (.error _,world) => fanOutCallSubscribers buildArgs stopAt rest result world
      | (.ok (.number value),world) =>
        if stopAt ≠ .never then
          let r := hookResult value.toUint32
          fanOutCallSubscribers buildArgs stopAt rest (if result < r then r else result) world
        else fanOutCallSubscribers buildArgs stopAt rest result world
      | (.ok _,world) => fanOutCallSubscribers buildArgs stopAt rest result world

def fanOut (buildArgs : String → P) (stopAt : StopAt) (snapshot : List (String × Nat × H))
    (world : σ) : HookResult × σ :=
  fanOutCallSubscribers engine buildArgs stopAt snapshot .continue world

/-- The closure `dispatch_onframe` hands to `run_chain`: an owner without a
context is skipped as `Continue`, and only a throw is an error. -/
def invokeFrame (frameCtx : String → P) (handler : String × H) (world : σ) :
    Except Unit HookResult × σ :=
  if !(engine.host world).plugins handler.1 then (.ok .continue,world)
  else match engine.call (frameCtx handler.1) handler.2 world with
    | (.error _,world) => (.error (),world)
    | (.ok .undefined,world) => (.ok .continue,world)
    | (.ok value,world) =>
      let (answer,world) := engine.toUint32 value world
      (.ok (hookResult (answer.toOption.getD 0)),world)

/-- The frame chain over a `Descriptor` snapshot. -/
def frameChain (frameCtx : String → P) (snapshot : List (Nat × Priority × String × H))
    (world : σ) : (HookResult × List Nat) × σ :=
  runChain snapshot (invokeFrame engine frameCtx) world

end Rust

/-- A subscriber as the multiplexer holds it. A slot of `-1` is an owner the
registry has never seen; `ctor` is `null` where no payload maker was found. -/
structure Row (P H : Type) where
  slot : Int
  generation : Nat
  handler : H
  ctor : Option P
  id : Nat
  monitor : Bool

/-- The slot number `sync` writes for an owner. -/
def ownerSlot (host : Host) (owner : String) : Int :=
  match host.registry.slotOf owner with
  | some slot => slot
  | none => -1

/-- One row of a `ChannelStore`; `make` finds the owner's payload class. -/
def channelRow (host : Host) (make : String → Option P) (subscriber : String × Nat × H) :
    Row P H where
  slot := ownerSlot host subscriber.1
  generation := subscriber.2.1
  handler := subscriber.2.2
  ctor := make subscriber.1
  id := 0
  monitor := false

/-- One row of a `FrameSource`: stamped with the owner's current generation, with
a context factory when the owner has a context to compile it in. -/
def frameRow (host : Host) (frameCtx : String → P)
    (subscriber : Nat × Priority × String × H) : Row P H where
  slot := ownerSlot host subscriber.2.2.1
  generation := (host.registry.generationOf subscriber.2.2.1).getD 0
  handler := subscriber.2.2.2
  ctor := if host.plugins subscriber.2.2.1 then some (frameCtx subscriber.2.2.1) else none
  id := subscriber.1
  monitor := decide (subscriber.2.1 = .monitor)

/-- `enter`: one exactly when the slot is loaded at that generation. -/
def enter (host : Host) (slot : Int) (generation : Nat) : Nat :=
  if 0 ≤ slot then
    if (host.registry.liveAt slot.toNat generation).isSome then 1 else 0
  else 0

def StopAt.code : StopAt → Nat
  | .never => 0
  | .stop => 1
  | .handled => 2

/-- What `frame` returns: a number, or `[result, ...ids]`. -/
inductive FrameReturn where
  | number (result : Nat)
  | array (elements : List Nat)

section JavaScript

variable (engine : Engine σ O P H)

/-- The loop of `mux.js` `dispatch`; `shared` are the arguments of a channel
without payload classes. -/
def dispatchLoop (shared : P) (stopAt : Nat) : List (Row P H) → Nat → σ → Nat × σ
  | [], result, world => (result,world)
  | s :: rest, result, world =>
    if (if stopAt = 1 then result = 3 else stopAt = 2 ∧ 2 ≤ result) then (result,world)
    else if enter (engine.host world) s.slot s.generation = 0 then
      dispatchLoop shared stopAt rest result world
    else match engine.call (s.ctor.getD shared) s.handler world with
      | (.error _,world) => dispatchLoop shared stopAt rest result world
      | (.ok (.number ret),world) =>
        if stopAt ≠ 0 then
          let r := ret.toUint32
          let r := if 3 < r then 0 else r
          dispatchLoop shared stopAt rest (if result < r then r else result) world
        else dispatchLoop shared stopAt rest result world
      | (.ok _,world) => dispatchLoop shared stopAt rest result world

/-- `dispatch` and the reading of its return in `Job::run`. -/
def dispatch (shared : P) (stopAt : StopAt) (rows : List (Row P H)) (world : σ) :
    HookResult × σ :=
  let (result,world) := dispatchLoop engine shared stopAt.code rows 0 world
  (hookResult result,world)

/-- The value `frame` computes from a handler's return. -/
def frameResult (ret : JsValue O) (world : σ) : Nat × σ :=
  match ret with
  | .undefined => (0,world)
  | ret =>
    let (answer,world) := engine.toUint32 ret world
    let r := match answer with
      | .ok r => r
      | .error _ => 0
    (if 3 < r then 0 else r,world)

/-- The loop of `mux.js` `frame`; `errored` is `null` until a handler throws. -/
def frameLoop : List (Row P H) → Nat → Bool → Option (List Nat) → σ → FrameReturn × σ
  | [], result, _, errored, world =>
    (match errored with
      | none => .number result
      | some ids => .array (result :: ids),world)
  | s :: rest, result, stopped, errored, world =>
    if stopped && !s.monitor then frameLoop rest result stopped errored world
    else match s.ctor with
      | none => frameLoop rest result stopped errored world
      | some ctor =>
        if enter (engine.host world) s.slot s.generation = 0 then
          frameLoop rest result stopped errored world
        else match engine.call ctor s.handler world with
          | (.error _,world) =>
            frameLoop rest result stopped (some (errored.getD [] ++ [s.id])) world
          | (.ok ret,world) =>
            let (r,world) := frameResult engine ret world
            if s.monitor then frameLoop rest result stopped errored world
            else frameLoop rest (if result < r then r else result)
              (if r = 3 then true else stopped) errored world

/-- The reading of `frame`'s return in `Job::run`. -/
def FrameReturn.outcome : FrameReturn → HookResult × List Nat
  | .number result => (hookResult result,[])
  | .array [] => (hookResult 0,[])
  | .array (result :: ids) => (hookResult result,ids)

def frame (rows : List (Row P H)) (world : σ) : (HookResult × List Nat) × σ :=
  let (ret,world) := frameLoop engine rows 0 false none world
  (ret.outcome,world)

end JavaScript

@[simp] theorem hookResult_code (result : HookResult) : hookResult result.code = result := by
  cases result <;> rfl

/-- Clamping a number above three to zero does not change what it is read as. -/
theorem code_hookResult (r : Nat) : (hookResult r).code = if 3 < r then 0 else r := by
  match r with
  | 0 | 1 | 2 | 3 => rfl
  | r + 4 => simp [hookResult,HookResult.code]

theorem code_lt_code (first second : HookResult) :
    first.code < second.code ↔ first < second := Iff.rfl

theorem code_max (result r : HookResult) :
    (if result.code < r.code then r.code else result.code) =
      (if result < r then r else result).code := by
  simp only [code_lt_code]
  split <;> rfl

/-- The two truncation tests, made before a subscriber on both sides. -/
theorem truncates_iff (stopAt : StopAt) (result : HookResult) :
    (if stopAt.code = 1 then result.code = 3 else stopAt.code = 2 ∧ 2 ≤ result.code) ↔
      stopAt ≠ .never ∧ stopAt.truncated result := by
  cases stopAt <;> cases result <;> decide

theorem StopAt.code_ne_zero (stopAt : StopAt) : stopAt.code ≠ 0 ↔ stopAt ≠ .never := by
  cases stopAt <;> decide

section Liveness

variable {start now : Host}

theorem enter_ownerSlot (unloads : start.Unloads now) (owner : String) (generation : Nat) :
    enter now (ownerSlot start owner) generation =
      if now.registry.isLive owner generation then 1 else 0 := by
  have index := unloads.slotIndex
  cases found : start.registry.slotIndex owner with
  | some slot =>
    have current : now.registry.slotIndex owner = some slot := by rw [index,found]
    simp [enter,ownerSlot,Registry.slotOf,found,now.coherent.liveAt_slot current]
  | none =>
    have absent : now.registry.table.idOf owner = none := by
      cases entry : now.registry.table.idOf owner with
      | none => rfl
      | some current =>
        have slotted := now.coherent.registered entry
        simp [index,found] at slotted
    simp [enter,ownerSlot,Registry.slotOf,found,Registry.isLive,LiveTable.isLive,absent]

/-- The Rust loop also asks for the owner's context; a live owner has one. -/
theorem Host.live_has_context {owner : String} {generation : Nat}
    (live : now.registry.isLive owner generation = true) : now.plugins owner = true := by
  have entry : now.registry.table.idOf owner = some generation := by
    simpa [Registry.isLive,LiveTable.isLive] using live
  simp [now.contexts,entry]

/-- A frame row reaches its handler exactly when the owner still has a context:
nothing was loaded since the row was stamped. -/
theorem frame_row_enters (unloads : start.Unloads now) (owner : String) :
    (start.plugins owner = true ∧ enter now (ownerSlot start owner)
      ((start.registry.generationOf owner).getD 0) ≠ 0) ↔ now.plugins owner = true := by
  simp only [enter_ownerSlot unloads,start.contexts,now.contexts,Registry.isLive,
    LiveTable.isLive,Registry.generationOf]
  by_cases current : ∃ generation, now.registry.table.idOf owner = some generation
  · obtain ⟨generation,current⟩ := current
    simp [current,unloads.entry current]
  · have absent : now.registry.table.idOf owner = none := by
      simpa [Option.eq_none_iff_forall_ne_some] using current
    simp [absent]

end Liveness

section Agreement

variable (engine : Engine σ O P H)

theorem Engine.toUint32_unloads (value : JsValue O) (world : σ) :
    (engine.host world).Unloads (engine.host (engine.toUint32 value world).2) := by
  cases value with
  | undefined => exact .refl
  | number value => exact .refl
  | other object => exact engine.toNumber_unloads object world

/-- From the same collapsed result and world, both loops run to the same end. -/
theorem dispatchLoop_eq (make : String → Option P) (shared : P) (stopAt : StopAt) (start : Host)
    (snapshot : List (String × Nat × H)) (result : HookResult) (world : σ)
    (unloads : start.Unloads (engine.host world)) :
    dispatchLoop engine shared stopAt.code (snapshot.map (channelRow start make))
        result.code world =
      Prod.map HookResult.code id (fanOutCallSubscribers engine
        (fun owner => (make owner).getD shared) stopAt snapshot result world) := by
  induction snapshot generalizing result world with
  | nil => rfl
  | cons subscriber rest previous =>
    obtain ⟨owner,generation,handler⟩ := subscriber
    simp only [List.map_cons,dispatchLoop,fanOutCallSubscribers,truncates_iff]
    by_cases truncated : stopAt ≠ .never ∧ stopAt.truncated result
    · simp [truncated]
    simp only [truncated,if_false,channelRow,enter_ownerSlot unloads,Engine.ownerIsLive]
    by_cases live : (engine.host world).registry.isLive owner generation = true
    · have context := Host.live_has_context live
      have later := unloads.trans
        (engine.call_unloads ((make owner).getD shared) handler world)
      simp only [live,context,if_true,Bool.not_true,Bool.false_eq_true,if_false,one_ne_zero]
      -- the answer decides the rest of both loops alike; only a number is read
      rcases answer : engine.call ((make owner).getD shared) handler world with ⟨ret,after⟩
      rw [answer] at later
      match ret with
      | .error _ => exact previous result after later
      | .ok .undefined => exact previous result after later
      | .ok (.other _) => exact previous result after later
      | .ok (.number value) =>
        simp only [stopAt.code_ne_zero]
        by_cases reads : stopAt ≠ .never
        · simp only [reads,ne_eq,not_false_eq_true,if_true,← code_hookResult,code_max]
          exact previous _ after later
        · simpa [reads] using previous result after later
    · simpa [live] using previous result world unloads

theorem frameResult_eq (ret : JsValue O) (world : σ) :
    frameResult engine ret world =
      ((hookResult ((engine.toUint32 ret world).1.toOption.getD 0)).code,
        (engine.toUint32 ret world).2) := by
  cases ret with
  | undefined => rfl
  | number value =>
    rw [code_hookResult]
    rfl
  | other object =>
    rw [code_hookResult]
    rcases answer : engine.toNumber object world with ⟨value,after⟩
    cases value <;> simp [frameResult,Engine.toUint32,answer,Except.map,Except.toOption]

theorem invokeFrame_returned {frameCtx : String → P} {owner : String} {handler : H}
    {world after : σ} {ret : JsValue O}
    (context : (engine.host world).plugins owner = true)
    (answer : engine.call (frameCtx owner) handler world = (.ok ret,after)) :
    invokeFrame engine frameCtx (owner,handler) world =
      (.ok (hookResult ((engine.toUint32 ret after).1.toOption.getD 0)),
        (engine.toUint32 ret after).2) := by
  cases ret <;> simp [invokeFrame,context,answer,Engine.toUint32,hookResult,Except.toOption]

/-- The JavaScript accumulator of errored ids, `null` while empty. -/
def erroredArray : List Nat → Option (List Nat)
  | [] => none
  | id :: ids => some (id :: ids)

theorem erroredArray_append (errored : List Nat) (id : Nat) :
    some ((erroredArray errored).getD [] ++ [id]) = erroredArray (errored ++ [id]) := by
  cases errored <;> rfl

theorem not_lt_continue (result : HookResult) : ¬result < .continue := by
  cases result <;> decide

theorem code_eq_three (result : HookResult) : result.code = 3 ↔ result = .stop := by
  cases result <;> decide

theorem frameLoop_eq (frameCtx : String → P) (start : Host)
    (snapshot : List (Nat × Priority × String × H)) (result : HookResult) (stopped : Bool)
    (errored : List Nat) (world : σ) (unloads : start.Unloads (engine.host world)) :
    Prod.map FrameReturn.outcome id (frameLoop engine (snapshot.map (frameRow start frameCtx))
        result.code stopped (erroredArray errored) world) =
      runChainFrom (invokeFrame engine frameCtx) snapshot result stopped errored world := by
  induction snapshot generalizing result stopped errored world with
  | nil => cases errored <;> simp [frameLoop,runChainFrom,erroredArray,FrameReturn.outcome]
  | cons subscriber rest previous =>
    obtain ⟨id,priority,owner,handler⟩ := subscriber
    simp only [List.map_cons,frameLoop,runChainFrom,frameRow,Bool.and_comm stopped]
    by_cases skipped : (!decide (priority = .monitor) && stopped) = true
    · simpa [skipped] using previous result stopped errored world unloads
    simp only [skipped,Bool.false_eq_true,if_false]
    have enters := frame_row_enters unloads owner
    by_cases context : (engine.host world).plugins owner = true
    · obtain ⟨stamped,entered⟩ := enters.mpr context
      have later := unloads.trans (engine.call_unloads (frameCtx owner) handler world)
      simp only [stamped,if_true,entered,if_false]
      rcases answer : engine.call (frameCtx owner) handler world with ⟨ret,after⟩
      rw [answer] at later
      match ret with
      | .error _ =>
        have threw : invokeFrame engine frameCtx (owner,handler) world = (.error (),after) := by
          simp [invokeFrame,context,answer]
        simp only [threw,erroredArray_append]
        exact previous result stopped (errored ++ [id]) after later
      | .ok ret =>
        have settled := later.trans (engine.toUint32_unloads ret after)
        simp only [invokeFrame_returned engine context answer,frameResult_eq]
        by_cases monitor : priority = .monitor
        · simpa [monitor] using previous result stopped errored _ settled
        · simp only [monitor,decide_false,Bool.false_eq_true,if_false,code_max,code_eq_three]
          exact previous _ _ errored _ settled
    · -- Rust asks the chain for a `Continue`; the row is skipped for want of a factory or at `enter`
      have skips : invokeFrame engine frameCtx (owner,handler) world = (.ok .continue,world) := by
        simp [invokeFrame,context]
      have nothing := previous result stopped errored world unloads
      have chain : (if decide (priority = .monitor) = true then
          runChainFrom (invokeFrame engine frameCtx) rest result stopped errored world
        else runChainFrom (invokeFrame engine frameCtx) rest
          (if result < .continue then .continue else result)
          (if HookResult.continue = .stop then true else stopped) errored world) =
          runChainFrom (invokeFrame engine frameCtx) rest result stopped errored world := by
        simp [not_lt_continue]
      simp only [skips,chain]
      by_cases stamped : start.plugins owner = true
      · have unentered := fun entered => context (enters.mp ⟨stamped,entered⟩)
        simpa [stamped,not_not.mp unentered] using nothing
      · simpa [stamped] using nothing

end Agreement

end S2Script.FanOut
