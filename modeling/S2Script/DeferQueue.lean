import Mathlib

/-! The shim's deferred-dispatch queue. A replay runs arbitrary code, so a drain is in progress
between two actions: `walks` holds what the drains on the stack keep there. -/
namespace S2Script.DeferQueue

/-- `kDeferredQueueMax`. -/
def deferredQueueMax : Nat := 256

inductive DeferredKind where
  | gameEvent
  | clientEvent
  | mapStart
  | entityEvent
  | cvarChange
deriving DecidableEq, Repr

structure ClientIdentity where
  userId : Int
  signon : Int
  steamId : Option String
  name : Option String
  address : Option String

/-- `S2Deferred`. A duplicate is named by its mint; `serial` numbers the accepted entries. -/
structure Deferred where
  kind : DeferredKind
  a : String
  b : String
  c : String
  i : Int
  token : Nat
  hasIdentity : Bool
  userId : Int
  signon : Int
  steamId : String
  clientName : String
  address : String
  dup : Option Nat
  serial : Nat

def Deferred.default (serial : Nat) : Deferred :=
  ⟨.gameEvent,"","","",0,0,false,-1,-1,"","","",none,serial⟩

/-- What happened, the newest first in a log. -/
inductive Event where
  | accepted (serial : Nat)
  | started
  | replayed (serial : Nat)
  | flushed
  | unwound
  | freed (dup : Nat)
deriving DecidableEq, Repr

/-- The stack of a drain inside a replay: its index and the entry it took off the batch. -/
structure Walk where
  i : Nat
  e : Deferred

structure Queue where
  queue : List Deferred
  batch : List Deferred
  draining : Bool
  abandoned : Bool
  walks : List Walk
  minted : Nat
  next : Nat
  log : List Event

def Queue.new : Queue := ⟨[],[],false,false,[],0,0,[]⟩

/-- The duplicates a buffer owns. -/
def dups (l : List Deferred) : List Nat := l.filterMap Deferred.dup

/-- `FreeDup` of each of these. -/
def Queue.free (q : Queue) (owned : List Nat) : Queue :=
  { q with log := (owned.map Event.freed).reverse ++ q.log }

/-- `ClearBuffer(s_queue)`. -/
def Queue.clearQueue (q : Queue) : Queue := { q.free (dups q.queue) with queue := [] }

/-- `ClearBuffer(s_batch)`. -/
def Queue.clearBatch (q : Queue) : Queue := { q.free (dups q.batch) with batch := [] }

/-- `push_back` of an entry that was given its serial. -/
def Queue.push (q : Queue) (e : Deferred) : Queue :=
  { q with queue := q.queue ++ [e], next := q.next + 1, log := .accepted e.serial :: q.log }

def Queue.pushScalar (q : Queue) (kind : DeferredKind) (a b c : Option String) (i : Int) : Queue :=
  if deferredQueueMax ≤ q.queue.length then q
  else q.push { Deferred.default q.next with kind, a := a.getD "", b := b.getD "", c := c.getD "", i }

def Queue.pushClient (q : Queue) (name : Option String) (slot : Int) (token : Nat)
    (identity : Option ClientIdentity) : Queue :=
  if deferredQueueMax ≤ q.queue.length then q
  else
    let e := { Deferred.default q.next with kind := .clientEvent, a := name.getD "", i := slot, token }
    q.push (match identity with
      | none => e
      | some who => { e with
          hasIdentity := true
          userId := who.userId
          signon := who.signon
          steamId := who.steamId.getD "0"
          clientName := who.name.getD ""
          address := who.address.getD "" })

/-- `duplicated` says whether `duplicate_event` returned a copy. -/
def Queue.pushGameEvent (q : Queue) (name : Option String) (duplicated : Bool) : Queue :=
  match name with
  | none => q
  | some name =>
    if deferredQueueMax ≤ q.queue.length then q
    else if duplicated then
      { q with minted := q.minted + 1 }.push { Deferred.default q.next with a := name, dup := some q.minted }
    else q

/-- The end of `S2Defer_Drain` after its loop. -/
def Queue.leave (q : Queue) : Queue := { q with draining := false }.clearBatch

/-- The head of the drain's loop: up to the next replay, or out. -/
def Queue.walk (q : Queue) (i : Nat) : Queue :=
  match q.batch[i]? with
  | none => q.leave
  | some e =>
    if q.abandoned then q.leave
    else { q with
      batch := q.batch.set i { e with dup := none }
      walks := ⟨i,e⟩ :: q.walks
      log := .replayed e.serial :: q.log }

/-- `S2Defer_Drain` up to its first replay. -/
def Queue.drain (q : Queue) : Queue :=
  if q.draining then q
  else if q.queue = [] then q.clearBatch
  else Queue.walk { q.clearBatch with
    batch := q.queue
    queue := []
    draining := true
    abandoned := false
    log := .started :: q.clearBatch.log } 0

inductive Outcome where
  | returned
  | deferred
  | unwound
deriving DecidableEq, Repr

/-- The innermost replay ends. An unwound one leaves the loop without its trailing clear. -/
def Queue.finish (q : Queue) (outcome : Outcome) : Queue :=
  match q.walks with
  | [] => q
  | ⟨i,e⟩ :: walks =>
    let q := { q with walks }.free e.dup.toList
    match outcome with
    | .unwound => { q with draining := false, log := .unwound :: q.log }
    | _ => q.walk (i + 1)

def Queue.flush (q : Queue) : Queue :=
  let q := Queue.clearQueue { q with log := .flushed :: q.log }
  if q.draining then { q with abandoned := true } else q.clearBatch

inductive Call where
  | pushScalar (kind : DeferredKind) (a b c : Option String) (i : Int)
  | pushClient (name : Option String) (slot : Int) (token : Nat) (identity : Option ClientIdentity)
  | pushGameEvent (name : Option String) (duplicated : Bool)
  | drain
  | flush

inductive Action where
  | call (call : Call)
  | finish (outcome : Outcome)

def Queue.call (q : Queue) : Call → Queue
  | .pushScalar kind a b c i => q.pushScalar kind a b c i
  | .pushClient name slot token identity => q.pushClient name slot token identity
  | .pushGameEvent name duplicated => q.pushGameEvent name duplicated
  | .drain => q.drain
  | .flush => q.flush

/-- A call from wherever control is, inside a replay or not, or the end of the innermost replay. -/
def Queue.step (q : Queue) : Action → Queue
  | .call call => q.call call
  | .finish outcome => q.finish outcome

def run : List Action → Queue → Queue
  | [], q => q
  | action :: actions, q => run actions (q.step action)

end S2Script.DeferQueue
