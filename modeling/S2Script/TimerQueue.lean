import S2Script.IndexedHeap

/-! The indexed timer queue: deadlines in an indexed heap, frame targets in buckets,
parked entries in a ready map, and two indexes over all of them. An instant is any
linear order. -/
namespace S2Script

open IndexedHeap

inductive TimerKind (τ : Type) where
  | deadline (target : τ)
  | frame (target : Nat)

structure DeadlineEntry (τ : Type) where
  id : Nat
  sequence : Nat
  target : τ

inductive IdSequences where
  | one (sequence : Nat)
  | many (sequences : Std.TreeSet Nat)

inductive EntryLocation where
  | deadline (index : Nat)
  | frame (target : Nat)
  | ready

structure TimerQueue (τ : Type) [LinearOrder τ] where
  deadlineHeap : Array (DeadlineEntry τ)
  deadlineTargets : Std.TreeMap τ Nat
  frameBuckets : Std.TreeMap Nat (Std.TreeMap Nat Nat)
  ready : Std.TreeMap Nat Nat
  idSequences : Std.HashMap Nat IdSequences
  locations : Std.HashMap Nat EntryLocation
  nextSequence : Nat

namespace TimerQueue

/-- The panics of the source: its `expect`s, its debug assertions and its index accesses. -/
inductive Fault where
  | sequenceExhausted
  | idIndexDiverged
  | missingFrameBucket
  | frameBucketDisappeared
  | heapUnexpectedlyEmpty
  | targetIndexDiverged
  | indexOutOfBounds
  | subtractionOverflow
  | assertionFailed
deriving DecidableEq, Repr

def expect {α : Type} (value : Option α) (fault : Fault) : Except Fault α :=
  match value with
  | some a => .ok a
  | none => .error fault

/-- `BTreeMap::pop_first`. -/
def popFirst {κ β : Type} [LinearOrder κ] (m : Std.TreeMap κ β) : Option (κ × β × Std.TreeMap κ β) := do
  let k ← m.minKey?
  let v ← m[k]?
  pure (k,v,m.erase k)

variable {τ : Type} [LinearOrder τ]

def new : TimerQueue τ := ⟨#[],∅,∅,∅,∅,∅,0⟩

def len (q : TimerQueue τ) : Nat := q.locations.size

/-- The order of the heap, `(deadline, insertion sequence)`. -/
def rank (e : DeadlineEntry τ) : τ ×ₗ Nat := toLex (e.target,e.sequence)

abbrev Deadlines (τ : Type) := Indexed (DeadlineEntry τ) Nat EntryLocation

def deadlines (q : TimerQueue τ) : Deadlines τ := ⟨q.deadlineHeap,q.locations⟩

def withDeadlines (q : TimerQueue τ) (h : Deadlines τ) : TimerQueue τ :=
  { q with deadlineHeap := h.heap, locations := h.places }

def siftDeadlineUp (q : TimerQueue τ) (index : Nat) : Except Fault (TimerQueue τ) := do
  let h ← expect (q.deadlines.siftUp rank DeadlineEntry.sequence .deadline index) .indexOutOfBounds
  pure (q.withDeadlines h)

/-- One more sequence under an id. -/
def linkIdSequence (ids : Std.HashMap Nat IdSequences) (id sequence : Nat) : Std.HashMap Nat IdSequences :=
  match ids[id]? with
  | none => ids.insert id (.one sequence)
  | some (.one first) => ids.insert id (.many ((∅ : Std.TreeSet Nat).insert first |>.insert sequence))
  | some (.many sequences) => ids.insert id (.many (sequences.insert sequence))

def push (q : TimerQueue τ) (id : Nat) (kind : TimerKind τ) : Except Fault (TimerQueue τ) :=
  let sequence := q.nextSequence
  if sequence + 1 < 2 ^ 64 then
    let q := { q with nextSequence := sequence + 1, idSequences := linkIdSequence q.idSequences id sequence }
    match kind with
    | .deadline target =>
      let index := q.deadlineHeap.size
      siftDeadlineUp { q with
        deadlineHeap := q.deadlineHeap.push ⟨id,sequence,target⟩
        deadlineTargets := q.deadlineTargets.insert target ((q.deadlineTargets[target]?).getD 0 + 1)
        locations := q.locations.insert sequence (.deadline index) } index
    | .frame target =>
      .ok { q with
        frameBuckets := q.frameBuckets.insert target (((q.frameBuckets[target]?).getD ∅).insert sequence id)
        locations := q.locations.insert sequence (.frame target) }
  else .error .sequenceExhausted

def removeDeadlineAt (q : TimerQueue τ) (index : Nat) : Except Fault (TimerQueue τ × DeadlineEntry τ) := do
  let (h,removed) ← expect (q.deadlines.detach DeadlineEntry.sequence .deadline index) .heapUnexpectedlyEmpty
  let count ← expect q.deadlineTargets[removed.target]? .targetIndexDiverged
  let count ← expect (if count = 0 then none else some (count - 1)) .subtractionOverflow
  let targets := if count = 0 then q.deadlineTargets.erase removed.target
    else q.deadlineTargets.insert removed.target count
  let h ← expect (h.settle rank DeadlineEntry.sequence .deadline index) .indexOutOfBounds
  pure ({ q with deadlineHeap := h.heap, locations := h.places, deadlineTargets := targets },removed)

def removeFromLocation (q : TimerQueue τ) (sequence : Nat) : EntryLocation → Except Fault (TimerQueue τ)
  | .deadline index => do
    let (q,removed) ← q.removeDeadlineAt index
    if removed.sequence = sequence then pure q else .error .assertionFailed
  | .frame target => do
    let bucket ← expect q.frameBuckets[target]? .missingFrameBucket
    let bucket := bucket.erase sequence
    pure { q with
      frameBuckets := if bucket.isEmpty then q.frameBuckets.erase target else q.frameBuckets.insert target bucket
      locations := q.locations.erase sequence }
  | .ready => pure { q with ready := q.ready.erase sequence, locations := q.locations.erase sequence }

def removeSequences : List Nat → TimerQueue τ → Except Fault (TimerQueue τ)
  | [], q => pure q
  | sequence :: rest, q => do
    let location ← expect q.locations[sequence]? .idIndexDiverged
    let q ← q.removeFromLocation sequence location
    removeSequences rest q

def remove (q : TimerQueue τ) (id : Nat) : Except Fault (TimerQueue τ × Bool) :=
  match q.idSequences[id]? with
  | none => pure (q,false)
  | some sequences => do
    let q := { q with idSequences := q.idSequences.erase id }
    let q ← match sequences with
      | .one sequence => removeSequences [sequence] q
      | .many sequences => removeSequences sequences.toList q
    pure (q,true)

def unlinkIdSequence (q : TimerQueue τ) (id sequence : Nat) : Except Fault (TimerQueue τ) :=
  match q.idSequences[id]? with
  | none => pure q
  | some (.one only) =>
    if only = sequence then pure { q with idSequences := q.idSequences.erase id } else .error .assertionFailed
  | some (.many sequences) =>
    if (sequences.erase sequence).isEmpty then pure { q with idSequences := q.idSequences.erase id }
    else pure { q with idSequences := q.idSequences.insert id (.many (sequences.erase sequence)) }

theorem bind_ok {α β : Type} {x : Except Fault α} {f : α → Except Fault β} {b : β} :
    (x >>= f) = .ok b ↔ ∃ a, x = .ok a ∧ f a = .ok b := by
  cases x <;> simp [bind,Except.bind]

theorem expect_ok {α : Type} {value : Option α} {fault : Fault} {a : α} :
    expect value fault = .ok a ↔ value = some a := by
  cases value <;> simp [expect]

theorem removeDeadlineAt_size {q q' : TimerQueue τ} {index : Nat} {removed : DeadlineEntry τ}
    (run : q.removeDeadlineAt index = .ok (q',removed)) : q'.deadlineHeap.size < q.deadlineHeap.size := by
  simp only [removeDeadlineAt,bind_ok,expect_ok] at run
  obtain ⟨⟨h,e⟩,detached,_,_,_,_,h',settled,run⟩ := run
  cases run
  have less := Indexed.detach_size _ _ detached
  have same := Indexed.settle_size _ _ _ settled
  exact same ▸ less

/-- The loop of `take_due_deadlines`: the earliest deadline, while it is due. -/
def takeEarliest (now : τ) (q : TimerQueue τ) (due : List (DeadlineEntry τ)) :
    Except Fault (TimerQueue τ × List (DeadlineEntry τ)) :=
  match q.deadlineHeap[0]? with
  | none => .ok (q,due)
  | some entry =>
    if now < entry.target then .ok (q,due)
    else match _run : q.removeDeadlineAt 0 with
      | .ok (q',removed) => takeEarliest now q' (due ++ [removed])
      | .error fault => .error fault
termination_by q.deadlineHeap.size
decreasing_by exact removeDeadlineAt_size _run

def takeDueDeadlines (q : TimerQueue τ) (now : τ) : Except Fault (TimerQueue τ × List (DeadlineEntry τ)) :=
  match q.deadlineTargets.maxKey? with
  | some target =>
    if target ≤ now then .ok ({ q with deadlineTargets := ∅, deadlineHeap := #[] },q.deadlineHeap.toList)
    else takeEarliest now q []
  | none => takeEarliest now q []

theorem popFirst_size {κ β : Type} [LinearOrder κ] {m m' : Std.TreeMap κ β} {k : κ} {v : β}
    (popped : popFirst m = some (k,v,m')) : m'.size < m.size := by
  simp only [popFirst,Option.bind_eq_bind,Option.bind_eq_some_iff,Option.pure_def,Option.some.injEq,
    Prod.mk.injEq] at popped
  obtain ⟨first,least,_,_,_,_,rfl⟩ := popped
  have member : first ∈ m := (Std.TreeMap.minKey?_eq_some_iff_mem_and_forall.mp least).1
  have positive : m.isEmpty = false := Std.TreeMap.isEmpty_eq_false_iff_exists_mem.mpr ⟨first,member⟩
  have size : m.size ≠ 0 := by
    intro empty
    simp [Std.TreeMap.isEmpty_eq_size_eq_zero,empty] at positive
  rw [Std.TreeMap.size_erase,if_pos (by simpa using member)]
  omega

/-- The loop of `take_due_frames`, over buckets whose target has been reached. -/
def takeBuckets (frame : Nat) (buckets : Std.TreeMap Nat (Std.TreeMap Nat Nat)) (due : List (Nat × Nat)) :
    Except Fault (Std.TreeMap Nat (Std.TreeMap Nat Nat) × List (Nat × Nat)) :=
  match buckets.minKey? with
  | none => .ok (buckets,due)
  | some target =>
    if target ≤ frame then
      match _popped : popFirst buckets with
      | some (_,bucket,rest) => takeBuckets frame rest (due ++ bucket.toList)
      | none => .error .frameBucketDisappeared
    else .ok (buckets,due)
termination_by buckets.size
decreasing_by exact popFirst_size _popped

def takeDueFrames (q : TimerQueue τ) (frame : Nat) : Except Fault (TimerQueue τ × List (Nat × Nat)) := do
  let (buckets,due) ← takeBuckets frame q.frameBuckets []
  pure ({ q with frameBuckets := buckets },due)

/-- Drop each drained entry from both indexes. -/
def forgetAll : List (Nat × Nat) → TimerQueue τ → Except Fault (TimerQueue τ)
  | [], q => pure q
  | (sequence,id) :: rest, q => do
    let q ← { q with locations := q.locations.erase sequence }.unlinkIdSequence id sequence
    forgetAll rest q

/-- `sort_unstable_by_key` on the sequence, taken only when the list is not sorted yet. -/
def sortBySequence (eligible : List (Nat × Nat)) : List (Nat × Nat) :=
  if eligible.Pairwise (fun a b => a.1 ≤ b.1) then eligible
  else eligible.mergeSort (fun a b => decide (a.1 ≤ b.1))

/-- The end of `due`: when everything is drained both indexes are cleared at once. -/
def finishDrain (q : TimerQueue τ) (eligible : List (Nat × Nat)) (pendingBefore : Nat) :
    Except Fault (TimerQueue τ × List Nat) := do
  if eligible.length = pendingBefore then
    pure ({ q with locations := ∅, idSequences := ∅ },eligible.map Prod.snd)
  else
    let q ← forgetAll eligible q
    pure (q,eligible.map Prod.snd)

def due (q : TimerQueue τ) (now : τ) (frame : Nat) : Except Fault (TimerQueue τ × List Nat) := do
  let pendingBefore := q.locations.size
  let eligible := q.ready.toList
  let (q,deadlines) ← { q with ready := ∅ }.takeDueDeadlines now
  let eligible := eligible ++ deadlines.map (fun entry => (entry.sequence,entry.id))
  let (q,frames) ← q.takeDueFrames frame
  q.finishDrain (sortBySequence (eligible ++ frames)) pendingBefore

def park (q : TimerQueue τ) (sequence id : Nat) : TimerQueue τ :=
  { q with ready := q.ready.insert sequence id, locations := q.locations.insert sequence .ready }

/-- The bounded loop of `due_limited`. -/
def popReady : Nat → TimerQueue τ → List Nat → Except Fault (TimerQueue τ × List Nat)
  | 0, q, due => pure (q,due)
  | limit + 1, q, due =>
    match popFirst q.ready with
    | none => pure (q,due)
    | some (sequence,id,ready) => do
      let q ← { q with ready, locations := q.locations.erase sequence }.unlinkIdSequence id sequence
      popReady limit q (due ++ [id])

def dueLimited (q : TimerQueue τ) (now : τ) (frame limit : Nat) : Except Fault (TimerQueue τ × List Nat) := do
  if limit = 0 then pure (q,[])
  else
    let (q,deadlines) ← q.takeDueDeadlines now
    let q := deadlines.foldl (fun q entry => q.park entry.sequence entry.id) q
    let (q,frames) ← q.takeDueFrames frame
    let q := frames.foldl (fun q entry => q.park entry.1 entry.2) q
    popReady limit q []

inductive Op (τ : Type) where
  | push (id : Nat) (kind : TimerKind τ)
  | remove (id : Nat)
  | due (now : τ) (frame : Nat)
  | dueLimited (now : τ) (frame limit : Nat)

inductive Reply where
  | pushed
  | removed (present : Bool)
  | ids (ids : List Nat)
deriving DecidableEq, Repr

def perform (q : TimerQueue τ) : Op τ → Except Fault (TimerQueue τ × Reply)
  | .push id kind => do
    let q ← q.push id kind
    pure (q,.pushed)
  | .remove id => do
    let (q,present) ← q.remove id
    pure (q,.removed present)
  | .due now frame => do
    let (q,ids) ← q.due now frame
    pure (q,.ids ids)
  | .dueLimited now frame limit => do
    let (q,ids) ← q.dueLimited now frame limit
    pure (q,.ids ids)

def execute : List (Op τ) → TimerQueue τ → Except Fault (TimerQueue τ × List Reply)
  | [], q => pure (q,[])
  | op :: ops, q => do
    let (q,reply) ← q.perform op
    let (q,replies) ← execute ops q
    pure (q,reply :: replies)

/-- `now >= target` or `frame >= target`. -/
def isDue (now : τ) (frame : Nat) : TimerKind τ → Bool
  | .deadline target => decide (target ≤ now)
  | .frame target => decide (target ≤ frame)

end TimerQueue

/-- The plain queue the indexed one replaced: entries in insertion order. -/
abbrev LinearTimerQueue (τ : Type) := List (Nat × TimerKind τ)

namespace LinearTimerQueue

open TimerQueue

variable {τ : Type} [LinearOrder τ]

/-- Take the first `limit` entries that are due and keep all others. -/
def drain (due : TimerKind τ → Bool) : Nat → LinearTimerQueue τ → List Nat × LinearTimerQueue τ
  | 0, entries => ([],entries)
  | _, [] => ([],[])
  | limit + 1, (id,kind) :: entries =>
    if due kind then
      let (ids,kept) := drain due limit entries
      (id :: ids,kept)
    else
      let (ids,kept) := drain due (limit + 1) entries
      (ids,(id,kind) :: kept)

def perform (entries : LinearTimerQueue τ) : Op τ → LinearTimerQueue τ × Reply
  | .push id kind => (entries ++ [(id,kind)],.pushed)
  | .remove id => (entries.filter (·.1 != id),.removed (entries.any (·.1 == id)))
  | .due now frame => (entries.filter (fun e => !isDue now frame e.2),
      .ids ((entries.filter (fun e => isDue now frame e.2)).map Prod.fst))
  | .dueLimited now frame limit => ((drain (isDue now frame) limit entries).2,
      .ids (((entries.filter (fun e => isDue now frame e.2)).take limit).map Prod.fst))

def execute : List (Op τ) → LinearTimerQueue τ → LinearTimerQueue τ × List Reply
  | [], entries => (entries,[])
  | op :: ops, entries =>
    let (entries,reply) := LinearTimerQueue.perform entries op
    let (entries,replies) := LinearTimerQueue.execute ops entries
    (entries,reply :: replies)

end LinearTimerQueue
end S2Script
