import S2Script.DeferQueueHistory

/-! Deferred dispatches are delivered at most once and in order, and every event copy is freed
exactly once, whatever the replays do and however they end. -/
namespace S2Script.DeferQueue

/-- The copies freed so far. -/
def freed (log : List Event) : List Nat :=
  log.filterMap fun
    | .freed d => some d
    | _ => none

def serials (l : List Deferred) : List Nat := l.map Deferred.serial

theorem serials_ite (abandoned : Bool) (l : List Deferred) :
    serials (if abandoned then [] else l) = if abandoned then [] else serials l := by
  cases abandoned <;> rfl

/-- What the running drain still has to replay. -/
def Queue.rest (q : Queue) : List Deferred :=
  match q.walks with
  | [] => []
  | ⟨i,_⟩ :: _ => if q.abandoned then [] else q.batch.drop (i + 1)

theorem rest_nil {q : Queue} (idle : q.walks = []) : q.rest = [] := by rw [Queue.rest,idle]

theorem rest_cons {q : Queue} {i : Nat} {e : Deferred} {walks : List Walk} (busy : q.walks = ⟨i,e⟩ :: walks) :
    q.rest = if q.abandoned then [] else q.batch.drop (i + 1) := by rw [Queue.rest,busy]

theorem rest_push (q : Queue) (e : Deferred) : (q.push e).rest = q.rest := rfl

/-- Where every copy is. -/
def Queue.owned (q : Queue) : List Nat :=
  dups q.queue ++ (dups q.batch ++ (dups (q.walks.map Walk.e) ++ freed q.log))

structure Sound (q : Queue) : Prop where
  kept : Kept q.log (serials q.rest) (serials q.queue) q.next
  single : q.walks.length ≤ 1
  running : q.draining = true ↔ q.walks ≠ []
  owned : q.owned.Perm (List.range q.minted)
  limit : q.queue.length ≤ deferredQueueMax

theorem Sound.new : Sound .new :=
  ⟨Kept.new,by simp [Queue.new],by simp [Queue.new],by simp [Queue.owned,Queue.new,dups,freed],by simp [Queue.new]⟩

@[simp] theorem dups_append (l m : List Deferred) : dups (l ++ m) = dups l ++ dups m := by simp [dups]

@[simp] theorem dups_nil : dups [] = [] := rfl

theorem dups_cons (e : Deferred) (l : List Deferred) : dups (e :: l) = e.dup.toList ++ dups l := by
  cases held : e.dup <;> simp [dups,held]

@[simp] theorem freed_free (owned : List Nat) (log : List Event) :
    freed ((owned.map Event.freed).reverse ++ log) = owned.reverse ++ freed log := by
  simp [freed,List.filterMap_append,← List.map_reverse,List.filterMap_map,Function.comp_def]

@[simp] theorem freed_accepted (n : Nat) (log : List Event) : freed (.accepted n :: log) = freed log := rfl

@[simp] theorem freed_replayed (n : Nat) (log : List Event) : freed (.replayed n :: log) = freed log := rfl

@[simp] theorem freed_started (log : List Event) : freed (.started :: log) = freed log := rfl

@[simp] theorem freed_flushed (log : List Event) : freed (.flushed :: log) = freed log := rfl

@[simp] theorem freed_unwound (log : List Event) : freed (.unwound :: log) = freed log := rfl

variable {q : Queue}

/-- Emptying the batch moves its copies to the freed ones. -/
theorem owned_clearBatch (q : Queue) : q.clearBatch.owned.Perm q.owned := by
  simp only [Queue.owned,Queue.clearBatch,Queue.free,freed_free,dups_nil,List.nil_append]
  refine .append_left _ ?_
  refine .trans ?_ (List.perm_append_comm_assoc _ _ _)
  exact .append_left _ (.append_right _ (List.reverse_perm _))

theorem owned_clearQueue (q : Queue) : q.clearQueue.owned.Perm q.owned := by
  simp only [Queue.owned,Queue.clearQueue,Queue.free,freed_free,dups_nil,List.nil_append]
  refine .trans (.append_left _ ?_) (List.perm_append_comm_assoc _ _ _)
  refine .trans ?_ (List.perm_append_comm_assoc _ _ _)
  exact .append_left _ (.append_right _ (List.reverse_perm _))

/-- A drain between two replays: what it still has to replay starts at an index. -/
structure Between (q : Queue) (i : Nat) : Prop where
  kept : Kept q.log (if q.abandoned then [] else serials (q.batch.drop i)) (serials q.queue) q.next
  idle : q.walks = []
  running : q.draining = true
  owned : q.owned.Perm (List.range q.minted)
  limit : q.queue.length ≤ deferredQueueMax

theorem Between.leave {i : Nat} (between : Between q i)
    (none : (if q.abandoned then [] else serials (q.batch.drop i)) = []) : Sound q.leave where
  kept := by
    have kept := between.kept
    rw [none] at kept
    rw [rest_nil (q := q.leave) between.idle]
    exact kept.free _
  single := by simp [Queue.leave,Queue.clearBatch,Queue.free,between.idle]
  running := by simp [Queue.leave,Queue.clearBatch,Queue.free,between.idle]
  owned := (owned_clearBatch _).trans between.owned
  limit := between.limit

/-- The entry a replay works on leaves its place in the batch without its copy. -/
theorem dups_set {l : List Deferred} {i : Nat} {e : Deferred} (here : l[i]? = some e) :
    (dups l).Perm (e.dup.toList ++ dups (l.set i { e with dup := none })) := by
  obtain ⟨bound,rfl⟩ := List.getElem?_eq_some_iff.mp here
  have taken : l = l.take i ++ l[i] :: l.drop (i + 1) := by simp
  have husk : l.set i { l[i] with dup := none } = l.take i ++ { l[i] with dup := none } :: l.drop (i + 1) :=
    List.set_eq_take_append_cons_drop ▸ by simp [bound]
  rw [husk]
  conv_lhs => rw [taken]
  simp only [dups_append,dups_cons,Option.toList_none,List.nil_append]
  exact List.perm_append_comm_assoc _ _ _

theorem Between.walk {i : Nat} (between : Between q i) : Sound (q.walk i) := by
  rw [Queue.walk]
  split
  next out =>
    refine between.leave ?_
    rw [List.drop_eq_nil_of_le (List.getElem?_eq_none_iff.mp out)]
    simp [serials]
  next e here =>
    split
    next abandoned => exact between.leave (by simp [abandoned])
    next going =>
      obtain ⟨bound,same⟩ := List.getElem?_eq_some_iff.mp here
      have kept := between.kept
      rw [if_neg going,List.drop_eq_getElem_cons bound,same] at kept
      refine ⟨?_,by simp [between.idle],by simp [between.running],?_,between.limit⟩
      · simp only [Queue.rest,going,Bool.false_eq_true,if_false,List.drop_set_of_lt (Nat.lt_succ_self i)]
        exact kept.replay
      · have owned := between.owned
        simp only [Queue.owned,between.idle,List.map_nil,List.map_cons,dups_cons,dups_nil,List.nil_append,
          List.append_nil,freed_replayed] at owned ⊢
        refine .trans (.append_left _ ?_) owned
        refine .trans (List.perm_append_comm_assoc _ _ _) ?_
        rw [← List.append_assoc]
        exact (dups_set here).symm.append_right _

theorem Sound.push (sound : Sound q) {e : Deferred} (room : q.queue.length < deferredQueueMax) (numbered : e.serial = q.next)
    (held : e.dup = none) : Sound (q.push e) where
  kept := by
    rw [rest_push]
    simpa [Queue.push,serials,numbered] using sound.kept.accept
  single := sound.single
  running := sound.running
  owned := by
    simpa [Queue.owned,Queue.push,dups_cons,held] using sound.owned
  limit := by
    rw [Queue.push,List.length_append]
    exact room

theorem Sound.pushCopy (sound : Sound q) {e : Deferred} (room : q.queue.length < deferredQueueMax)
    (numbered : e.serial = q.next) (held : e.dup = some q.minted) : Sound ({ q with minted := q.minted + 1 }.push e) where
  kept := by
    have same : Queue.rest ({ q with minted := q.minted + 1 }.push e) = q.rest := rfl
    rw [same]
    simpa [Queue.push,serials,numbered] using sound.kept.accept
  single := sound.single
  running := sound.running
  owned := by
    have owned := sound.owned
    simp only [Queue.owned,Queue.push,dups_append,dups_cons,held,Option.toList_some,dups_nil,freed_accepted,
      List.range_succ] at owned ⊢
    rw [List.append_assoc]
    refine .trans (List.perm_append_comm_assoc _ _ _) (.trans ?_ (List.perm_append_singleton _ _).symm)
    exact owned.cons q.minted
  limit := by
    rw [Queue.push,List.length_append]
    exact room

theorem Sound.pushScalar (sound : Sound q) (kind : DeferredKind) (a b c : Option String) (i : Int) :
    Sound (q.pushScalar kind a b c i) := by
  rw [Queue.pushScalar]
  split
  next => exact sound
  next room => exact sound.push (by omega) rfl rfl

theorem Sound.pushClient (sound : Sound q) (name : Option String) (slot : Int) (token : Nat)
    (identity : Option ClientIdentity) : Sound (q.pushClient name slot token identity) := by
  rw [Queue.pushClient]
  split
  next => exact sound
  next room => cases identity <;> exact sound.push (by omega) rfl rfl

theorem Sound.pushGameEvent (sound : Sound q) (name : Option String) (duplicated : Bool) :
    Sound (q.pushGameEvent name duplicated) := by
  rw [Queue.pushGameEvent.eq_def]
  split
  next => exact sound
  next =>
    split
    next => exact sound
    next room =>
      split
      next => exact sound.pushCopy (by omega) rfl rfl
      next => exact sound

theorem Sound.walks_nil (sound : Sound q) (idle : q.draining = false) : q.walks = [] := by
  by_contra busy
  simp [sound.running.mpr busy] at idle

/-- A batch that no drain walks is emptied without a trace. -/
theorem Sound.clearBatch (sound : Sound q) (idle : q.walks = []) : Sound q.clearBatch where
  kept := by
    have kept := sound.kept.free (dups q.batch)
    rw [rest_nil idle] at kept
    rw [rest_nil (q := q.clearBatch) idle]
    exact kept
  single := sound.single
  running := sound.running
  owned := (owned_clearBatch q).trans sound.owned
  limit := sound.limit

theorem Sound.drain (sound : Sound q) : Sound q.drain := by
  rw [Queue.drain]
  split
  next => exact sound
  next idle =>
    have walks := sound.walks_nil (by simpa using idle)
    have cleared := sound.clearBatch walks
    split
    next => exact cleared
    next =>
      have kept := cleared.kept
      rw [rest_nil (q := q.clearBatch) walks] at kept
      refine Between.walk ⟨?_,walks,rfl,?_,Nat.zero_le _⟩
      · exact kept.start
      · have owned := cleared.owned
        simpa [Queue.owned,Queue.clearBatch,Queue.free] using owned

theorem Sound.flush (sound : Sound q) : Sound q.flush := by
  have kept := sound.kept.flush.free (dups q.queue)
  rw [Queue.flush]
  split
  next draining =>
    have busy := sound.running.mp draining
    have rest : Queue.rest { Queue.clearQueue { q with log := .flushed :: q.log } with abandoned := true } = [] := by
      rw [Queue.rest]
      split <;> rfl
    refine ⟨?_,sound.single,sound.running,?_,Nat.zero_le _⟩
    · rw [rest]
      exact kept
    · exact (owned_clearQueue { q with log := .flushed :: q.log }).trans sound.owned
  next idle =>
    have walks := sound.walks_nil (by simpa [Queue.clearQueue,Queue.free] using idle)
    refine Sound.clearBatch ⟨?_,sound.single,sound.running,?_,Nat.zero_le _⟩ walks
    · rw [rest_nil (q := Queue.clearQueue { q with log := .flushed :: q.log }) walks]
      exact kept
    · exact (owned_clearQueue { q with log := .flushed :: q.log }).trans sound.owned

theorem Sound.finish (sound : Sound q) (outcome : Outcome) : Sound (q.finish outcome) := by
  rw [Queue.finish.eq_def]
  split
  next => exact sound
  next i e walks here =>
    obtain rfl : walks = [] := by
      have single := sound.single
      rw [here] at single
      exact List.eq_nil_of_length_eq_zero (by simpa using single)
    have owned : (Queue.owned ({ q with walks := [] }.free e.dup.toList)).Perm (List.range q.minted) := by
      refine .trans ?_ sound.owned
      simp only [Queue.owned,Queue.free,here,List.map_cons,List.map_nil,dups_cons,dups_nil,List.nil_append,
        List.append_nil,freed_free]
      cases e.dup <;> simp
    have kept := sound.kept.free e.dup.toList
    have draining := sound.running.mpr (by simp [here])
    rw [rest_cons here,serials_ite] at kept
    cases outcome with
    | unwound => exact ⟨kept.unwind,Nat.zero_le _,by simp [Queue.free],owned,sound.limit⟩
    | _ => exact Between.walk ⟨kept,rfl,draining,owned,sound.limit⟩

theorem Sound.step (sound : Sound q) (action : Action) : Sound (q.step action) := by
  cases action with
  | call call =>
    cases call with
    | pushScalar kind a b c i => exact sound.pushScalar kind a b c i
    | pushClient name slot token identity => exact sound.pushClient name slot token identity
    | pushGameEvent name duplicated => exact sound.pushGameEvent name duplicated
    | drain => exact sound.drain
    | flush => exact sound.flush
  | finish outcome => exact sound.finish outcome

theorem Sound.run (actions : List Action) : ∀ {q : Queue}, Sound q → Sound (run actions q) := by
  induction actions with
  | nil => exact fun sound => sound
  | cons action rest ih => exact fun sound => ih (sound.step action)

/-- The entries replayed, the newest first. -/
def replays (log : List Event) : List Nat :=
  log.filterMap fun
    | .replayed n => some n
    | _ => none

/-- The calls each replay makes and how it ends. -/
def script (parts : List (List Call × Outcome)) : List Action :=
  parts.flatMap fun part => part.1.map .call ++ [.finish part.2]

/-- A drain inside a replay that no flush has reached. -/
structure Going (q : Queue) (i : Nat) (rest : List Deferred) : Prop where
  sound : Sound q
  walks : ∃ e, q.walks = [⟨i,e⟩]
  going : q.abandoned = false
  batch : q.batch.drop (i + 1) = rest

theorem run_append (first second : List Action) (q : Queue) : run (first ++ second) q = run second (run first q) := by
  induction first generalizing q with
  | nil => rfl
  | cons action rest ih => exact ih (q.step action)

theorem replays_free (owned : List Nat) (log : List Event) :
    replays ((owned.map Event.freed).reverse ++ log) = replays log := by
  rw [replays,List.filterMap_append,← List.map_reverse,List.filterMap_map]
  simp [replays,Function.comp_def]

/-- Calls other than a flush leave the batch to the drain. -/
theorem Going.call {i : Nat} {rest : List Deferred} (going : Going q i rest) {c : Call} (quiet : c ≠ .flush) :
    Going (q.call c) i rest ∧ replays (q.call c).log = replays q.log := by
  have stays : (q.call c).walks = q.walks ∧ (q.call c).abandoned = q.abandoned ∧ (q.call c).batch = q.batch ∧
      replays (q.call c).log = replays q.log := by
    cases c with
    | pushScalar kind a b c i =>
      simp only [Queue.call,Queue.pushScalar]
      split <;> exact ⟨rfl,rfl,rfl,rfl⟩
    | pushClient name slot token identity =>
      simp only [Queue.call,Queue.pushClient]
      split <;> exact ⟨rfl,rfl,rfl,rfl⟩
    | pushGameEvent name duplicated =>
      simp only [Queue.call,Queue.pushGameEvent.eq_def]
      split
      · exact ⟨rfl,rfl,rfl,rfl⟩
      · split
        · exact ⟨rfl,rfl,rfl,rfl⟩
        · split <;> exact ⟨rfl,rfl,rfl,rfl⟩
    | drain =>
      obtain ⟨e,walks⟩ := going.walks
      have draining := going.sound.running.mpr (by simp [walks])
      simp [Queue.call,Queue.drain,draining]
    | flush => exact absurd rfl quiet
  obtain ⟨walks,abandoned,batch,same⟩ := stays
  exact ⟨⟨going.sound.step (.call c),walks ▸ going.walks,abandoned ▸ going.going,batch ▸ going.batch⟩,same⟩

theorem Going.calls {i : Nat} {rest : List Deferred} {calls : List Call} (quiet : ∀ c ∈ calls, c ≠ .flush) :
    ∀ {q : Queue}, Going q i rest →
      Going (run (calls.map .call) q) i rest ∧ replays (run (calls.map .call) q).log = replays q.log := by
  induction calls with
  | nil => exact fun going => ⟨going,rfl⟩
  | cons c calls ih =>
    intro q going
    obtain ⟨next,same⟩ := going.call (quiet c List.mem_cons_self)
    obtain ⟨last,also⟩ := ih (fun c member => quiet c (List.mem_cons_of_mem _ member)) next
    exact ⟨last,also.trans same⟩

/-- The loop takes the next entry, or leaves when there is none. -/
theorem walk_cases (going : q.abandoned = false) (i : Nat) :
    (q.walk i).walks = q.walks ∧ q.batch.drop i = [] ∧ replays (q.walk i).log = replays q.log ∨
      ∃ e, q.batch.drop i = e :: q.batch.drop (i + 1) ∧ (q.walk i).walks = ⟨i,e⟩ :: q.walks ∧
        (q.walk i).abandoned = false ∧ (q.walk i).batch.drop (i + 1) = q.batch.drop (i + 1) ∧
        replays (q.walk i).log = e.serial :: replays q.log := by
  rw [Queue.walk]
  split
  next out => exact .inl ⟨rfl,List.drop_eq_nil_of_le (List.getElem?_eq_none_iff.mp out),replays_free _ _⟩
  next e here =>
    obtain ⟨bound,same⟩ := List.getElem?_eq_some_iff.mp here
    rw [if_neg (by simp [going])]
    exact .inr ⟨e,by rw [List.drop_eq_getElem_cons bound,same],rfl,going,
      List.drop_set_of_lt (Nat.lt_succ_self i),rfl⟩

/-- A replay that does not unwind is followed by the next entry of the batch. -/
theorem Going.finish {i : Nat} {rest : List Deferred} (going : Going q i rest) {outcome : Outcome}
    (normal : outcome ≠ .unwound) :
    rest = [] ∧ (q.finish outcome).walks = [] ∧ replays (q.finish outcome).log = replays q.log ∨
      ∃ e rest', rest = e :: rest' ∧ Going (q.finish outcome) (i + 1) rest' ∧
        replays (q.finish outcome).log = e.serial :: replays q.log := by
  obtain ⟨e,walks⟩ := going.walks
  have finished : q.finish outcome = Queue.walk ({ q with walks := [] }.free e.dup.toList) (i + 1) := by
    rw [Queue.finish.eq_def,walks]
    cases outcome with
    | unwound => exact absurd rfl normal
    | _ => rfl
  have same : replays ({ q with walks := [] }.free e.dup.toList).log = replays q.log := replays_free _ _
  rcases walk_cases (q := { q with walks := [] }.free e.dup.toList) going.going (i + 1) with
    ⟨idle,done,none⟩ | ⟨e',more,walks',going',batch,replayed⟩
  · refine .inl ⟨going.batch ▸ done,?_,?_⟩
    · rw [finished,idle]
      rfl
    · rw [finished,none,same]
  · refine .inr ⟨e',q.batch.drop (i + 1 + 1),going.batch ▸ more,⟨going.sound.step (.finish outcome),⟨e',?_⟩,?_,?_⟩,?_⟩
    · rw [finished,walks']
      rfl
    · rw [finished,going']
    · rw [finished,batch]
      rfl
    · rw [finished,replayed,same]

/-- Replays that neither flush nor unwind let the drain deliver the rest of its batch. -/
theorem Going.delivers {parts : List (List Call × Outcome)}
    (quiet : ∀ part ∈ parts, (∀ c ∈ part.1, c ≠ .flush) ∧ part.2 ≠ .unwound) :
    ∀ {q : Queue} {i : Nat} {rest : List Deferred}, Going q i rest → parts.length = rest.length + 1 →
      (run (script parts) q).walks = [] ∧
        replays (run (script parts) q).log = (serials rest).reverse ++ replays q.log := by
  induction parts with
  | nil =>
    intro q i rest _ length
    simp at length
  | cons part parts ih =>
    intro q i rest going length
    obtain ⟨calls,normal⟩ := quiet part List.mem_cons_self
    obtain ⟨next,same⟩ := going.calls calls
    have unfold_ : run (script (part :: parts)) q =
        run (script parts) ((run (part.1.map .call) q).finish part.2) := by
      rw [script,List.flatMap_cons,run_append,run_append]
      rfl
    rw [unfold_]
    rcases next.finish normal with ⟨rfl,idle,none⟩ | ⟨e,rest',rfl,further,replayed⟩
    · obtain rfl : parts = [] := List.eq_nil_of_length_eq_zero (by simpa using length)
      exact ⟨idle,by simp [script,run,serials,none,same]⟩
    · obtain ⟨idle,all⟩ := ih (fun part member => quiet part (List.mem_cons_of_mem _ member)) further
        (by simpa using length)
      exact ⟨idle,by simp [all,replayed,same,serials]⟩

/-- A drain from any state without one replays the whole queue in order, if no replay flushes or unwinds. -/
theorem drain_delivers (sound : Sound q) (idle : q.walks = []) {parts : List (List Call × Outcome)}
    (length : parts.length = q.queue.length)
    (quiet : ∀ part ∈ parts, (∀ c ∈ part.1, c ≠ .flush) ∧ part.2 ≠ .unwound) :
    (run (.call .drain :: script parts) q).walks = [] ∧
      replays (run (.call .drain :: script parts) q).log = (serials q.queue).reverse ++ replays q.log := by
  have stopped : q.draining = false := by
    rw [Bool.eq_false_iff]
    exact fun draining => sound.running.mp draining idle
  have drained := sound.drain
  rw [run,Queue.step,Queue.call]
  rw [Queue.drain,if_neg (by simp [stopped])] at drained ⊢
  split at drained
  next empty =>
    obtain rfl : parts = [] := List.eq_nil_of_length_eq_zero (by simpa [empty] using length)
    rw [if_pos empty]
    exact ⟨idle,by rw [empty]; exact replays_free _ _⟩
  next some =>
    rw [if_neg some]
    have cleared : replays q.clearBatch.log = replays q.log := replays_free _ _
    rcases walk_cases (q := { q.clearBatch with
        batch := q.queue
        queue := []
        draining := true
        abandoned := false
        log := .started :: q.clearBatch.log }) rfl 0 with ⟨_,empty,_⟩ | ⟨e,more,walks,going,batch,replayed⟩
    · exact absurd (by simpa using empty) some
    · have going : Going _ 0 (q.queue.drop 1) := ⟨drained,⟨e,walks.trans (by rw [show q.clearBatch.walks = [] from idle])⟩,
        going,batch⟩
      have head : q.queue = e :: q.queue.drop 1 := by simpa using more
      obtain ⟨last,all⟩ := going.delivers quiet (by rw [length,head]; simp)
      refine ⟨last,?_⟩
      rw [all,replayed]
      conv_rhs => rw [head,← cleared]
      simp [serials,replays]

/-- What the queue promises of every state: order, ownership, its limit and the drains to come. -/
structure Delivery (q : Queue) : Prop where
  ordered : Ordered q.log
  once : (replays q.log).Pairwise (· > ·)
  lost : ∀ n, .accepted n ∈ q.log → n ∈ serials q.rest ∨ n ∈ serials q.queue ∨ .replayed n ∈ q.log ∨
    .flushed ∈ since q.log n ∨ Unwound q.log n
  owned : ∀ d < q.minted, (dups q.queue).count d + (dups q.batch).count d + (dups (q.walks.map Walk.e)).count d +
    (freed q.log).count d = 1
  minted : ∀ d ∈ q.owned, d < q.minted
  limit : q.queue.length ≤ deferredQueueMax
  running : q.draining = true ↔ q.walks ≠ []
  single : q.walks.length ≤ 1
  later : q.walks = [] → ∀ parts : List (List Call × Outcome), parts.length = q.queue.length →
    (∀ part ∈ parts, (∀ c ∈ part.1, c ≠ .flush) ∧ part.2 ≠ .unwound) →
    (run (.call .drain :: script parts) q).walks = [] ∧
      replays (run (.call .drain :: script parts) q).log = (serials q.queue).reverse ++ replays q.log

theorem Ordered.once {log : List Event} (ordered : Ordered log) : (replays log).Pairwise (· > ·) := by
  induction log with
  | nil => simp [replays]
  | cons e older ih =>
    have rest := ih ordered.2
    cases e with
    | replayed n =>
      simp only [replays,List.filterMap_cons,List.pairwise_cons] at rest ⊢
      refine ⟨fun m member => ?_,rest⟩
      obtain ⟨e,inside,same⟩ := List.mem_filterMap.mp member
      cases e <;> simp only [reduceCtorEq,Option.some.injEq] at same
      exact same ▸ ordered.1.2.2.2 _ inside
    | _ => exact rest

theorem Sound.delivery (sound : Sound q) : Delivery q where
  ordered := sound.kept.ordered
  once := sound.kept.ordered.once
  lost n accepted := by
    rcases sound.kept.lost n accepted with waits | done
    · rcases List.mem_append.mp waits with taken | queued
      · exact .inl taken
      · exact .inr (.inl queued)
    · exact .inr (.inr done)
  owned d bound := by
    have count := sound.owned.count_eq d
    rw [List.nodup_range.count,if_pos (List.mem_range.mpr bound)] at count
    simp only [Queue.owned,List.count_append] at count
    omega
  minted d member := List.mem_range.mp (sound.owned.subset member)
  limit := sound.limit
  running := sound.running
  single := sound.single
  later idle _ length quiet := drain_delivers sound idle length quiet

/-- Whatever is pushed, drained and flushed, from wherever, and however the replays end. -/
theorem dispatches_delivered (actions : List Action) : Delivery (run actions .new) :=
  (Sound.new.run actions).delivery

end S2Script.DeferQueue
