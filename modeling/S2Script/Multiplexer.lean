import Mathlib

/-! The engine-generic hook multiplexer. `Descriptor` operations thread the
thread-wide version counter; an arithmetic underflow is the only way one stops.
Handlers are an arbitrary type, as in the source. -/
namespace S2Script.Multiplexer

inductive HookResult where
  | continue | changed | handled | stop
  deriving DecidableEq, Repr

def HookResult.code : HookResult → Nat
  | .continue => 0
  | .changed => 1
  | .handled => 2
  | .stop => 3

theorem HookResult.code_injective : Function.Injective HookResult.code := by
  intro a b h
  cases a <;> cases b <;> first | rfl | cases h

/-- The derived order of the source enumeration: its declaration order. -/
instance : LinearOrder HookResult := LinearOrder.lift' HookResult.code HookResult.code_injective

inductive Priority where
  | high | normal | low | monitor
  deriving DecidableEq, Repr

def Priority.code : Priority → Nat
  | .high => 0
  | .normal => 1
  | .low => 2
  | .monitor => 3

theorem Priority.code_injective : Function.Injective Priority.code := by
  intro a b h
  cases a <;> cases b <;> first | rfl | cases h

instance : LinearOrder Priority := LinearOrder.lift' Priority.code Priority.code_injective

inductive Phase where
  | pre | post
  deriving DecidableEq, Repr

inductive DetourChange where
  | none | install | remove
  deriving DecidableEq, Repr

def maxHandlerErrors : Nat := 10

structure Subscription (H : Type) where
  id : Nat
  priority : Priority
  phase : Phase
  owner : String
  handler : H
  enabled : Bool
  errorCount : Nat

structure Descriptor (H : Type) where
  name : String
  subs : List (Subscription H)
  nextId : Nat
  enabledCount : Nat
  version : Nat

/-- The thread-local `VERSIONS` counter, and `none` for an arithmetic panic. -/
abbrev Host := StateT Nat Option

/-- A fresh subscriber-set version, shared by every store on the thread. -/
def nextVersion : Host Nat := fun versions => some (versions + 1, versions + 1)

/-- The chain loop. `invoke` is the caller's closure with its own state; the
accumulators are the source's `result`, `stopped` and `errored`. -/
def runChainFrom (invoke : H → σ → Except Unit HookResult × σ) :
    List (Nat × Priority × H) → HookResult → Bool → List Nat → σ →
      (HookResult × List Nat) × σ
  | [], result, _, errored, world => ((result,errored),world)
  | (id,priority,handler) :: rest, result, stopped, errored, world =>
    let monitor := decide (priority = .monitor)
    if !monitor && stopped then runChainFrom invoke rest result stopped errored world
    else match invoke handler world with
      | (.ok r,world) =>
        if monitor then runChainFrom invoke rest result stopped errored world
        else runChainFrom invoke rest (if result < r then r else result)
          (if r = .stop then true else stopped) errored world
      | (.error _,world) => runChainFrom invoke rest result stopped (errored ++ [id]) world

def runChain (snapshot : List (Nat × Priority × H))
    (invoke : H → σ → Except Unit HookResult × σ) (world : σ) : (HookResult × List Nat) × σ :=
  runChainFrom invoke snapshot .continue false [] world

namespace Descriptor

def new (name : String) : Host (Descriptor H) := do
  let version ← nextVersion
  pure ⟨name,[],1,0,version⟩

def hasEnabled (d : Descriptor H) (phase : Phase) : Bool :=
  d.subs.any (fun s => s.enabled && s.phase == phase)

/-- `position` of the first strictly greater priority, or the length. -/
def subscribe (d : Descriptor H) (priority : Priority) (phase : Phase) (owner : String)
    (handler : H) : Host (Descriptor H × Nat × DetourChange) := do
  let version ← nextVersion
  let id := d.nextId
  let position := d.subs.findIdx (fun s => decide (priority < s.priority))
  let subs := d.subs.insertIdx position ⟨id,priority,phase,owner,handler,true,0⟩
  let change := if d.enabledCount = 0 then DetourChange.install else .none
  pure ({ d with version, nextId := id + 1, subs, enabledCount := d.enabledCount + 1 },id,change)

def removeByOwner (d : Descriptor H) (owner : String) : Host (Descriptor H × DetourChange) := do
  let version ← nextVersion
  let beforeEnabled := d.subs.countP (fun s => s.enabled && s.owner == owner)
  let subs := d.subs.filter (fun s => s.owner != owner)
  let enabledCount := subs.countP (·.enabled)
  let change := if 0 < beforeEnabled ∧ enabledCount = 0 then DetourChange.remove else .none
  pure ({ d with version, subs, enabledCount },change)

/-- `enabled_count -= 1` on an unsigned counter: zero has no predecessor. -/
def decEnabled (d : Descriptor H) : Host (Descriptor H × DetourChange) :=
  match d.enabledCount with
  | 0 => failure
  | n + 1 => pure ({ d with enabledCount := n },if n = 0 then .remove else .none)

def unsubscribe (d : Descriptor H) (id : Nat) : Host (Descriptor H × DetourChange) := do
  let version ← nextVersion
  match d.subs.find? (·.id == id) with
  | some s =>
    let d := { d with version, subs := d.subs.eraseP (·.id == id) }
    if s.enabled then d.decEnabled else pure (d,.none)
  | none => pure ({ d with version },.none)

/-- One errored id: only the first subscription carrying it is examined. The
answer says whether this error disabled it. -/
def noteError (id : Nat) : List (Subscription H) → List (Subscription H) × Bool
  | [] => ([],false)
  | s :: rest =>
    if s.id = id then
      if s.enabled then
        let errorCount := s.errorCount + 1
        if maxHandlerErrors ≤ errorCount then
          ({ s with errorCount, enabled := false } :: rest,true)
        else ({ s with errorCount } :: rest,false)
      else (s :: rest,false)
    else
      let (later,disabled) := noteError id rest
      (s :: later,disabled)

def noteErrors : List Nat → List (Subscription H) → Nat → List (Subscription H) × Nat
  | [], subs, disabled => (subs,disabled)
  | id :: errored, subs, disabled =>
    let (subs,now) := noteError id subs
    noteErrors errored subs (if now then disabled + 1 else disabled)

/-- `for _ in 0..disabled`: any decrement that reaches zero asks for the removal. -/
def decEnabledBy : Nat → Descriptor H → DetourChange → Host (Descriptor H × DetourChange)
  | 0, d, detour => pure (d,detour)
  | n + 1, d, detour => do
    let (d,change) ← d.decEnabled
    decEnabledBy n d (if change = .remove then .remove else detour)

def applyErrors (d : Descriptor H) (errored : List Nat) : Host (Descriptor H × DetourChange) := do
  let (subs,disabled) := noteErrors errored d.subs 0
  let d := { d with subs }
  let d ← if 0 < disabled then do
      let version ← nextVersion
      pure { d with version }
    else pure d
  decEnabledBy disabled d .none

def snapshot (d : Descriptor H) (phase : Phase) : List (Nat × Priority × String × H) :=
  (d.subs.filter (fun s => s.enabled && s.phase == phase)).map
    (fun s => (s.id,s.priority,s.owner,s.handler))

def dispatch (d : Descriptor H) (phase : Phase)
    (invoke : H → σ → Except Unit HookResult × σ) (world : σ) :
    Host (Descriptor H × HookResult × DetourChange) := do
  let snap := (d.snapshot phase).map (fun row => (row.1,row.2.1,row.2.2.2))
  let ((result,errored),_) := runChain snap invoke world
  let (d,detour) ← d.applyErrors errored
  pure (d,result,detour)

/-- Dispatch order: priority first, then registration order. -/
def Precedes (s t : Subscription H) : Prop :=
  s.priority < t.priority ∨ s.priority = t.priority ∧ s.id < t.id

structure Valid (d : Descriptor H) : Prop where
  counted : d.enabledCount = d.subs.countP (·.enabled)
  ordered : d.subs.Pairwise Precedes
  fresh : ∀ s ∈ d.subs, s.id < d.nextId

/-- The request owed when the enabled set goes from one emptiness to another. -/
def owed (before after : Nat) : DetourChange :=
  if before = 0 then if after = 0 then .none else .install
  else if after = 0 then .remove else .none

/-- Everything one operation can do to a valid descriptor: it asks for exactly the
owed detour change, and keeps its version only when no snapshot moved. -/
structure Moves (d : Descriptor H) (clock : Nat) (change : DetourChange)
    (d' : Descriptor H) (clock' : Nat) : Prop where
  valid : d'.Valid
  request : change = owed d.enabledCount d'.enabledCount
  later : clock ≤ clock'
  version : clock < d'.version ∧ d'.version ≤ clock' ∨
    d'.version = d.version ∧ ∀ phase, d'.snapshot phase = d.snapshot phase

@[simp] theorem nextVersion_run (clock : Nat) :
    nextVersion.run clock = some (clock + 1,clock + 1) := rfl

theorem new_run (name : String) (clock : Nat) :
    (new name : Host (Descriptor H)).run clock = some (⟨name,[],1,0,clock + 1⟩,clock + 1) := rfl

theorem new_valid (name : String) (version : Nat) :
    (⟨name,[],1,0,version⟩ : Descriptor H).Valid :=
  ⟨rfl,.nil,by simp⟩

theorem precedes_of_priority_le {s t : Subscription H} (priority : s.priority ≤ t.priority)
    (id : s.id < t.id) : Precedes s t := by
  rcases lt_or_eq_of_le priority with lt | eq
  · exact .inl lt
  · exact .inr ⟨eq,id⟩

/-- Inserting before the first strictly greater priority splits the list there. -/
theorem insertIdx_findIdx (p : α → Bool) (a : α) (l : List α) :
    l.insertIdx (l.findIdx p) a = l.takeWhile (fun x => !p x) ++ a :: l.dropWhile (fun x => !p x) := by
  induction l with
  | nil => rfl
  | cons x l ih =>
    cases h : p x
    · simp [List.findIdx_cons,h,List.insertIdx_succ_cons,ih]
    · simp [List.findIdx_cons,h]

theorem subscribe_ordered (d : Descriptor H) (valid : d.Valid) (new : Subscription H)
    (id : new.id = d.nextId) :
    (d.subs.insertIdx (d.subs.findIdx (fun s => decide (new.priority < s.priority))) new).Pairwise
      Precedes := by
  rw [insertIdx_findIdx]
  have split := List.takeWhile_append_dropWhile (p := fun s => !decide (new.priority < s.priority)) (l := d.subs)
  have ordered := valid.ordered
  rw [← split] at ordered
  obtain ⟨first,last,across⟩ := List.pairwise_append.mp ordered
  have before : ∀ s ∈ d.subs.takeWhile (fun s => !decide (new.priority < s.priority)), Precedes s new := by
    intro s member
    have keep := List.mem_takeWhile_imp member
    have old := valid.fresh s (List.takeWhile_subset _ member)
    exact precedes_of_priority_le (by simpa using keep) (by omega)
  have after : ∀ s ∈ d.subs.dropWhile (fun s => !decide (new.priority < s.priority)), Precedes new s := by
    -- the head of the dropped part is strictly greater, and the rest follows it in order
    cases rest : d.subs.dropWhile (fun s => !decide (new.priority < s.priority)) with
    | nil => simp
    | cons head tail =>
      have greater : new.priority < head.priority := by
        have h := List.head_dropWhile_not (fun s : Subscription H => !decide (new.priority < s.priority))
          (l := d.subs) (by rw [rest]; simp)
        simpa [rest] using h
      rw [rest] at last
      intro s member
      rcases List.mem_cons.mp member with rfl | member
      · exact .inl greater
      · rcases List.rel_of_pairwise_cons last member with lt | ⟨eq,_⟩
        · exact .inl (greater.trans lt)
        · exact .inl (eq ▸ greater)
  refine List.pairwise_append.mpr ⟨first,List.pairwise_cons.mpr ⟨after,last⟩,?_⟩
  intro s hs t ht
  rcases List.mem_cons.mp ht with rfl | ht
  · exact before s hs
  · exact across s hs t ht

theorem subscribe_moves (d : Descriptor H) (valid : d.Valid) (priority : Priority) (phase : Phase)
    (owner : String) (handler : H) (clock : Nat) :
    ∃ d' change, (d.subscribe priority phase owner handler).run clock =
      some ((d',d.nextId,change),clock + 1) ∧ d.Moves clock change d' (clock + 1) := by
  refine ⟨_,_,rfl,?_,?_,by omega,.inl ⟨by simp,by simp⟩⟩
  · refine ⟨?_,subscribe_ordered d valid _ rfl,?_⟩
    · simp only [insertIdx_findIdx,List.countP_append,List.countP_cons]
      have split := congrArg (List.countP (·.enabled))
        (List.takeWhile_append_dropWhile (p := fun s => !decide (priority < s.priority)) (l := d.subs))
      rw [List.countP_append] at split
      have counted := valid.counted
      simp only [if_true]
      omega
    · intro s member
      rw [insertIdx_findIdx] at member
      rcases List.mem_append.mp member with member | member
      · exact Nat.lt_succ_of_lt (valid.fresh s (List.takeWhile_subset _ member))
      · rcases List.mem_cons.mp member with rfl | member
        · exact Nat.lt_succ_self _
        · exact Nat.lt_succ_of_lt (valid.fresh s (List.dropWhile_subset _ member))
  · simp only [owed]
    split <;> simp

theorem removeByOwner_moves (d : Descriptor H) (valid : d.Valid) (owner : String) (clock : Nat) :
    ∃ d' change, (d.removeByOwner owner).run clock = some ((d',change),clock + 1) ∧
      d.Moves clock change d' (clock + 1) := by
  refine ⟨_,_,rfl,?_,?_,by omega,.inl ⟨by simp,by simp⟩⟩
  · exact ⟨rfl,valid.ordered.filter _,fun s member => valid.fresh s (List.mem_of_mem_filter member)⟩
  · -- the enabled set is the removed owner's part and the kept part
    have split : d.enabledCount = d.subs.countP (fun s => s.enabled && s.owner == owner) +
        (d.subs.filter (fun s => s.owner != owner)).countP (·.enabled) := by
      rw [valid.counted,List.countP_filter]
      induction d.subs with
      | nil => rfl
      | cons s rest ih =>
        simp only [List.countP_cons,ih]
        cases s.enabled <;> cases h : s.owner == owner <;> simp [bne,h] <;> omega
    simp only [split]
    generalize d.subs.countP (fun s => s.enabled && s.owner == owner) = gone
    generalize (d.subs.filter (fun s => s.owner != owner)).countP (·.enabled) = kept
    rcases gone with _ | gone <;> rcases kept with _ | kept <;> simp [owed]

theorem decEnabled_run (d : Descriptor H) (positive : 0 < d.enabledCount) (clock : Nat) :
    d.decEnabled.run clock = some (({ d with enabledCount := d.enabledCount - 1 },
      if d.enabledCount - 1 = 0 then .remove else .none),clock) := by
  unfold decEnabled
  split
  · omega
  · simp_all

theorem unsubscribe_moves (d : Descriptor H) (valid : d.Valid) (id clock : Nat) :
    ∃ d' change, (d.unsubscribe id).run clock = some ((d',change),clock + 1) ∧
      d.Moves clock change d' (clock + 1) := by
  have sublist : (d.subs.eraseP (·.id == id)).Sublist d.subs := List.eraseP_sublist
  have ordered := valid.ordered.sublist sublist
  have fresh : ∀ s ∈ d.subs.eraseP (·.id == id), s.id < d.nextId :=
    fun s member => valid.fresh s (sublist.subset member)
  cases found : d.subs.find? (·.id == id) with
  | none =>
    refine ⟨{ d with version := clock + 1 },.none,by simp [unsubscribe,found],
      ⟨valid.counted,valid.ordered,valid.fresh⟩,?_,by omega,.inl ⟨by simp,by simp⟩⟩
    cases h : d.enabledCount <;> simp [owed]
  | some s =>
    obtain ⟨same,early,late,split,absent⟩ := List.find?_eq_some_iff_append.mp found
    have erased : d.subs.eraseP (·.id == id) = early ++ late := by
      rw [split,List.eraseP_append_right _ (by simpa using absent),List.eraseP_cons_of_pos (by exact same)]
    have counted : d.enabledCount = (d.subs.eraseP (·.id == id)).countP (·.enabled) +
        if s.enabled then 1 else 0 := by
      rw [valid.counted,erased,split,List.countP_append,List.countP_append,List.countP_cons]
      omega
    by_cases enabled : s.enabled = true
    · have positive : 0 < d.enabledCount := by simp [enabled] at counted; omega
      refine ⟨{ d with version := clock + 1, subs := d.subs.eraseP (·.id == id), enabledCount := d.enabledCount - 1 },
        if d.enabledCount - 1 = 0 then .remove else .none,?_,⟨?_,ordered,fresh⟩,?_,by omega,.inl ⟨by simp,by simp⟩⟩
      · simp only [unsubscribe,StateT.run_bind,nextVersion_run,found,enabled,Option.bind_eq_bind,
          Option.bind_some,if_true]
        exact decEnabled_run { d with version := clock + 1, subs := d.subs.eraseP (·.id == id) } positive _
      · simp [enabled] at counted ⊢; omega
      · have nonzero : d.enabledCount ≠ 0 := by omega
        simp [owed,nonzero]
    · refine ⟨{ d with version := clock + 1, subs := d.subs.eraseP (·.id == id) },.none,
        by simp [unsubscribe,found,enabled],⟨?_,ordered,fresh⟩,?_,by omega,.inl ⟨by simp,by simp⟩⟩
      · simpa [enabled] using counted
      · cases h : d.enabledCount <;> simp [owed]

/-- Errors move neither identities nor order, and every disabling is one
subscription that was enabled and counted. -/
structure Noted (subs : List (Subscription H)) (disabled : Nat) (subs' : List (Subscription H))
    (disabled' : Nat) : Prop where
  identities : subs'.map (fun s => (s.id,s.priority)) = subs.map (fun s => (s.id,s.priority))
  counted : subs'.countP (·.enabled) + disabled' = subs.countP (·.enabled) + disabled
  grows : disabled ≤ disabled'
  unmoved : disabled' = disabled → ∀ phase,
    (subs'.filter (fun s => s.enabled && s.phase == phase)).map
        (fun s => (s.id,s.priority,s.owner,s.handler)) =
      (subs.filter (fun s => s.enabled && s.phase == phase)).map
        (fun s => (s.id,s.priority,s.owner,s.handler))

theorem noteError_noted (id : Nat) (subs : List (Subscription H)) (disabled : Nat) :
    Noted subs disabled (noteError id subs).1
      (if (noteError id subs).2 then disabled + 1 else disabled) := by
  induction subs with
  | nil => exact ⟨rfl,rfl,Nat.le_refl _,fun _ _ => rfl⟩
  | cons s rest ih =>
    by_cases same : s.id = id
    · by_cases enabled : s.enabled = true
      · by_cases last : maxHandlerErrors ≤ s.errorCount + 1
        · constructor <;> simp [noteError,same,enabled,last]
          omega
        · constructor <;> simp [noteError,same,enabled,last,List.filter_cons]
          intro phase; split <;> simp [same]
      · constructor <;> simp [noteError,same,enabled]
    · have step : noteError id (s :: rest) = (s :: (noteError id rest).1,(noteError id rest).2) := by
        simp [noteError,same]
      rw [step]
      refine ⟨by simp [ih.identities],?_,ih.grows,?_⟩
      · have := ih.counted
        simp only [List.countP_cons]
        omega
      · intro still phase
        have tail := ih.unmoved still phase
        simp only [List.filter_cons]
        split <;> simp [tail]

theorem Noted.trans {a b c : List (Subscription H)} (first : Noted a n b m) (second : Noted b m c k) :
    Noted a n c k := by
  refine ⟨second.identities.trans first.identities,second.counted.trans first.counted,
    first.grows.trans second.grows,?_⟩
  intro still phase
  have := first.grows
  have := second.grows
  exact (second.unmoved (by omega) phase).trans (first.unmoved (by omega) phase)

theorem noteErrors_noted (errored : List Nat) (subs : List (Subscription H)) (disabled : Nat) :
    Noted subs disabled (noteErrors errored subs disabled).1 (noteErrors errored subs disabled).2 := by
  induction errored generalizing subs disabled with
  | nil => exact ⟨rfl,rfl,Nat.le_refl _,fun _ _ => rfl⟩
  | cons id errored ih => exact (noteError_noted id subs disabled).trans (ih _ _)

theorem decEnabledBy_run (n : Nat) (d : Descriptor H) (detour : DetourChange) (clock : Nat)
    (enough : n ≤ d.enabledCount) : (decEnabledBy n d detour).run clock =
      some (({ d with enabledCount := d.enabledCount - n },
        if 0 < n ∧ d.enabledCount - n = 0 then .remove else detour),clock) := by
  induction n generalizing d detour with
  | zero => simp [decEnabledBy]
  | succ n ih =>
    rw [decEnabledBy,StateT.run_bind,decEnabled_run d (by omega)]
    simp only [Option.bind_eq_bind,Option.bind_some]
    rw [ih _ _ (by simp only; omega)]
    simp only [Nat.sub_sub,Nat.add_comm 1 n]
    congr 3
    rcases n with _ | n
    · by_cases h : d.enabledCount - 1 = 0 <;> simp [h]
    · have : d.enabledCount - 1 ≠ 0 := by omega
      simp [this]

theorem applyErrors_moves (d : Descriptor H) (valid : d.Valid) (errored : List Nat) (clock : Nat) :
    ∃ d' change clock', (d.applyErrors errored).run clock = some ((d',change),clock') ∧
      d.Moves clock change d' clock' := by
  have noted := noteErrors_noted errored d.subs 0
  generalize result : noteErrors errored d.subs 0 = pair at noted
  obtain ⟨subs,disabled⟩ := pair
  have enough : disabled ≤ d.enabledCount := by
    have := noted.counted; have := valid.counted; simp only at *; omega
  have ordered : subs.Pairwise Precedes := by
    have keys : (d.subs.map (fun s => (s.id,s.priority))).Pairwise
        (fun s t => s.2 < t.2 ∨ s.2 = t.2 ∧ s.1 < t.1) := List.pairwise_map.mpr valid.ordered
    rw [← noted.identities] at keys
    exact (List.pairwise_map.mp keys).imp id
  have fresh : ∀ s ∈ subs, s.id < d.nextId := by
    intro s member
    have key : (s.id,s.priority) ∈ d.subs.map (fun s => (s.id,s.priority)) := by
      rw [← noted.identities]; exact List.mem_map_of_mem member
    obtain ⟨old,present,eq⟩ := List.mem_map.mp key
    have := valid.fresh old present
    simp only [Prod.mk.injEq] at eq
    omega
  have counted : d.enabledCount - disabled = subs.countP (·.enabled) := by
    have := noted.counted; have := valid.counted; simp only at *; omega
  by_cases none : disabled = 0
  · refine ⟨{ d with subs },.none,clock,?_,⟨?_,ordered,fresh⟩,?_,Nat.le_refl _,.inr ⟨rfl,?_⟩⟩
    · simp [applyErrors,result,none,decEnabledBy]
    · simpa [none] using counted
    · cases h : d.enabledCount <;> simp [owed]
    · intro phase
      exact noted.unmoved none phase
  · have some' : 0 < disabled := by omega
    refine ⟨{ d with subs, version := clock + 1, enabledCount := d.enabledCount - disabled },
      if d.enabledCount - disabled = 0 then .remove else .none,clock + 1,?_,⟨counted,ordered,fresh⟩,?_,
      by omega,.inl ⟨by simp,by simp⟩⟩
    · simp only [applyErrors,result,some',if_true,StateT.run_bind,nextVersion_run,Option.bind_eq_bind,
        Option.bind_some,StateT.run_pure,Option.pure_def]
      rw [decEnabledBy_run _ { d with subs, version := clock + 1 } _ _ enough]
      simp [some']
    · have positive : d.enabledCount ≠ 0 := by omega
      simp [owed,positive]

theorem dispatch_moves (d : Descriptor H) (valid : d.Valid) (phase : Phase)
    (invoke : H → σ → Except Unit HookResult × σ) (world : σ) (clock : Nat) :
    ∃ d' result change clock', (d.dispatch phase invoke world).run clock =
      some ((d',result,change),clock') ∧ d.Moves clock change d' clock' := by
  generalize chain : runChain ((d.snapshot phase).map (fun row => (row.1,row.2.1,row.2.2.2)))
    invoke world = out
  obtain ⟨d',change,clock',run,moves⟩ := applyErrors_moves d valid out.1.2 clock
  refine ⟨d',out.1.1,change,clock',?_,moves⟩
  simp [dispatch,chain,run]

/-- A caller's operation on one descriptor. `elsewhere` is a version drawn by
another store of the thread; `dispatch` answers its n-th call by `answers n`. -/
inductive Op (H : Type) where
  | subscribe (priority : Priority) (phase : Phase) (owner : String) (handler : H)
  | unsubscribe (id : Nat)
  | removeByOwner (owner : String)
  | applyErrors (errored : List Nat)
  | dispatch (phase : Phase) (answers : Nat → H → Except Unit HookResult)
  | elsewhere

def perform (d : Descriptor H) : Op H → Host (Descriptor H × DetourChange)
  | .subscribe priority phase owner handler => do
    let (d,_,change) ← d.subscribe priority phase owner handler
    pure (d,change)
  | .unsubscribe id => d.unsubscribe id
  | .removeByOwner owner => d.removeByOwner owner
  | .applyErrors errored => d.applyErrors errored
  | .dispatch phase answers => do
    let (d,_,change) ← d.dispatch phase (fun handler calls => (answers calls handler,calls + 1)) 0
    pure (d,change)
  | .elsewhere => do
    let _ ← nextVersion
    pure (d,.none)

/-- The descriptor after a run, and the detour requests it made, in order. -/
def execute : List (Op H) → Descriptor H → Host (Descriptor H × List DetourChange)
  | [], d => pure (d,[])
  | op :: ops, d => do
    let (d,change) ← d.perform op
    let (d,changes) ← execute ops d
    pure (d,if change = .none then changes else change :: changes)

theorem perform_moves (d : Descriptor H) (valid : d.Valid) (op : Op H) (clock : Nat) :
    ∃ d' change clock', (d.perform op).run clock = some ((d',change),clock') ∧
      d.Moves clock change d' clock' := by
  cases op with
  | subscribe priority phase owner handler =>
    obtain ⟨d',change,run,moves⟩ := subscribe_moves d valid priority phase owner handler clock
    exact ⟨d',change,_,by simp [perform,run],moves⟩
  | unsubscribe id =>
    obtain ⟨d',change,run,moves⟩ := unsubscribe_moves d valid id clock
    exact ⟨d',change,_,run,moves⟩
  | removeByOwner owner =>
    obtain ⟨d',change,run,moves⟩ := removeByOwner_moves d valid owner clock
    exact ⟨d',change,_,run,moves⟩
  | applyErrors errored => exact applyErrors_moves d valid errored clock
  | dispatch phase answers =>
    obtain ⟨d',_,change,clock',run,moves⟩ := dispatch_moves d valid phase
      (fun handler calls => (answers calls handler,calls + 1)) 0 clock
    exact ⟨d',change,clock',by simp [perform,run],moves⟩
  | elsewhere =>
    refine ⟨d,.none,clock + 1,by simp [perform],valid,?_,by omega,.inr ⟨rfl,fun _ => rfl⟩⟩
    cases h : d.enabledCount <;> simp [owed]

/-- Install, Remove, Install, ... from the side the detour starts on. -/
def Alternates (installed : Bool) : List DetourChange → Prop
  | [] => True
  | change :: changes => change = (if installed then .remove else .install) ∧ Alternates (!installed) changes

/-- Where an alternating list of requests leaves the detour. -/
def installedAfter (installed : Bool) (changes : List DetourChange) : Bool :=
  match changes.getLast? with
  | none => installed
  | some change => change = .install

theorem installedAfter_cons (installed : Bool) (change : DetourChange) (changes : List DetourChange) :
    installedAfter installed (change :: changes) = installedAfter (change = .install) changes := by
  cases changes with
  | nil => simp [installedAfter]
  | cons next rest => simp [installedAfter,List.getLast?_cons]

theorem owed_eq_none_iff : owed before after = .none ↔ (before = 0 ↔ after = 0) := by
  unfold owed; split <;> split <;> simp_all

theorem owed_eq_of_ne (moved : owed before after ≠ .none) :
    owed before after = (if decide (0 < before) then .remove else .install) ∧
      decide (0 < after) = !decide (0 < before) := by
  unfold owed at *
  rcases before with _ | before <;> rcases after with _ | after <;> simp_all

/-- Every run succeeds, so no decrement underflows; its requests alternate from
the side the descriptor started on and its version separates unequal snapshots. -/
theorem execute_sound (ops : List (Op H)) (d : Descriptor H) (valid : d.Valid) (clock : Nat)
    (drawn : d.version ≤ clock) :
    ∃ d' changes clock', (execute ops d).run clock = some ((d',changes),clock') ∧ d'.Valid ∧
      d'.version ≤ clock' ∧ Alternates (decide (0 < d.enabledCount)) changes ∧
      installedAfter (decide (0 < d.enabledCount)) changes = decide (0 < d'.enabledCount) ∧
      d.version ≤ d'.version ∧
      (d'.version = d.version → ∀ phase, d'.snapshot phase = d.snapshot phase) := by
  induction ops generalizing d clock with
  | nil => exact ⟨d,[],clock,rfl,valid,drawn,trivial,rfl,Nat.le_refl _,fun _ _ => rfl⟩
  | cons op ops ih =>
    obtain ⟨mid,change,now,run,moves⟩ := perform_moves d valid op clock
    have midDrawn : mid.version ≤ now := by
      have := moves.later
      rcases moves.version with h | h <;> omega
    obtain ⟨d',changes,clock',rest,valid',drawn',alternates,last,grows,same⟩ :=
      ih mid moves.valid now midDrawn
    have grown : d.version ≤ mid.version ∧
        (mid.version = d.version → ∀ phase, mid.snapshot phase = d.snapshot phase) := by
      rcases moves.version with h | h
      · exact ⟨by omega,fun eq => by omega⟩
      · exact ⟨by omega,fun _ => h.2⟩
    refine ⟨d',if change = .none then changes else change :: changes,clock',?_,valid',drawn',?_,?_,
      grown.1.trans grows,?_⟩
    · simp [execute,run,rest]
    · by_cases quiet : change = .none
      · have side := owed_eq_none_iff.mp (moves.request ▸ quiet)
        simpa [quiet,Nat.pos_iff_ne_zero,side] using alternates
      · have request := moves.request
        obtain ⟨asked,flip⟩ := owed_eq_of_ne (request ▸ quiet)
        simp only [quiet,if_false,Alternates]
        exact ⟨request.trans asked,flip ▸ alternates⟩
    · by_cases quiet : change = .none
      · have side := owed_eq_none_iff.mp (moves.request ▸ quiet)
        simpa [quiet,Nat.pos_iff_ne_zero,side] using last
      · have request := moves.request
        obtain ⟨asked,flip⟩ := owed_eq_of_ne (request ▸ quiet)
        have installs : decide (change = .install) = decide (0 < mid.enabledCount) := by
          rw [flip,request,asked]
          cases decide (0 < d.enabledCount) <;> simp
        simpa [quiet,installedAfter_cons,installs] using last
    · intro eq phase
      have := grown.1
      exact (same (by omega) phase).trans (grown.2 (by omega) phase)

theorem alternates_append (installed : Bool) (early late : List DetourChange)
    (first : Alternates installed early) (second : Alternates (installedAfter installed early) late) :
    Alternates installed (early ++ late) := by
  induction early generalizing installed with
  | nil => exact second
  | cons change early ih =>
    refine ⟨first.1,ih _ first.2 ?_⟩
    have side : decide (change = .install) = !installed := by
      rw [first.1]; cases installed <;> rfl
    rwa [installedAfter_cons,side] at second

theorem installedAfter_append (installed : Bool) (early late : List DetourChange) :
    installedAfter installed (early ++ late) =
      installedAfter (installedAfter installed early) late := by
  induction early generalizing installed with
  | nil => rfl
  | cons change early ih => simp only [List.cons_append,installedAfter_cons,ih]

/-- Any two points of any run of a fresh descriptor: the run succeeds, the count and
the order are exact, and the requests made so far match the enabled set. -/
theorem requests_match_subscribers (name : String) (clock : Nat) (before after : List (Op H)) :
    ∃ d clock₁ early d' clock₂ late,
      (do let d ← new name; execute before d).run clock = some ((d,early),clock₁) ∧
      (execute after d).run clock₁ = some ((d',late),clock₂) ∧
      d'.enabledCount = (d'.subs.filter (·.enabled)).length ∧
      d'.subs.Pairwise Precedes ∧
      Alternates false (early ++ late) ∧
      ((early ++ late).getLast? = some .install ↔ ∃ s ∈ d'.subs, s.enabled = true) ∧
      ∀ phase, d.snapshot phase ≠ d'.snapshot phase → d.version ≠ d'.version := by
  obtain ⟨d,early,clock₁,run,valid,drawn,alternates,last,_⟩ := execute_sound before
    (⟨name,[],1,0,clock + 1⟩ : Descriptor H) (new_valid name _) (clock + 1) (Nat.le_refl _)
  obtain ⟨d',late,clock₂,rest,valid',_,alternates',last',_,same⟩ :=
    execute_sound after d valid clock₁ drawn
  refine ⟨d,clock₁,early,d',clock₂,late,?_,rest,?_,valid'.ordered,?_,?_,?_⟩
  · rw [StateT.run_bind,new_run]
    exact run
  · rw [valid'.counted,List.countP_eq_length_filter]
  · exact alternates_append false early late alternates (last ▸ alternates')
  · have side : installedAfter false (early ++ late) = decide (0 < d'.enabledCount) := by
      rw [installedAfter_append,show false = decide (0 < 0) from rfl,last,last']
    have install : (early ++ late).getLast? = some .install ↔
        installedAfter false (early ++ late) = true := by
      cases h : (early ++ late).getLast? <;> simp [installedAfter,h]
    rw [install,side,decide_eq_true_iff,valid'.counted,List.countP_pos_iff]
  · intro phase differ eq
    exact differ (same eq.symm phase).symm

end Descriptor
end S2Script.Multiplexer
