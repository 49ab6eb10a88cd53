import S2Script.EngineCopyBudgetAccounts

/-! What every step of native copy admission keeps: each state is held by as many objects as
it counts, and the books are the sums over the states and their leases. -/
namespace S2Script.EngineFunctionCopy

open AsyncLimits OneChange

/-- Objects that keep a state alive. -/
def World.handles (w : World) (id : Nat) : Nat :=
  w.operations.count (some id) + (w.leases.map Lease.state).count (some id) + w.closing.count id

/-- Bytes of the leases on a state. -/
def World.leased (w : World) (id : Nat) : Nat :=
  (w.leases.map fun l => if l.state = some id then l.bytes else 0).sum

/-- Operations that are charged: the states, and the freed ones whose destructor has not yet returned
their charge. -/
def World.live (w : World) : List Nat := w.states.keys ++ w.settling.map Prod.fst

def inRow (r : Index) (_ : Nat) (s : OperationState) : Nat := if s.row = r then 1 else 0

def bytesIn (r : Index) (_ : Nat) (s : OperationState) : Nat := if s.row = r then s.bytes else 0

def World.count (w : World) (r : Index) : Nat := w.states.weight (inRow r) + (w.settling.map Prod.snd).count r

def World.load (w : World) (r : Index) : Nat :=
  w.states.weight (bytesIn r) + operationStateSize * (w.settling.map Prod.snd).count r

/-- What every step keeps. -/
structure Exact (w : World) : Prop where
  books : Books w.budget w.count w.load
  refs : ∀ id s, w.states.lookup id = some s → s.refs = w.handles id ∧ 0 < s.refs
  alive : ∀ id, 0 < w.handles id → id ∈ w.states
  bytes : ∀ id s, w.states.lookup id = some s → s.bytes = operationStateSize + w.leased id
  limit : ∀ id s, w.states.lookup id = some s → s.bytes ≤ OperationBytes
  keyed : ∀ id s, w.states.lookup id = some s → (w.budget.owners s.row).key = w.begun id
  settled : ∀ p ∈ w.settling, (w.budget.owners p.2).key = w.begun p.1
  fresh : ∀ id ∈ w.states, id < w.next
  freed : ∀ p ∈ w.settling, p.1 ∉ w.states ∧ p.1 < w.next
  once : (w.settling.map Prod.fst).Nodup

theorem Exact.new : Exact .new where
  books := by
    have zero : World.count .new = fun _ => 0 := rfl
    have none : World.load .new = fun _ => 0 := rfl
    rw [zero,none]
    exact Books.new
  refs := by simp [World.new]
  alive := by simp [World.new,World.handles]
  bytes := by simp [World.new]
  limit := by simp [World.new]
  keyed := by simp [World.new]
  settled := by simp [World.new]
  fresh := by simp [World.new]
  freed := by simp [World.new]
  once := by simp [World.new]

theorem swapAt_perm {α : Type} (l : List α) (i j : Nat) : (swapAt l i j).Perm l := by
  rw [swapAt]
  split
  next a b atI atJ =>
    obtain ⟨boundI,rfl⟩ := List.getElem?_eq_some_iff.mp atI
    obtain ⟨boundJ,rfl⟩ := List.getElem?_eq_some_iff.mp atJ
    exact List.set_set_perm boundI boundJ
  next => exact .refl _

variable {w : World}

/-- Moving handles about changes nothing. -/
theorem Exact.rearrange (exact : Exact w) {operations : List (Option Nat)} {leases : List Lease} {closing : List Nat}
    (handles : ∀ id, World.handles { w with operations, leases, closing } id = w.handles id)
    (leased : ∀ id, World.leased { w with operations, leases, closing } id = w.leased id) :
    Exact { w with operations, leases, closing } where
  books := exact.books
  refs id s here := by
    rw [handles]
    exact exact.refs id s here
  alive id held := exact.alive id (by rwa [handles] at held)
  bytes id s here := by
    rw [leased]
    exact exact.bytes id s here
  limit := exact.limit
  keyed := exact.keyed
  settled := exact.settled
  fresh := exact.fresh
  freed := exact.freed
  once := exact.once

theorem Exact.setOperations (exact : Exact w) {operations : List (Option Nat)}
    (same : ∀ id, operations.count (some id) = w.operations.count (some id)) : Exact { w with operations } :=
  exact.rearrange (fun id => by simp [World.handles,same]) fun _ => rfl

theorem Exact.setLeases (exact : Exact w) {leases : List Lease}
    (states : ∀ id, (leases.map Lease.state).count (some id) = (w.leases.map Lease.state).count (some id))
    (bytes : ∀ id, (leases.map fun l => if l.state = some id then l.bytes else 0).sum = w.leased id) :
    Exact { w with leases } :=
  exact.rearrange (fun id => by simp [World.handles,states]) bytes

theorem Exact.emptyOperation (exact : Exact w) : Exact { w with operations := w.operations ++ [none] } :=
  exact.setOperations fun id => by simp

theorem Exact.emptyLease (exact : Exact w) : Exact { w with leases := w.leases ++ [⟨none,0⟩] } :=
  exact.setLeases (fun id => by simp) fun id => by simp [World.leased]

theorem Exact.moveOperation (exact : Exact w) (i : Nat) : Exact (w.moveOperation i) := by
  rw [World.moveOperation]
  split
  next => exact exact
  next h here =>
    refine exact.setOperations fun id => ?_
    rw [(move_perm here none).count_eq]
    simp

theorem Exact.swapOperations (exact : Exact w) (i j : Nat) : Exact (w.swapOperations i j) :=
  exact.setOperations fun _ => (swapAt_perm _ i j).count_eq _

theorem Exact.destroyOperation (exact : Exact w) (i : Nat) : Exact (w.destroyOperation i) := by
  rw [World.destroyOperation]
  split
  next => exact exact
  next h here =>
    refine exact.rearrange (fun id => ?_) fun _ => rfl
    simp only [World.handles,(eraseIdx_perm here).count_eq (some id),List.count_append]
    cases h with
    | none => simp
    | some other =>
      simp only [Option.toList_some,List.count_cons,List.count_nil,beq_iff_eq,Option.some.injEq]
      omega

theorem Exact.moveLease (exact : Exact w) (i : Nat) : Exact (w.moveLease i) := by
  rw [World.moveLease]
  split
  next => exact exact
  next l here =>
    have moved := move_perm here ⟨none,l.bytes⟩
    refine exact.setLeases (fun id => ?_) fun id => ?_
    · rw [(moved.map Lease.state).count_eq]
      simp
    · rw [(moved.map _).sum_eq]
      simp [World.leased]

theorem Exact.swapLeases (exact : Exact w) (i j : Nat) : Exact (w.swapLeases i j) :=
  exact.setLeases (fun _ => ((swapAt_perm _ i j).map _).count_eq _) fun _ => ((swapAt_perm _ i j).map _).sum_eq

theorem count_pos {id : Nat} {s : OperationState} (here : w.states.lookup id = some s) : w.count s.row ≠ 0 := by
  have := Table.charge_le_weight (inRow s.row) here
  simp only [inRow,if_true] at this
  rw [World.count]
  omega

theorem settling_pos {p : Nat × Index} (member : p ∈ w.settling) : w.count p.2 ≠ 0 := by
  have := List.count_pos_iff.mpr (List.mem_map_of_mem (f := Prod.snd) member)
  rw [World.count]
  omega

theorem operationStateSize_le : operationStateSize ≤ OperationBytes := by decide

/-- A row without operations holds no bytes of any. -/
theorem load_zero {r : Index} (zero : w.count r = 0) : w.load r = 0 := by
  have states : w.states.weight (inRow r) = 0 := by
    rw [World.count] at zero
    omega
  have settling : (w.settling.map Prod.snd).count r = 0 := by
    rw [World.count] at zero
    omega
  rw [World.load,settling]
  simp only [Table.weight,List.sum_eq_zero_iff,List.mem_map,forall_exists_index,and_imp,
    forall_apply_eq_imp_iff₂,Nat.mul_zero,Nat.add_zero] at states ⊢
  intro entry member
  have other := states entry member
  rw [inRow] at other
  rw [bytesIn,if_neg (by simpa using other)]

theorem leased_zero {id : Nat} (zero : w.handles id = 0) : w.leased id = 0 := by
  simp only [World.handles,Nat.add_eq_zero_iff,List.count_eq_zero,List.mem_map,not_exists,not_and] at zero
  simp only [World.leased,List.sum_eq_zero_iff,List.mem_map,forall_exists_index,and_imp,forall_apply_eq_imp_iff₂]
  intro l member
  rw [if_neg (zero.1.2 l member)]

/-- A state that stays in its row is rewritten. -/
theorem Exact.change (exact : Exact w) {id : Nat} {s s' : OperationState} (here : w.states.lookup id = some s)
    {budget : Budget} {operations : List (Option Nat)} {leases : List Lease} {closing : List Nat} {load : Nat}
    {w' : World} (moved : w' = { w with budget, states := w.states.insert id s', operations, leases, closing })
    (row : s'.row = s.row)
    (keys : ∀ r, (budget.owners r).key = (w.budget.owners r).key)
    (books : Books budget w.count (Function.update w.load s.row load)) (total : load + s.bytes = w.load s.row + s'.bytes)
    (handles : ∀ other, other ≠ id → w'.handles other = w.handles other)
    (leased : ∀ other, other ≠ id → w'.leased other = w.leased other)
    (refs : s'.refs = w'.handles id) (positive : 0 < s'.refs)
    (bytes : s'.bytes = operationStateSize + w'.leased id) (limit : s'.bytes ≤ OperationBytes) : Exact w' := by
  have states : ∀ other t, w'.states.lookup other = some t →
      other = id ∧ t = s' ∨ other ≠ id ∧ w.states.lookup other = some t := by
    intro other t found
    rw [moved] at found
    exact Table.lookup_insert_cases found
  have counts : w'.count = w.count := by
    funext r
    have := Table.weight_change (inRow r) here s'
    simp only [moved,World.count]
    simp only [inRow,row] at this
    omega
  have loads : w'.load = Function.update w.load s.row load := by
    funext r
    have change := Table.weight_change (bytesIn r) here s'
    simp only [bytesIn,row] at change
    rcases eq_or_ne r s.row with rfl | other
    · simp only [moved,World.load,Function.update_self]
      simp only [World.load] at total
      simp only [if_true] at change
      omega
    · rw [if_neg other.symm,if_neg other.symm] at change
      rw [Function.update_of_ne other]
      simp only [moved,World.load]
      omega
  have members : ∀ other, other ∈ w'.states ↔ other ∈ w.states := by
    intro other
    rw [moved,AList.mem_insert,or_iff_right_of_imp]
    rintro rfl
    exact Table.mem_of_lookup here
  constructor
  · rw [counts,loads,moved]
    exact books
  · intro other t found
    obtain ⟨rfl,rfl⟩ | ⟨different,found⟩ := states other t found
    · exact ⟨refs,positive⟩
    · rw [handles other different]
      exact exact.refs other t found
  · intro other held
    rw [members]
    rcases eq_or_ne other id with rfl | different
    · exact Table.mem_of_lookup here
    · exact exact.alive other (by rwa [handles other different] at held)
  · intro other t found
    obtain ⟨rfl,rfl⟩ | ⟨different,found⟩ := states other t found
    · exact bytes
    · rw [leased other different]
      exact exact.bytes other t found
  · intro other t found
    obtain ⟨rfl,rfl⟩ | ⟨_,found⟩ := states other t found
    · exact limit
    · exact exact.limit other t found
  · intro other t found
    obtain ⟨rfl,rfl⟩ | ⟨_,found⟩ := states other t found
    · simp only [moved,keys,row]
      exact exact.keyed other s here
    · simp only [moved,keys]
      exact exact.keyed other t found
  · intro p member
    simp only [moved] at member ⊢
    rw [keys]
    exact exact.settled p member
  · intro other member
    rw [members] at member
    simpa [moved] using exact.fresh other member
  · intro p member
    rw [members]
    simp only [moved] at member ⊢
    exact exact.freed p member
  · simpa [moved] using exact.once

theorem Exact.lookup (exact : Exact w) (id : Nat) (held : 0 < w.handles id) : ∃ s, w.states.lookup id = some s :=
  Table.lookup_of_mem (exact.alive id held)

end S2Script.EngineFunctionCopy
