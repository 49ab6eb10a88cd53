import Mathlib

/-! Application admission accounting. Each critical section of the budget's mutex is one
step; `grow` and `shrink` are several, so holders interleave between them. -/
namespace S2Script.AsyncLimits

abbrev Owner := Option (String × Nat)

inductive AdmissionError where
  | queueFull
  | payloadTooLarge
  | cancelled
deriving DecidableEq, Repr

structure Gauge where
  items : Nat
  bytes : Nat
  rejected : Nat
deriving DecidableEq, Repr

/-- `limits: [usize; 4]`. -/
structure Limits where
  items : Nat
  bytes : Nat
  ownerItems : Nat
  ownerBytes : Nat

structure State where
  total : Gauge
  owners : Std.HashMap Owner Gauge

def State.default : State := ⟨⟨0,0,0⟩,∅⟩

structure Lease where
  owner : Owner
  items : Nat
  bytes : Nat
deriving DecidableEq, Repr

def Limits.impossible (limits : Limits) (items bytes : Nat) : Prop :=
  limits.items < items ∨ limits.bytes < bytes ∨ limits.ownerItems < items ∨ limits.ownerBytes < bytes

instance (limits : Limits) (items bytes : Nat) : Decidable (limits.impossible items bytes) :=
  inferInstanceAs (Decidable (_ ∨ _ ∨ _ ∨ _))

/-- The tests against what is already held; Rust's `saturating_sub` is subtraction here. -/
def Limits.full (limits : Limits) (total o : Gauge) (items bytes : Nat) : Prop :=
  limits.items - total.items < items ∨ limits.bytes - total.bytes < bytes ∨
    limits.ownerItems - o.items < items ∨ limits.ownerBytes - o.bytes < bytes

instance (limits : Limits) (total o : Gauge) (items bytes : Nat) : Decidable (limits.full total o items bytes) :=
  inferInstanceAs (Decidable (_ ∨ _ ∨ _ ∨ _))

/-- `rejected.saturating_add(1)` on a `u64`. -/
def State.reject (s : State) : State :=
  { s with total := { s.total with rejected := min (s.total.rejected + 1) (2 ^ 64 - 1) } }

def acquire (limits : Limits) (s : State) (owner : Owner) (items bytes : Nat) :
    State × Except AdmissionError Lease :=
  let o := (s.owners[owner]?).getD ⟨0,0,0⟩
  if limits.impossible items bytes ∨ limits.full s.total o items bytes then
    (s.reject,.error (if limits.impossible items bytes then .payloadTooLarge else .queueFull))
  else
    ({ total := { s.total with items := s.total.items + items, bytes := s.total.bytes + bytes }
       owners := s.owners.insert owner { o with items := o.items + items, bytes := o.bytes + bytes } },
      .ok ⟨owner,items,bytes⟩)

/-- `usize` subtraction. No result is the overflow. -/
def less (a b : Nat) : Option Nat := if b ≤ a then some (a - b) else none

/-- `Drop for Lease`. No result is an overflow or a missed owner lookup. -/
def Lease.drop (lease : Lease) (s : State) : Option State := do
  let items ← less s.total.items lease.items
  let bytes ← less s.total.bytes lease.bytes
  let o ← s.owners[lease.owner]?
  let ownerItems ← less o.items lease.items
  let ownerBytes ← less o.bytes lease.bytes
  pure {
    total := { s.total with items, bytes }
    owners := if ownerItems = 0 ∧ ownerBytes = 0 then s.owners.erase lease.owner
      else s.owners.insert lease.owner { o with items := ownerItems, bytes := ownerBytes } }

/-- `shrink` before it takes the lock. -/
def Lease.shrink (lease : Lease) (bytes : Nat) : Lease × Nat :=
  ({ lease with bytes := lease.bytes - min bytes lease.bytes },min bytes lease.bytes)

/-- `shrink` under the lock. -/
def Lease.giveBack (lease : Lease) (bytes : Nat) (s : State) : Option State := do
  let total ← less s.total.bytes bytes
  let o ← s.owners[lease.owner]?
  let ownerBytes ← less o.bytes bytes
  pure {
    total := { s.total with bytes := total }
    owners := s.owners.insert lease.owner { o with bytes := ownerBytes } }

/-- Where the exclusive borrower of a lease stands inside `grow` or `shrink`. -/
inductive Stage where
  | idle
  | acquired (extra : Lease)
  | moved (extra : Lease)
  | shrinking (bytes : Nat)

structure Holder where
  lease : Lease
  stage : Stage

structure System where
  state : State
  holders : List Holder

def System.new : System := ⟨.default,[]⟩

inductive Action where
  | acquire (owner : Owner) (items bytes : Nat) (positive : 0 < items)
  | grow (holder bytes : Nat)
  | move (holder : Nat)
  | dropExtra (holder : Nat)
  | shrink (holder bytes : Nat)
  | giveBack (holder : Nat)
  | drop (holder : Nat)

inductive Reply where
  | admitted
  | refused (error : AdmissionError)
  | done

/-- One step of one holder. An action its holder is not ready for does nothing. -/
def System.advance (limits : Limits) (sys : System) : Action → Option (System × Reply)
  | .acquire owner items bytes _ =>
    match AsyncLimits.acquire limits sys.state owner items bytes with
    | (s,.ok lease) => some (⟨s,sys.holders ++ [⟨lease,.idle⟩]⟩,.admitted)
    | (s,.error e) => some (⟨s,sys.holders⟩,.refused e)
  | .grow i bytes =>
    match sys.holders[i]? with
    | some ⟨lease,.idle⟩ =>
      match AsyncLimits.acquire limits sys.state lease.owner 0 bytes with
      | (s,.ok extra) => some (⟨s,sys.holders.set i ⟨lease,.acquired extra⟩⟩,.admitted)
      | (s,.error e) => some (⟨s,sys.holders⟩,.refused e)
    | _ => some (sys,.done)
  | .move i =>
    match sys.holders[i]? with
    | some ⟨lease,.acquired extra⟩ =>
      some (⟨sys.state,sys.holders.set i
        ⟨{ lease with bytes := lease.bytes + extra.bytes },.moved { extra with bytes := 0 }⟩⟩,.done)
    | _ => some (sys,.done)
  | .dropExtra i =>
    match sys.holders[i]? with
    | some ⟨lease,.moved extra⟩ => do
      let s ← extra.drop sys.state
      pure (⟨s,sys.holders.set i ⟨lease,.idle⟩⟩,.done)
    | _ => some (sys,.done)
  | .shrink i bytes =>
    match sys.holders[i]? with
    | some ⟨lease,.idle⟩ =>
      some (⟨sys.state,sys.holders.set i ⟨(lease.shrink bytes).1,.shrinking (lease.shrink bytes).2⟩⟩,.done)
    | _ => some (sys,.done)
  | .giveBack i =>
    match sys.holders[i]? with
    | some ⟨lease,.shrinking bytes⟩ => do
      let s ← lease.giveBack bytes sys.state
      pure (⟨s,sys.holders.set i ⟨lease,.idle⟩⟩,.done)
    | _ => some (sys,.done)
  | .drop i =>
    match sys.holders[i]? with
    | some ⟨lease,.idle⟩ => do
      let s ← lease.drop sys.state
      pure (⟨s,sys.holders.eraseIdx i⟩,.done)
    | _ => some (sys,.done)

def execute (limits : Limits) : List Action → System → Option System
  | [], sys => some sys
  | action :: actions, sys => do
    let (sys,_) ← sys.advance limits action
    execute limits actions sys

/-- The second lease `grow` holds until it returns. -/
def Stage.extra : Stage → List Lease
  | .acquired extra => [extra]
  | .moved extra => [extra]
  | _ => []

/-- Bytes a `shrink` has taken off its lease and not yet given back. -/
def Stage.owed : Stage → Nat
  | .shrinking bytes => bytes
  | _ => 0

def Holder.leases (h : Holder) : List Lease := h.lease :: h.stage.extra

def Holder.items (h : Holder) : Nat := (h.leases.map (·.items)).sum

def Holder.bytes (h : Holder) : Nat := (h.leases.map (·.bytes)).sum + h.stage.owed

def heldBy (holders : List Holder) (owner : Owner) : List Holder := holders.filter (·.lease.owner == owner)

/-- The gauge an owner should have: none without a holder, else the sums. -/
def gauge (holders : List Holder) (owner : Owner) : Option Gauge :=
  if heldBy holders owner = [] then none
  else some ⟨((heldBy holders owner).map Holder.items).sum,((heldBy holders owner).map Holder.bytes).sum,0⟩

/-- Every `extra` rides on a live lease of the same owner and never counts an item. -/
structure Holder.Valid (h : Holder) : Prop where
  positive : 0 < h.lease.items
  extra : ∀ e ∈ h.stage.extra, e.owner = h.lease.owner ∧ e.items = 0
  moved : ∀ e, h.stage = .moved e → e.bytes = 0

/-- The gauges are the sums over the holders. -/
structure Books (s : State) (holders : List Holder) : Prop where
  items : s.total.items = (holders.map Holder.items).sum
  bytes : s.total.bytes = (holders.map Holder.bytes).sum
  owners : ∀ owner, s.owners[owner]? = gauge holders owner

structure Within (limits : Limits) (s : State) : Prop where
  items : s.total.items ≤ limits.items
  bytes : s.total.bytes ≤ limits.bytes
  owners : ∀ (owner : Owner) (g : Gauge), s.owners[owner]? = some g →
    g.items ≤ limits.ownerItems ∧ g.bytes ≤ limits.ownerBytes

structure Invariant (limits : Limits) (sys : System) : Prop where
  valid : ∀ h ∈ sys.holders, h.Valid
  books : Books sys.state sys.holders
  within : Within limits sys.state

/-- The books with one holder set apart from the rest. -/
structure Around (s : State) (rest : List Holder) (owner : Owner) (items bytes : Nat) : Prop where
  totalItems : s.total.items = (rest.map Holder.items).sum + items
  totalBytes : s.total.bytes = (rest.map Holder.bytes).sum + bytes
  owners : ∀ o, s.owners[o]? = if owner = o then
    some ⟨((heldBy rest o).map Holder.items).sum + items,((heldBy rest o).map Holder.bytes).sum + bytes,0⟩
    else gauge rest o

theorem gauge_around (early late : List Holder) (h : Holder) (o : Owner) :
    gauge (early ++ h :: late) o = if h.lease.owner = o then
      some ⟨((heldBy (early ++ late) o).map Holder.items).sum + h.items,
        ((heldBy (early ++ late) o).map Holder.bytes).sum + h.bytes,0⟩
      else gauge (early ++ late) o := by
  by_cases same : h.lease.owner = o
  · simp [gauge,heldBy,same]
    omega
  · simp [gauge,heldBy,same]

theorem books_around {s : State} {early late : List Holder} {h : Holder} :
    Books s (early ++ h :: late) ↔ Around s (early ++ late) h.lease.owner h.items h.bytes := by
  have items : ((early ++ h :: late).map Holder.items).sum = ((early ++ late).map Holder.items).sum + h.items := by
    simp; omega
  have bytes : ((early ++ h :: late).map Holder.bytes).sum = ((early ++ late).map Holder.bytes).sum + h.bytes := by
    simp; omega
  constructor
  · intro books
    exact ⟨items ▸ books.items,bytes ▸ books.bytes,fun o => by rw [books.owners,gauge_around]⟩
  · intro around
    exact ⟨items ▸ around.totalItems,bytes ▸ around.totalBytes,fun o => by rw [gauge_around]; exact around.owners o⟩

theorem gauge_none {holders : List Holder} {o : Owner} (none : gauge holders o = none) : heldBy holders o = [] := by
  by_contra held
  simp [gauge,held] at none

theorem acquire_error {limits : Limits} {s s' : State} {owner : Owner} {items bytes : Nat} {e : AdmissionError}
    (refused : acquire limits s owner items bytes = (s',.error e)) :
    s' = s.reject ∧ e = if limits.impossible items bytes then .payloadTooLarge else .queueFull := by
  rw [acquire] at refused
  split at refused <;> simp_all

theorem acquire_ok {limits : Limits} {s s' : State} {owner : Owner} {items bytes : Nat} {lease : Lease}
    (admitted : acquire limits s owner items bytes = (s',.ok lease)) :
    ¬ limits.impossible items bytes ∧ ¬ limits.full s.total ((s.owners[owner]?).getD ⟨0,0,0⟩) items bytes ∧
      lease = ⟨owner,items,bytes⟩ ∧
      s'.total = ⟨s.total.items + items,s.total.bytes + bytes,s.total.rejected⟩ ∧
      s'.owners = s.owners.insert owner ⟨((s.owners[owner]?).getD ⟨0,0,0⟩).items + items,
        ((s.owners[owner]?).getD ⟨0,0,0⟩).bytes + bytes,((s.owners[owner]?).getD ⟨0,0,0⟩).rejected⟩ := by
  rw [acquire] at admitted
  split at admitted
  · simp at admitted
  next open_ =>
    rw [not_or] at open_
    simp only [Prod.mk.injEq,Except.ok.injEq] at admitted
    obtain ⟨rfl,rfl⟩ := admitted
    exact ⟨open_.1,open_.2,rfl,rfl,rfl⟩

theorem Within.acquire {limits : Limits} {s s' : State} {owner : Owner} {items bytes : Nat} {lease : Lease}
    (within : Within limits s) (admitted : acquire limits s owner items bytes = (s',.ok lease)) :
    Within limits s' := by
  obtain ⟨possible,room,_,total,owners⟩ := acquire_ok admitted
  simp only [Limits.full,Limits.impossible,not_or,Nat.not_lt] at room possible
  have := within.items
  have := within.bytes
  refine ⟨by rw [total]; simp only; omega,by rw [total]; simp only; omega,?_⟩
  intro o g found
  rw [owners,Std.HashMap.getElem?_insert] at found
  split at found
  next =>
    obtain rfl := Option.some.inj found
    simp only
    cases held : s.owners[owner]? with
    | none => simp [held] at room ⊢; omega
    | some old =>
      have := within.owners owner old held
      simp [held] at room ⊢; omega
  next => exact within.owners o g found

theorem Within.reject {limits : Limits} {s : State} (within : Within limits s) : Within limits s.reject :=
  ⟨within.items,within.bytes,within.owners⟩

theorem Books.reject {s : State} {holders : List Holder} (books : Books s holders) : Books s.reject holders :=
  ⟨books.items,books.bytes,books.owners⟩

/-- A first lease charges an owner that may have had no gauge. -/
theorem Books.acquire {limits : Limits} {s s' : State} {holders : List Holder} {owner : Owner} {items bytes : Nat}
    {lease : Lease} (books : Books s holders) (admitted : acquire limits s owner items bytes = (s',.ok lease)) :
    Around s' holders owner items bytes := by
  obtain ⟨_,_,_,total,owners⟩ := acquire_ok admitted
  refine ⟨by rw [total,← books.items],by rw [total,← books.bytes],?_⟩
  intro o
  rw [owners,Std.HashMap.getElem?_insert]
  by_cases same : owner = o
  · subst same
    rw [books.owners]
    cases held : gauge holders owner with
    | none => simp [gauge_none held]
    | some g =>
      have nonempty : heldBy holders owner ≠ [] := by
        intro empty
        simp [gauge,empty] at held
      simp only [gauge,if_neg nonempty,Option.some.injEq] at held
      simp [← held]
  · simp [same,books.owners]

/-- A further charge to an owner that is set apart already. -/
theorem Around.acquire {limits : Limits} {s s' : State} {rest : List Holder} {owner : Owner}
    {items bytes more extra : Nat} {lease : Lease} (around : Around s rest owner items bytes)
    (admitted : acquire limits s owner more extra = (s',.ok lease)) :
    Around s' rest owner (items + more) (bytes + extra) := by
  obtain ⟨_,_,_,total,owners⟩ := acquire_ok admitted
  refine ⟨by rw [total,around.totalItems]; simp only; omega,by rw [total,around.totalBytes]; simp only; omega,?_⟩
  intro o
  rw [owners,Std.HashMap.getElem?_insert,around.owners owner]
  by_cases same : owner = o
  · subst same
    simp [Nat.add_assoc]
  · simp [same,around.owners]

theorem less_eq {a b c : Nat} (sum : a = c + b) : less a b = some c := by
  rw [less,if_pos (by omega)]
  congr 1; omega

/-- Bytes given back by a holder that keeps its items. -/
theorem Around.giveBack {s : State} {rest : List Holder} {lease : Lease} {items bytes back : Nat}
    (around : Around s rest lease.owner items (bytes + back)) :
    ∃ s', lease.giveBack back s = some s' ∧ Around s' rest lease.owner items bytes := by
  have total := less_eq (around.totalBytes.trans (Nat.add_assoc _ _ _).symm)
  have found := around.owners lease.owner
  rw [if_pos rfl] at found
  have run : lease.giveBack back s = some ⟨⟨s.total.items,(rest.map Holder.bytes).sum + bytes,s.total.rejected⟩,
      s.owners.insert lease.owner ⟨((heldBy rest lease.owner).map Holder.items).sum + items,
        ((heldBy rest lease.owner).map Holder.bytes).sum + bytes,0⟩⟩ := by
    simp only [Lease.giveBack,total,found,less_eq (Nat.add_assoc _ _ _).symm,Option.bind_eq_bind,Option.bind_some,
      Option.pure_def]
  refine ⟨_,run,around.totalItems,rfl,?_⟩
  intro o
  rw [Std.HashMap.getElem?_insert]
  by_cases same : lease.owner = o
  · simp [same]
  · simp [same,around.owners]

/-- What `drop` leaves when the owner keeps `items` and `bytes` beside the other holders. -/
theorem Around.drop {s : State} {rest : List Holder} (lease : Lease) (items bytes : Nat)
    (around : Around s rest lease.owner (items + lease.items) (bytes + lease.bytes)) :
    ∃ s', lease.drop s = some s' ∧ s'.total.items = (rest.map Holder.items).sum + items ∧
      s'.total.bytes = (rest.map Holder.bytes).sum + bytes ∧
      ∀ o, s'.owners[o]? = if lease.owner = o then
        (if ((heldBy rest o).map Holder.items).sum + items = 0 ∧ ((heldBy rest o).map Holder.bytes).sum + bytes = 0
          then none else some ⟨((heldBy rest o).map Holder.items).sum + items,
            ((heldBy rest o).map Holder.bytes).sum + bytes,0⟩)
        else gauge rest o := by
  have totalItems := less_eq (around.totalItems.trans (Nat.add_assoc _ _ _).symm)
  have totalBytes := less_eq (around.totalBytes.trans (Nat.add_assoc _ _ _).symm)
  have found := around.owners lease.owner
  rw [if_pos rfl] at found
  have run : lease.drop s = some ⟨⟨(rest.map Holder.items).sum + items,(rest.map Holder.bytes).sum + bytes,
      s.total.rejected⟩,
      if ((heldBy rest lease.owner).map Holder.items).sum + items = 0 ∧
        ((heldBy rest lease.owner).map Holder.bytes).sum + bytes = 0 then s.owners.erase lease.owner
      else s.owners.insert lease.owner ⟨((heldBy rest lease.owner).map Holder.items).sum + items,
        ((heldBy rest lease.owner).map Holder.bytes).sum + bytes,0⟩⟩ := by
    simp only [Lease.drop,totalItems,totalBytes,found,less_eq (Nat.add_assoc _ _ _).symm,Option.bind_eq_bind,
      Option.bind_some,Option.pure_def]
  refine ⟨_,run,rfl,rfl,?_⟩
  intro o
  by_cases same : lease.owner = o
  · subst same
    rw [if_pos rfl]
    simp only
    split <;> simp
  · rw [if_neg same]
    simp only
    split <;> simp [Std.HashMap.getElem?_erase,Std.HashMap.getElem?_insert,same,around.owners]

theorem sum_items_pos {holders : List Holder} (valid : ∀ h ∈ holders, h.Valid) (held : holders ≠ []) :
    0 < (holders.map Holder.items).sum := by
  obtain ⟨h,rest,rfl⟩ := List.exists_cons_of_ne_nil held
  have := (valid h (by simp)).positive
  simp [Holder.items,Holder.leases]
  omega

/-- Dropping a whole lease: its owner's gauge goes with its last lease. -/
theorem Around.dropLease {s : State} {rest : List Holder} {lease : Lease} (valid : ∀ h ∈ rest, h.Valid)
    (around : Around s rest lease.owner lease.items lease.bytes) : ∃ s', lease.drop s = some s' ∧ Books s' rest := by
  obtain ⟨s',dropped,items,bytes,owners⟩ := Around.drop lease 0 0 (by simpa using around)
  refine ⟨s',dropped,items,bytes,?_⟩
  intro o
  rw [owners]
  by_cases same : lease.owner = o
  · by_cases held : heldBy rest o = []
    · simp [same,gauge,held]
    · have positive : 0 < ((heldBy rest o).map Holder.items).sum :=
        sum_items_pos (fun h member => valid h (List.mem_of_mem_filter member)) held
      rw [if_pos same,if_neg (by omega),gauge,if_neg held]
      rfl
  · rw [if_neg same]

/-- Dropping the emptied husk of `grow` leaves the books as they were. -/
theorem Around.dropExtra {s : State} {rest : List Holder} {owner : Owner} {items bytes : Nat} (positive : 0 < items)
    (around : Around s rest owner items bytes) :
    ∃ s', Lease.drop ⟨owner,0,0⟩ s = some s' ∧ Around s' rest owner items bytes := by
  obtain ⟨s',dropped,totalItems,totalBytes,owners⟩ := Around.drop ⟨owner,0,0⟩ items bytes around
  refine ⟨s',dropped,totalItems,totalBytes,?_⟩
  intro o
  rw [owners]
  by_cases same : owner = o
  · rw [if_pos same,if_pos same,if_neg (by omega)]
  · rw [if_neg same,if_neg same]

theorem holder_split {holders : List Holder} {i : Nat} {h : Holder} (found : holders[i]? = some h) :
    ∃ early late, holders = early ++ h :: late ∧ (∀ h', holders.set i h' = early ++ h' :: late) ∧
      holders.eraseIdx i = early ++ late := by
  obtain ⟨bound,rfl⟩ := List.getElem?_eq_some_iff.mp found
  refine ⟨holders.take i,holders.drop (i + 1),?_,?_,List.eraseIdx_eq_take_drop_succ ..⟩
  · rw [List.getElem_cons_drop,List.take_append_drop]
  · intro h'
    rw [List.set_eq_take_append_cons_drop,if_pos bound]

/-- Gauges only fall, so limits that held still hold. -/
theorem Within.of_le {limits : Limits} {s s' : State} (within : Within limits s)
    (items : s'.total.items ≤ s.total.items) (bytes : s'.total.bytes ≤ s.total.bytes)
    (owners : ∀ (o : Owner) (g : Gauge), s'.owners[o]? = some g →
      ∃ g', s.owners[o]? = some g' ∧ g.items ≤ g'.items ∧ g.bytes ≤ g'.bytes) : Within limits s' := by
  refine ⟨Nat.le_trans items within.items,Nat.le_trans bytes within.bytes,?_⟩
  intro o g found
  obtain ⟨g',found',fewer,smaller⟩ := owners o g found
  obtain ⟨boundItems,boundBytes⟩ := within.owners o g' found'
  exact ⟨Nat.le_trans fewer boundItems,Nat.le_trans smaller boundBytes⟩

theorem less_le {a b c : Nat} (some : less a b = some c) : c ≤ a := by
  rw [less] at some
  split at some
  · cases some; omega
  · cases some

theorem Within.drop {limits : Limits} {s s' : State} {lease : Lease} (within : Within limits s)
    (dropped : lease.drop s = some s') : Within limits s' := by
  simp only [Lease.drop,Option.bind_eq_bind,Option.bind_eq_some_iff,Option.pure_def,Option.some.injEq] at dropped
  obtain ⟨items,fewer,bytes,smaller,o,found,ownerItems,fewerOwned,ownerBytes,smallerOwned,rfl⟩ := dropped
  refine within.of_le (less_le fewer) (less_le smaller) ?_
  intro owner g foundG
  by_cases same : lease.owner = owner
  · subst same
    simp only at foundG
    split at foundG
    · simp at foundG
    · simp only [Std.HashMap.getElem?_insert_self,Option.some.injEq] at foundG
      exact ⟨o,found,by rw [← foundG]; exact less_le fewerOwned,by rw [← foundG]; exact less_le smallerOwned⟩
  · refine ⟨g,?_,Nat.le_refl _,Nat.le_refl _⟩
    simp only at foundG
    split at foundG <;> simpa [Std.HashMap.getElem?_erase,Std.HashMap.getElem?_insert,same] using foundG

theorem Within.giveBack {limits : Limits} {s s' : State} {lease : Lease} {bytes : Nat} (within : Within limits s)
    (given : lease.giveBack bytes s = some s') : Within limits s' := by
  simp only [Lease.giveBack,Option.bind_eq_bind,Option.bind_eq_some_iff,Option.pure_def,Option.some.injEq] at given
  obtain ⟨total,smaller,o,found,ownerBytes,smallerOwned,rfl⟩ := given
  refine within.of_le (Nat.le_refl _) (less_le smaller) ?_
  intro owner g foundG
  simp only [Std.HashMap.getElem?_insert] at foundG
  split at foundG
  next same =>
    obtain rfl := Option.some.inj foundG
    exact ⟨o,by rw [← beq_iff_eq.mp same,found],Nat.le_refl _,less_le smallerOwned⟩
  next => exact ⟨g,foundG,Nat.le_refl _,Nat.le_refl _⟩

/-- Whether an action asks for more than some limit allows even alone. -/
def Oversized (limits : Limits) (sys : System) : Action → Prop
  | .acquire _ items bytes _ => limits.impossible items bytes
  | .grow i bytes => (∃ lease, sys.holders[i]? = some ⟨lease,.idle⟩) ∧ limits.impossible 0 bytes
  | _ => False

/-- A refusal counts itself and touches nothing else. -/
def Refusal (limits : Limits) (sys : System) (action : Action) (sys' : System) (reply : Reply) : Prop :=
  (∀ e, reply = .refused e → sys' = ⟨sys.state.reject,sys.holders⟩) ∧
    (reply = .refused .payloadTooLarge ↔ Oversized limits sys action)

theorem acquire_refusal {limits : Limits} {s s' : State} {owner : Owner} {items bytes : Nat} {e : AdmissionError}
    (refused : acquire limits s owner items bytes = (s',.error e)) :
    e = .payloadTooLarge ↔ limits.impossible items bytes := by
  rw [(acquire_error refused).2]
  split <;> simp_all

theorem Invariant.acquire {limits : Limits} {sys : System} (invariant : Invariant limits sys) (owner : Owner)
    (items bytes : Nat) (positive : 0 < items) :
    ∃ sys' reply, sys.advance limits (.acquire owner items bytes positive) = some (sys',reply) ∧
      Invariant limits sys' ∧ Refusal limits sys (.acquire owner items bytes positive) sys' reply := by
  cases outcome : AsyncLimits.acquire limits sys.state owner items bytes with
  | mk s result =>
  cases result with
  | error e =>
    refine ⟨⟨s,sys.holders⟩,.refused e,by simp only [System.advance,outcome],?_,?_,?_⟩
    · rw [(acquire_error outcome).1]
      exact ⟨invariant.valid,invariant.books.reject,invariant.within.reject⟩
    · intro _ _
      rw [(acquire_error outcome).1]
    · simpa [Oversized] using acquire_refusal outcome
  | ok lease =>
    obtain ⟨possible,_,rfl,_⟩ := acquire_ok outcome
    refine ⟨⟨s,sys.holders ++ [⟨⟨owner,items,bytes⟩,.idle⟩]⟩,.admitted,by simp only [System.advance,outcome],
      ⟨?_,?_,invariant.within.acquire outcome⟩,by simp,by simpa [Oversized] using possible⟩
    · intro h member
      rcases List.mem_append.mp member with member | member
      · exact invariant.valid h member
      · rw [List.mem_singleton.mp member]
        exact ⟨positive,by simp [Stage.extra],by simp⟩
    · rw [books_around]
      simpa [Holder.items,Holder.bytes,Holder.leases,Stage.extra,Stage.owed] using invariant.books.acquire outcome

/-- One holder set apart: what it may become, and that it may go. -/
theorem Invariant.around {limits : Limits} {sys : System} (invariant : Invariant limits sys) {i : Nat} {h : Holder}
    (found : sys.holders[i]? = some h) :
    ∃ rest, (∀ other ∈ rest, other.Valid) ∧ h.Valid ∧ Around sys.state rest h.lease.owner h.items h.bytes ∧
      (∀ s' h', h'.Valid → Within limits s' → Around s' rest h'.lease.owner h'.items h'.bytes →
        Invariant limits ⟨s',sys.holders.set i h'⟩) ∧
      ∀ s', Within limits s' → Books s' rest → Invariant limits ⟨s',sys.holders.eraseIdx i⟩ := by
  obtain ⟨early,late,holders,set,erase⟩ := holder_split found
  have valid : ∀ other ∈ early ++ late, other.Valid := by
    intro other member
    apply invariant.valid
    rw [holders]
    simp only [List.mem_append,List.mem_cons] at member ⊢
    tauto
  refine ⟨early ++ late,valid,invariant.valid h (List.mem_of_getElem? found),
    books_around.mp (holders ▸ invariant.books),?_,?_⟩
  · intro s' h' validH within around
    rw [set]
    refine ⟨?_,books_around.mpr around,within⟩
    intro other member
    by_cases same : other = h'
    · rw [same]; exact validH
    · apply valid
      simp only [List.mem_append,List.mem_cons] at member ⊢
      tauto
  · intro s' within books
    rw [erase]
    exact ⟨valid,books,within⟩

/-- What every step of every holder keeps. -/
def Sound (limits : Limits) (sys : System) (action : Action) : Prop :=
  ∃ sys' reply, sys.advance limits action = some (sys',reply) ∧
    Invariant limits sys' ∧ Refusal limits sys action sys' reply

theorem Sound.done {limits : Limits} {sys sys' : System} {action : Action}
    (step : sys.advance limits action = some (sys',.done)) (invariant : Invariant limits sys')
    (small : ¬ Oversized limits sys action) : Sound limits sys action :=
  ⟨sys',.done,step,invariant,by simp,by simpa using small⟩

theorem Invariant.grow {limits : Limits} {sys : System} (invariant : Invariant limits sys) (i bytes : Nat) :
    Sound limits sys (.grow i bytes) := by
  cases found : sys.holders[i]? with
  | none => exact .done (by simp only [System.advance,found]) invariant (by simp [Oversized,found])
  | some h =>
  obtain ⟨lease,stage⟩ := h
  cases stage with
  | idle =>
    obtain ⟨rest,_,validH,around,replace,_⟩ := invariant.around found
    cases outcome : AsyncLimits.acquire limits sys.state lease.owner 0 bytes with
    | mk s result =>
    cases result with
    | error e =>
      refine ⟨⟨s,sys.holders⟩,.refused e,by simp only [System.advance,found,outcome],?_,?_,?_⟩
      · rw [(acquire_error outcome).1]
        exact ⟨invariant.valid,invariant.books.reject,invariant.within.reject⟩
      · intro _ _
        rw [(acquire_error outcome).1]
      · simpa [Oversized,found] using acquire_refusal outcome
    | ok extra =>
      obtain ⟨possible,_,rfl,_⟩ := acquire_ok outcome
      refine ⟨_,.admitted,by simp only [System.advance,found,outcome],
        replace s ⟨lease,.acquired ⟨lease.owner,0,bytes⟩⟩ ⟨validH.positive,by simp [Stage.extra],by simp⟩
          (invariant.within.acquire outcome) ?_,by simp,by simpa [Oversized] using fun _ _ => possible⟩
      simpa [Holder.items,Holder.bytes,Holder.leases,Stage.extra,Stage.owed] using around.acquire outcome
  | _ => exact .done (by simp only [System.advance,found]) invariant (by simp [Oversized,found])

theorem Invariant.move {limits : Limits} {sys : System} (invariant : Invariant limits sys) (i : Nat) :
    Sound limits sys (.move i) := by
  cases found : sys.holders[i]? with
  | none => exact .done (by simp only [System.advance,found]) invariant (by simp [Oversized])
  | some h =>
  obtain ⟨lease,stage⟩ := h
  cases stage with
  | acquired extra =>
    obtain ⟨rest,_,validH,around,replace,_⟩ := invariant.around found
    have owned := validH.extra extra (by simp [Stage.extra])
    refine .done (by simp only [System.advance,found]) (replace sys.state
      ⟨{ lease with bytes := lease.bytes + extra.bytes },.moved { extra with bytes := 0 }⟩
      ⟨validH.positive,by simpa [Stage.extra] using owned,by rintro e ⟨⟩; rfl⟩ invariant.within ?_) (by simp [Oversized])
    simpa [Holder.items,Holder.bytes,Holder.leases,Stage.extra,Stage.owed] using around
  | _ => exact .done (by simp only [System.advance,found]) invariant (by simp [Oversized])

theorem Invariant.dropExtra {limits : Limits} {sys : System} (invariant : Invariant limits sys) (i : Nat) :
    Sound limits sys (.dropExtra i) := by
  cases found : sys.holders[i]? with
  | none => exact .done (by simp only [System.advance,found]) invariant (by simp [Oversized])
  | some h =>
  obtain ⟨lease,stage⟩ := h
  cases stage with
  | moved extra =>
    obtain ⟨rest,_,validH,around,replace,_⟩ := invariant.around found
    obtain ⟨owner,items⟩ := validH.extra extra (by simp [Stage.extra])
    have bytes := validH.moved extra rfl
    have husk : extra = ⟨lease.owner,0,0⟩ := by
      cases extra; simp_all
    subst husk
    have around : Around sys.state rest lease.owner lease.items lease.bytes := by
      simpa [Holder.items,Holder.bytes,Holder.leases,Stage.extra,Stage.owed] using around
    obtain ⟨s',dropped,around'⟩ := around.dropExtra validH.positive
    refine .done (by simp only [System.advance,found,dropped]; rfl) (replace s' ⟨lease,.idle⟩
      ⟨validH.positive,by simp [Stage.extra],by simp⟩ (invariant.within.drop dropped) ?_) (by simp [Oversized])
    simpa [Holder.items,Holder.bytes,Holder.leases,Stage.extra,Stage.owed] using around'
  | _ => exact .done (by simp only [System.advance,found]) invariant (by simp [Oversized])

theorem Invariant.shrink {limits : Limits} {sys : System} (invariant : Invariant limits sys) (i bytes : Nat) :
    Sound limits sys (.shrink i bytes) := by
  cases found : sys.holders[i]? with
  | none => exact .done (by simp only [System.advance,found]) invariant (by simp [Oversized])
  | some h =>
  obtain ⟨lease,stage⟩ := h
  cases stage with
  | idle =>
    obtain ⟨rest,_,validH,around,replace,_⟩ := invariant.around found
    have parts : lease.bytes - min bytes lease.bytes + min bytes lease.bytes = lease.bytes := by omega
    refine .done (by simp only [System.advance,found]) (replace sys.state
      ⟨(lease.shrink bytes).1,.shrinking (lease.shrink bytes).2⟩ ⟨validH.positive,by simp [Stage.extra],by simp⟩
      invariant.within ?_) (by simp [Oversized])
    simpa [Holder.items,Holder.bytes,Holder.leases,Stage.extra,Stage.owed,Lease.shrink,parts] using around
  | _ => exact .done (by simp only [System.advance,found]) invariant (by simp [Oversized])

theorem Invariant.giveBack {limits : Limits} {sys : System} (invariant : Invariant limits sys) (i : Nat) :
    Sound limits sys (.giveBack i) := by
  cases found : sys.holders[i]? with
  | none => exact .done (by simp only [System.advance,found]) invariant (by simp [Oversized])
  | some h =>
  obtain ⟨lease,stage⟩ := h
  cases stage with
  | shrinking bytes =>
    obtain ⟨rest,_,validH,around,replace,_⟩ := invariant.around found
    have around : Around sys.state rest lease.owner lease.items (lease.bytes + bytes) := by
      simpa [Holder.items,Holder.bytes,Holder.leases,Stage.extra,Stage.owed] using around
    obtain ⟨s',given,around'⟩ := around.giveBack
    refine .done (by simp only [System.advance,found,given]; rfl) (replace s' ⟨lease,.idle⟩
      ⟨validH.positive,by simp [Stage.extra],by simp⟩ (invariant.within.giveBack given) ?_) (by simp [Oversized])
    simpa [Holder.items,Holder.bytes,Holder.leases,Stage.extra,Stage.owed] using around'
  | _ => exact .done (by simp only [System.advance,found]) invariant (by simp [Oversized])

theorem Invariant.drop {limits : Limits} {sys : System} (invariant : Invariant limits sys) (i : Nat) :
    Sound limits sys (.drop i) := by
  cases found : sys.holders[i]? with
  | none => exact .done (by simp only [System.advance,found]) invariant (by simp [Oversized])
  | some h =>
  obtain ⟨lease,stage⟩ := h
  cases stage with
  | idle =>
    obtain ⟨rest,valid,_,around,_,remove⟩ := invariant.around found
    have around : Around sys.state rest lease.owner lease.items lease.bytes := by
      simpa [Holder.items,Holder.bytes,Holder.leases,Stage.extra,Stage.owed] using around
    obtain ⟨s',dropped,books⟩ := around.dropLease valid
    exact .done (by simp only [System.advance,found,dropped]; rfl)
      (remove s' (invariant.within.drop dropped) books) (by simp [Oversized])
  | _ => exact .done (by simp only [System.advance,found]) invariant (by simp [Oversized])

theorem Invariant.advance {limits : Limits} {sys : System} (invariant : Invariant limits sys) (action : Action) :
    Sound limits sys action := by
  cases action with
  | acquire owner items bytes positive => exact invariant.acquire owner items bytes positive
  | grow i bytes => exact invariant.grow i bytes
  | move i => exact invariant.move i
  | dropExtra i => exact invariant.dropExtra i
  | shrink i bytes => exact invariant.shrink i bytes
  | giveBack i => exact invariant.giveBack i
  | drop i => exact invariant.drop i

theorem new_invariant (limits : Limits) : Invariant limits .new :=
  ⟨by simp [System.new],⟨rfl,rfl,by simp [System.new,State.default,gauge,heldBy]⟩,
    ⟨Nat.zero_le _,Nat.zero_le _,by simp [System.new,State.default]⟩⟩

theorem Invariant.execute {limits : Limits} (actions : List Action) {sys : System}
    (invariant : Invariant limits sys) :
    ∃ sys', AsyncLimits.execute limits actions sys = some sys' ∧ Invariant limits sys' := by
  induction actions generalizing sys with
  | nil => exact ⟨sys,rfl,invariant⟩
  | cons action actions ih =>
    obtain ⟨middle,reply,step,kept,_⟩ := invariant.advance action
    obtain ⟨sys',run,final⟩ := ih kept
    exact ⟨sys',by simp [AsyncLimits.execute,step,run],final⟩

/-- Every live lease: the holders' own and the husks of `grow`s in progress. -/
def live (sys : System) : List Lease := sys.holders.flatMap Holder.leases

/-- Bytes of shrinks that are between their two steps. -/
def owed (holders : List Holder) : Nat := (holders.map (·.stage.owed)).sum

/-- The accounting a budget promises, in terms of the live leases alone. -/
structure Exact (limits : Limits) (sys : System) : Prop where
  items : sys.state.total.items = ((live sys).map (·.items)).sum
  bytes : sys.state.total.bytes = ((live sys).map (·.bytes)).sum + owed sys.holders
  owner : ∀ (o : Owner) (g : Gauge), sys.state.owners[o]? = some g →
    g.items = (((live sys).filter (·.owner == o)).map (·.items)).sum ∧
    g.bytes = (((live sys).filter (·.owner == o)).map (·.bytes)).sum + owed (heldBy sys.holders o)
  present : ∀ o : Owner, o ∈ sys.state.owners ↔ ∃ lease ∈ live sys, lease.owner = o
  within : Within limits sys.state

theorem sum_items_leases (holders : List Holder) :
    (holders.map Holder.items).sum = ((holders.flatMap Holder.leases).map (·.items)).sum := by
  induction holders with
  | nil => rfl
  | cons h holders ih => simp [ih,Holder.items]

theorem sum_bytes_leases (holders : List Holder) :
    (holders.map Holder.bytes).sum = ((holders.flatMap Holder.leases).map (·.bytes)).sum + owed holders := by
  induction holders with
  | nil => rfl
  | cons h holders ih =>
    simp only [owed,List.map_cons,List.sum_cons,List.flatMap_cons,List.map_append,List.sum_append] at ih ⊢
    rw [ih,Holder.bytes]
    omega

theorem Holder.Valid.owner {h : Holder} (valid : h.Valid) : ∀ lease ∈ h.leases, lease.owner = h.lease.owner := by
  intro lease member
  rcases List.mem_cons.mp member with rfl | member
  · rfl
  · exact (valid.extra lease member).1

theorem leases_filter (holders : List Holder) (valid : ∀ h ∈ holders, h.Valid) (o : Owner) :
    (holders.flatMap Holder.leases).filter (·.owner == o) = (heldBy holders o).flatMap Holder.leases := by
  induction holders with
  | nil => rfl
  | cons h holders ih =>
    have owner := (valid h (by simp)).owner
    rw [List.flatMap_cons,List.filter_append,ih (fun other member => valid other (List.mem_cons_of_mem _ member))]
    by_cases same : h.lease.owner = o
    · rw [List.filter_eq_self.mpr (fun lease member => by simp [owner lease member,same])]
      simp [heldBy,same]
    · rw [List.filter_eq_nil_iff.mpr (fun lease member => by simp [owner lease member,same])]
      simp [heldBy,same]

theorem heldBy_eq_nil (holders : List Holder) (o : Owner) :
    heldBy holders o = [] ↔ ∀ h ∈ holders, h.lease.owner ≠ o := by
  simp [heldBy,List.filter_eq_nil_iff]

theorem Invariant.exact {limits : Limits} {sys : System} (invariant : Invariant limits sys) : Exact limits sys := by
  refine ⟨?_,?_,?_,?_,invariant.within⟩
  · rw [invariant.books.items,sum_items_leases]; rfl
  · rw [invariant.books.bytes,sum_bytes_leases]; rfl
  · intro o g found
    rw [invariant.books.owners,gauge] at found
    split at found
    · cases found
    · obtain rfl := Option.some.inj found
      rw [live,leases_filter _ invariant.valid,← sum_items_leases,← sum_bytes_leases]
      exact ⟨rfl,rfl⟩
  · intro o
    rw [Std.HashMap.mem_iff_isSome_getElem?,invariant.books.owners,gauge]
    constructor
    · intro some
      have held : heldBy sys.holders o ≠ [] := by
        intro empty
        simp [empty] at some
      obtain ⟨h,member⟩ := List.exists_mem_of_ne_nil _ held
      obtain ⟨member,owner⟩ := List.mem_filter.mp member
      exact ⟨h.lease,List.mem_flatMap.mpr ⟨h,member,by simp [Holder.leases]⟩,by simpa using owner⟩
    · rintro ⟨lease,member,rfl⟩
      obtain ⟨h,member,part⟩ := List.mem_flatMap.mp member
      have owner := (invariant.valid h member).owner lease part
      have held : heldBy sys.holders lease.owner ≠ [] := by
        rw [Ne,heldBy_eq_nil]
        intro nobody
        exact nobody h member owner.symm
      rw [if_neg held]; rfl

theorem owed_settled {holders : List Holder} (settled : ∀ h ∈ holders, h.stage.owed = 0) : owed holders = 0 := by
  apply List.sum_eq_zero
  intro bytes member
  obtain ⟨h,held,rfl⟩ := List.mem_map.mp member
  exact settled h held

/-- Every interleaving of acquires, grows, shrinks and drops keeps the accounting exact: no
subtraction overflows, no owner lookup misses, and a refusal only counts itself. -/
theorem admission_is_exact (limits : Limits) (actions : List Action) :
    ∃ sys, execute limits actions .new = some sys ∧ Exact limits sys ∧
      ((∀ h ∈ sys.holders, h.stage.owed = 0) → sys.state.total.bytes = ((live sys).map (·.bytes)).sum ∧
        ∀ (o : Owner) (g : Gauge), sys.state.owners[o]? = some g →
          g.bytes = (((live sys).filter (·.owner == o)).map (·.bytes)).sum) ∧
      ∀ action, ∃ sys' reply, sys.advance limits action = some (sys',reply) ∧ Exact limits sys' ∧
        Refusal limits sys action sys' reply := by
  obtain ⟨sys,run,invariant⟩ := (new_invariant limits).execute actions
  refine ⟨sys,run,invariant.exact,?_,?_⟩
  · intro settled
    refine ⟨by rw [invariant.exact.bytes,owed_settled settled,Nat.add_zero],?_⟩
    intro o g found
    have held : owed (heldBy sys.holders o) = 0 :=
      owed_settled fun h member => settled h (List.mem_of_mem_filter member)
    rw [(invariant.exact.owner o g found).2,held,Nat.add_zero]
  · intro action
    obtain ⟨sys',reply,step,kept,refusal⟩ := invariant.advance action
    exact ⟨sys',reply,step,kept.exact,refusal⟩

end S2Script.AsyncLimits
