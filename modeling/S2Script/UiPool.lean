import S2Script.Table

/-! Claims on pooled panel trees. The host arbitrates which plugin holds which slot; a slot that
is given back while an event is being handled stays unavailable until the outermost handler of
that event returns. Stamps of a wrapping epoch stand in for the set of such slots. -/
namespace S2Script.UiPool

structure PoolSlot where
  owner : Option String
  releasedIn : Option Nat

instance : Inhabited PoolSlot := ⟨⟨none,none⟩⟩

/-- The pools by kind, and the dispatch epoch with its depth. -/
structure Host where
  pools : Table String (List PoolSlot)
  epoch : Nat
  depth : Nat

namespace Host

def start : Host := ⟨∅,0,0⟩

def currentEpoch (host : Host) : Option Nat := if 0 < host.depth then some host.epoch else none

/-- `DispatchScope::enter`: the outermost scope opens the next epoch. -/
def enter (host : Host) : Host :=
  { host with epoch := if host.depth = 0 then (host.epoch + 1) % 2 ^ 64 else host.epoch, depth := host.depth + 1 }

/-- The scope is dropped. -/
def leave (host : Host) : Host := { host with depth := host.depth - 1 }

def pool (host : Host) (kind : String) : List PoolSlot := (host.pools.lookup kind).getD []

def slot (host : Host) (kind : String) (index : Nat) : PoolSlot := (host.pool kind)[index]?.getD default

/-- Nobody holds the slot, and it was not released in the epoch that is running. -/
def available (epoch : Option Nat) (slot : PoolSlot) : Bool :=
  slot.owner.isNone && !(slot.releasedIn.isSome && slot.releasedIn == epoch)

/-- The lowest available slot below the capacity; the pool grows to the capacity first. -/
def claim (host : Host) (kind : String) (capacity : Nat) (owner : String) : Host × Option Nat :=
  let pool := host.pool kind ++ List.replicate (capacity - (host.pool kind).length) default
  match (pool.take capacity).findIdx? (available host.currentEpoch) with
  | some index => ({ host with pools := host.pools.insert kind (pool.set index ⟨some owner,none⟩) },some index)
  | none => ({ host with pools := host.pools.insert kind pool },none)

/-- Give a slot back, if the caller holds it. -/
def release (host : Host) (kind : String) (index : Nat) (owner : String) : Host × Bool :=
  match host.pools.lookup kind with
  | none => (host,false)
  | some pool =>
    match pool[index]? with
    | none => (host,false)
    | some slot =>
      if slot.owner = some owner then
        ({ host with pools := host.pools.insert kind (pool.set index ⟨none,host.currentEpoch⟩) },true)
      else (host,false)

/-- Give back what an owner holds, in every pool. -/
def removeOwner (host : Host) (owner : String) : Host :=
  { host with pools := host.pools.mapValues fun _ pool =>
      pool.map fun slot => if slot.owner = some owner then ⟨none,host.currentEpoch⟩ else slot }

/-- `__s2_ui_pool_claim`, with the capacity a script hands over. -/
def uiPoolClaim (host : Host) (kind : String) (capacity : Int) (owner : String) : Host × Int :=
  if capacity ≤ 0 then (host,-1)
  else
    let claimed := host.claim kind (min capacity 1024).toNat owner
    (claimed.1,claimed.2.elim (-1) fun index => index)

/-- `__s2_ui_pool_release`. -/
def uiPoolRelease (host : Host) (kind : String) (index : Int) (owner : String) : Host × Bool :=
  if index < 0 then (host,false) else host.release kind index.toNat owner

end Host

inductive Event
  | enter
  | leave
  | claim (kind : String) (capacity : Int) (owner : String)
  | release (kind : String) (index : Int) (owner : String)
  | removeOwner (owner : String)

inductive Answer
  | none
  | claimed (index : Int)
  | released (done : Bool)
deriving DecidableEq

namespace Host

def step (host : Host) : Event → Host × Answer
  | .enter => (host.enter,.none)
  | .leave => (host.leave,.none)
  | .claim kind capacity owner =>
    let claimed := host.uiPoolClaim kind capacity owner
    (claimed.1,.claimed claimed.2)
  | .release kind index owner =>
    let released := host.uiPoolRelease kind index owner
    (released.1,.released released.2)
  | .removeOwner owner => (host.removeOwner owner,.none)

def run (host : Host) : List Event → List Answer
  | [] => []
  | event :: rest => (host.step event).2 :: run (host.step event).1 rest

end Host

/-- What the pools are for: who holds which slot, and the slots given back since the event that
is being handled came in. -/
structure Arbiter where
  holder : String → Nat → Option String
  spent : String → Nat → Bool
  depth : Nat

namespace Arbiter

def start : Arbiter := ⟨fun _ _ => none,fun _ _ => false,0⟩

def free (arbiter : Arbiter) (kind : String) (index : Nat) : Bool :=
  (arbiter.holder kind index).isNone && !arbiter.spent kind index

/-- Slots of which some are given back. -/
def giveBack (arbiter : Arbiter) (goes : String → Nat → Bool) : Arbiter where
  holder kind index := if goes kind index then none else arbiter.holder kind index
  spent kind index := if goes kind index then decide (0 < arbiter.depth) else arbiter.spent kind index
  depth := arbiter.depth

def take (arbiter : Arbiter) (kind : String) (index : Nat) (owner : String) : Arbiter :=
  { arbiter with holder := fun other found =>
      if other = kind ∧ found = index then some owner else arbiter.holder other found }

def step (arbiter : Arbiter) : Event → Arbiter × Answer
  | .enter => ({ arbiter with depth := arbiter.depth + 1 },.none)
  | .leave =>
    -- With the outermost handler gone, every slot may be handed out again.
    (if arbiter.depth ≤ 1 then { arbiter with spent := fun _ _ => false, depth := 0 }
      else { arbiter with depth := arbiter.depth - 1 },.none)
  | .claim kind capacity owner =>
    match (List.range (min capacity 1024).toNat).find? (arbiter.free kind) with
    | some index => (arbiter.take kind index owner,.claimed index)
    | none => (arbiter,.claimed (-1))
  | .release kind index owner =>
    if 0 ≤ index ∧ arbiter.holder kind index.toNat = some owner then
      (arbiter.giveBack fun other found => other = kind && found = index.toNat,.released true)
    else (arbiter,.released false)
  | .removeOwner owner => (arbiter.giveBack fun kind index => arbiter.holder kind index = some owner,.none)

def run (arbiter : Arbiter) : List Event → List Answer
  | [] => []
  | event :: rest => (arbiter.step event).2 :: run (arbiter.step event).1 rest

end Arbiter

section Slots

variable {host : Host} {kind : String}

theorem slot_insert (pools : Table String (List PoolSlot)) (pool : List PoolSlot) (epoch depth : Nat) (other : String)
    (index : Nat) : (Host.mk (pools.insert kind pool) epoch depth).slot other index =
      if other = kind then pool[index]?.getD default else (Host.mk pools epoch depth).slot other index := by
  simp only [Host.slot,Host.pool,Table.lookup_insert_eq]
  split <;> rfl

theorem getD_grown (pool : List PoolSlot) (more index : Nat) :
    (pool ++ List.replicate more default)[index]?.getD default = pool[index]?.getD default := by
  by_cases inside : index < pool.length
  · rw [List.getElem?_append_left inside]
  · rw [List.getElem?_append_right (by omega),List.getElem?_replicate,List.getElem?_eq_none (by omega)]
    split <;> rfl

theorem getD_set (pool : List PoolSlot) (slot : PoolSlot) {index : Nat} (inside : index < pool.length) (other : Nat) :
    (pool.set index slot)[other]?.getD default = if other = index then slot else pool[other]?.getD default := by
  by_cases same : other = index
  · subst same
    simp [inside]
  · rw [List.getElem?_set_ne (fun eq => same eq.symm),if_neg same]

/-- A claim takes the lowest slot that is available, and changes no other. -/
theorem claim_spec (host : Host) (kind : String) (capacity : Nat) (owner : String) :
    (host.claim kind capacity owner).2 =
      (List.range capacity).find? (fun index => Host.available host.currentEpoch (host.slot kind index)) ∧
    (host.claim kind capacity owner).1.epoch = host.epoch ∧ (host.claim kind capacity owner).1.depth = host.depth ∧
    ∀ other index, (host.claim kind capacity owner).1.slot other index =
      if other = kind ∧ (host.claim kind capacity owner).2 = some index then ⟨some owner,none⟩ else host.slot other index := by
  let pool := host.pool kind ++ List.replicate (capacity - (host.pool kind).length) default
  have grown (index : Nat) : pool[index]?.getD default = host.slot kind index := getD_grown _ _ _
  have long : capacity ≤ pool.length := by simp [pool]; omega
  have found : (pool.take capacity).findIdx? (Host.available host.currentEpoch) =
      (List.range capacity).find? fun index => Host.available host.currentEpoch (host.slot kind index) := by
    have slot {index : Nat} (inside : index < (pool.take capacity).length) :
        (pool.take capacity)[index] = host.slot kind index := by
      have bounds : index < pool.length := Nat.lt_of_lt_of_le inside (by simp)
      rw [List.getElem_take,← grown,List.getElem?_eq_getElem bounds]
      rfl
    have length : (pool.take capacity).length = capacity := by simp [long]
    apply Option.ext
    intro index
    rw [List.findIdx?_eq_some_iff_getElem,List.find?_range_eq_some]
    constructor
    · rintro ⟨inside,here,before⟩
      refine ⟨slot inside ▸ here,List.mem_range.mpr (length ▸ inside),fun lower below => ?_⟩
      have := before lower below
      rw [slot] at this
      simpa using this
    · rintro ⟨here,inside,before⟩
      have inside : index < (pool.take capacity).length := length.symm ▸ List.mem_range.mp inside
      refine ⟨inside,(slot inside).symm ▸ here,fun lower below => ?_⟩
      rw [slot]
      simpa using before lower below
  have claimed : host.claim kind capacity owner = match (pool.take capacity).findIdx? (Host.available host.currentEpoch) with
      | some index => ({ host with pools := host.pools.insert kind (pool.set index ⟨some owner,none⟩) },some index)
      | none => ({ host with pools := host.pools.insert kind pool },none) := rfl
  rw [claimed]
  cases here : (pool.take capacity).findIdx? (Host.available host.currentEpoch) with
  | none =>
    refine ⟨here.symm.trans found,rfl,rfl,fun other index => ?_⟩
    rw [slot_insert]
    by_cases same : other = kind
    · simp [same,grown]
    · simp [same]
  | some index =>
    refine ⟨here.symm.trans found,rfl,rfl,fun other next => ?_⟩
    have inside : index < pool.length := by
      obtain ⟨bound,_⟩ := List.findIdx?_eq_some_iff_getElem.mp here
      exact Nat.lt_of_lt_of_le bound (by simp)
    rw [slot_insert]
    by_cases same : other = kind
    · subst same
      rw [if_pos rfl,getD_set pool _ inside,grown]
      by_cases hit : next = index
      · simp [hit]
      · have apart : index ≠ next := fun same => hit same.symm
        simp [hit,apart]
    · simp [same]

theorem release_spec (host : Host) (kind : String) (index : Nat) (owner : String) :
    ((host.release kind index owner).2 = true ↔ (host.slot kind index).owner = some owner) ∧
    (host.release kind index owner).1.epoch = host.epoch ∧ (host.release kind index owner).1.depth = host.depth ∧
    ∀ other next, (host.release kind index owner).1.slot other next =
      if (host.slot kind index).owner = some owner ∧ other = kind ∧ next = index then ⟨none,host.currentEpoch⟩
      else host.slot other next := by
  unfold Host.release
  cases known : host.pools.lookup kind with
  | none =>
    have empty : host.slot kind index = default := by simp [Host.slot,Host.pool,known]
    rw [empty]
    exact ⟨by simp [default],rfl,rfl,by simp [default]⟩
  | some pool =>
    dsimp only
    cases here : pool[index]? with
    | none =>
      have empty : host.slot kind index = default := by simp [Host.slot,Host.pool,known,here]
      rw [empty]
      exact ⟨by simp [default],rfl,rfl,by simp [default]⟩
    | some slot =>
      have same : host.slot kind index = slot := by simp [Host.slot,Host.pool,known,here]
      have inside : index < pool.length := (List.getElem?_eq_some_iff.mp here).1
      rw [same]
      by_cases held : slot.owner = some owner
      · simp only [held,if_true,true_and]
        intro other next
        rw [slot_insert]
        by_cases kinds : other = kind
        · subst kinds
          rw [if_pos rfl,getD_set pool _ inside]
          simp [Host.slot,Host.pool,known]
        · simp [kinds]
      · simp [held]

theorem removeOwner_slot (host : Host) (owner kind : String) (index : Nat) : (host.removeOwner owner).slot kind index =
    if (host.slot kind index).owner = some owner then ⟨none,host.currentEpoch⟩ else host.slot kind index := by
  have kept : (host.removeOwner owner).pool kind = (host.pool kind).map fun slot =>
      if slot.owner = some owner then ⟨none,host.currentEpoch⟩ else slot := by
    simp only [Host.pool,Host.removeOwner,Table.lookup_mapValues]
    rcases host.pools.lookup kind with _ | pool <;> rfl
  rw [Host.slot,Host.slot,kept,List.getElem?_map]
  rcases (host.pool kind)[index]? with _ | slot <;> simp [default]

end Slots

/-- The stamps stand for the arbiter's books. -/
structure Refines (host : Host) (arbiter : Arbiter) : Prop where
  depth : arbiter.depth = host.depth
  holder : ∀ kind index, arbiter.holder kind index = (host.slot kind index).owner
  spent : ∀ kind index, arbiter.spent kind index = true ↔
    0 < host.depth ∧ (host.slot kind index).owner = none ∧ (host.slot kind index).releasedIn = some host.epoch
  held : ∀ kind index owner, (host.slot kind index).owner = some owner → (host.slot kind index).releasedIn = none
  dated : ∀ kind index epoch, (host.slot kind index).releasedIn = some epoch → epoch ≤ host.epoch

theorem start_refines : Refines .start .start where
  depth := rfl
  holder _ _ := rfl
  spent := by simp [Host.start,Arbiter.start]
  held := by simp [Host.start,Host.slot,Host.pool,default]
  dated := by simp [Host.start,Host.slot,Host.pool,default]

namespace Refines

variable {host : Host} {arbiter : Arbiter}

theorem free (refines : Refines host arbiter) (kind : String) (index : Nat) :
    arbiter.free kind index = Host.available host.currentEpoch (host.slot kind index) := by
  rw [Arbiter.free,refines.holder,Host.available]
  cases held : (host.slot kind index).owner with
  | some owner => simp
  | none =>
    have same : arbiter.spent kind index = ((host.slot kind index).releasedIn.isSome &&
        (host.slot kind index).releasedIn == host.currentEpoch) := by
      rw [Bool.eq_iff_iff,refines.spent,held,Host.currentEpoch]
      cases released : (host.slot kind index).releasedIn with
      | none => simp
      | some epoch => by_cases inside : 0 < host.depth <;> simp [inside]
    simp [same]

theorem enter (refines : Refines host arbiter) (few : host.epoch + 1 < 2 ^ 64) :
    Refines host.enter { arbiter with depth := arbiter.depth + 1 } where
  depth := congrArg (· + 1) refines.depth
  holder := refines.holder
  held := refines.held
  spent kind index := by
    refine (refines.spent kind index).trans ?_
    have slot : host.enter.slot kind index = host.slot kind index := rfl
    rw [slot]
    simp only [Host.enter,Nat.mod_eq_of_lt few]
    by_cases outermost : host.depth = 0
    · -- No slot carries the stamp of an epoch that only opens now.
      have fresh : (host.slot kind index).releasedIn ≠ some (host.epoch + 1) := fun stamped =>
        Nat.not_succ_le_self host.epoch (refines.dated kind index _ stamped)
      simp [outermost,fresh]
    · simp [outermost,Nat.pos_of_ne_zero outermost]
  dated kind index epoch stamped := by
    have before := refines.dated kind index epoch stamped
    simp only [Host.enter,Nat.mod_eq_of_lt few]
    split <;> omega

theorem leave (refines : Refines host arbiter) : Refines host.leave (arbiter.step .leave).1 := by
  have slot (kind : String) (index : Nat) : host.leave.slot kind index = host.slot kind index := rfl
  have depth := refines.depth
  simp only [Arbiter.step]
  split
  · rename_i last
    refine ⟨?_,refines.holder,fun kind index => ?_,refines.held,refines.dated⟩
    · simp only [Host.leave]
      omega
    · simp only [Host.leave]
      constructor
      · simp
      · intro spent
        omega
  · rename_i nested
    refine ⟨by simp only [Host.leave,depth],refines.holder,fun kind index => ?_,refines.held,refines.dated⟩
    refine (refines.spent kind index).trans (and_congr_left fun _ => ?_)
    simp only [Host.leave]
    omega

/-- Slots that are given back. -/
theorem giveBack (refines : Refines host arbiter) {later : Host} {goes : String → Nat → Bool} (epoch : later.epoch = host.epoch)
    (depth : later.depth = host.depth)
    (slots : ∀ kind index, later.slot kind index = if goes kind index then ⟨none,host.currentEpoch⟩ else host.slot kind index) :
    Refines later (arbiter.giveBack goes) where
  depth := refines.depth.trans depth.symm
  holder kind index := by
    rw [slots]
    simp only [Arbiter.giveBack]
    split
    · rfl
    · exact refines.holder kind index
  spent kind index := by
    rw [slots,epoch,depth]
    simp only [Arbiter.giveBack]
    split
    · rw [refines.depth,Host.currentEpoch]
      by_cases inside : 0 < host.depth <;> simp [inside]
    · exact refines.spent kind index
  held kind index owner here := by
    rw [slots] at here ⊢
    split
    · rename_i gone
      simp [gone] at here
    · rename_i kept
      rw [if_neg kept] at here
      exact refines.held kind index owner here
  dated kind index stamp stamped := by
    rw [slots] at stamped
    rw [epoch]
    split at stamped
    · simp only [Host.currentEpoch] at stamped
      split at stamped
      · exact Nat.le_of_eq (Option.some.inj stamped).symm
      · contradiction
    · exact refines.dated kind index stamp stamped

theorem claim (refines : Refines host arbiter) (kind : String) (capacity : Int) (owner : String) :
    (host.step (.claim kind capacity owner)).2 = (arbiter.step (.claim kind capacity owner)).2 ∧
    Refines (host.step (.claim kind capacity owner)).1 (arbiter.step (.claim kind capacity owner)).1 := by
  simp only [Host.step,Host.uiPoolClaim,Arbiter.step]
  by_cases positive : capacity ≤ 0
  · have empty : (min capacity 1024).toNat = 0 := by omega
    rw [if_pos positive,empty]
    exact ⟨rfl,refines⟩
  · rw [if_neg positive]
    obtain ⟨found,epoch,depth,slots⟩ := claim_spec host kind (min capacity 1024).toNat owner
    have same : (host.claim kind (min capacity 1024).toNat owner).2 =
        (List.range (min capacity 1024).toNat).find? (arbiter.free kind) :=
      found.trans (congrArg (List.find? · _) (funext fun index => (refines.free kind index).symm))
    rw [← same]
    cases taken : (host.claim kind (min capacity 1024).toNat owner).2 with
    | none =>
      simp only [taken,reduceCtorEq,and_false,if_false] at slots
      refine ⟨rfl,⟨refines.depth.trans depth.symm,?_,?_,?_,?_⟩⟩
      · simpa only [slots] using refines.holder
      · simpa only [slots,epoch,depth] using refines.spent
      · simpa only [slots] using refines.held
      · simpa only [slots,epoch] using refines.dated
    | some index =>
      have slot (other : String) (next : Nat) : (host.claim kind (min capacity 1024).toNat owner).1.slot other next =
          if other = kind ∧ next = index then ⟨some owner,none⟩ else host.slot other next := by
        rw [slots,taken]
        simp [eq_comm]
      refine ⟨rfl,⟨refines.depth.trans depth.symm,?_,?_,?_,?_⟩⟩
      · intro other next
        rw [slot]
        simp only [Arbiter.take]
        split
        · rfl
        · exact refines.holder other next
      · intro other next
        have spent := refines.spent other next
        simp only [Arbiter.take]
        rw [slot,epoch,depth]
        split
        · rename_i here
          obtain ⟨rfl,rfl⟩ := here
          -- The slot that was taken was free, so it was not spent.
          have free := (List.find?_range_eq_some.mp (same.symm.trans taken)).1
          simp only [Arbiter.free,Bool.and_eq_true,Bool.not_eq_true'] at free
          simp [free.2]
        · exact spent
      · intro other next holder here
        rw [slot] at here ⊢
        split
        · rfl
        · rename_i elsewhere
          rw [if_neg elsewhere] at here
          exact refines.held other next holder here
      · intro other next stamp stamped
        rw [slot] at stamped
        rw [epoch]
        split at stamped
        · contradiction
        · exact refines.dated other next stamp stamped

theorem release (refines : Refines host arbiter) (kind : String) (index : Int) (owner : String) :
    (host.step (.release kind index owner)).2 = (arbiter.step (.release kind index owner)).2 ∧
    Refines (host.step (.release kind index owner)).1 (arbiter.step (.release kind index owner)).1 := by
  simp only [Host.step,Host.uiPoolRelease,Arbiter.step]
  by_cases negative : index < 0
  · rw [if_pos negative,if_neg fun both => absurd both.1 (by omega)]
    exact ⟨rfl,refines⟩
  · have nonneg : 0 ≤ index := by omega
    rw [if_neg negative,refines.holder]
    obtain ⟨done,epoch,depth,slots⟩ := release_spec host kind index.toNat owner
    by_cases held : (host.slot kind index.toNat).owner = some owner
    · rw [if_pos ⟨nonneg,held⟩,done.mpr held]
      refine ⟨rfl,refines.giveBack epoch depth fun other next => ?_⟩
      rw [slots]
      simp [held]
    · rw [if_neg fun both => held both.2,Bool.eq_false_iff.mpr (mt done.mp held)]
      simp only [held,false_and,if_false] at slots
      refine ⟨rfl,refines.depth.trans depth.symm,?_,?_,?_,?_⟩
      · simpa only [slots] using refines.holder
      · simpa only [slots,epoch,depth] using refines.spent
      · simpa only [slots] using refines.held
      · simpa only [slots,epoch] using refines.dated

theorem removeOwner (refines : Refines host arbiter) (owner : String) :
    Refines (host.removeOwner owner) (arbiter.step (.removeOwner owner)).1 := by
  refine refines.giveBack rfl rfl fun kind index => ?_
  rw [removeOwner_slot,refines.holder]
  simp

end Refines

/-- Events that are opened by an outermost handler. -/
def opens : Nat → List Event → Nat
  | _,[] => 0
  | depth,.enter :: rest => (if depth = 0 then 1 else 0) + opens (depth + 1) rest
  | depth,.leave :: rest => opens (depth - 1) rest
  | depth,.claim _ _ _ :: rest => opens depth rest
  | depth,.release _ _ _ :: rest => opens depth rest
  | depth,.removeOwner _ :: rest => opens depth rest

/-- One event: the same answer, and the stamps still stand for the books. -/
theorem Refines.step {host : Host} {arbiter : Arbiter} (refines : Refines host arbiter) (event : Event)
    (few : host.epoch + opens host.depth [event] < 2 ^ 64) :
    (host.step event).2 = (arbiter.step event).2 ∧ Refines (host.step event).1 (arbiter.step event).1 := by
  cases event with
  | enter =>
    by_cases outermost : host.depth = 0
    · exact ⟨rfl,refines.enter (by simpa [opens,outermost] using few)⟩
    · refine ⟨rfl,by simp [Host.step,Host.enter,Arbiter.step,refines.depth],refines.holder,fun kind index => ?_,refines.held,fun kind index stamp stamped => ?_⟩
      · have kept : (host.step .enter).1 = { host with depth := host.depth + 1 } := by
          simp [Host.step,Host.enter,outermost]
        rw [kept]
        refine (refines.spent kind index).trans (and_congr_left fun _ => ?_)
        simp only
        omega
      · simpa [Host.step,Host.enter,outermost] using refines.dated kind index stamp stamped
  | leave => exact ⟨rfl,refines.leave⟩
  | claim kind capacity owner => exact refines.claim kind capacity owner
  | release kind index owner => exact refines.release kind index owner
  | removeOwner owner => exact ⟨rfl,refines.removeOwner owner⟩

theorem step_depth (host : Host) (event : Event) (rest : List Event) :
    (host.step event).1.epoch + opens (host.step event).1.depth rest ≤ host.epoch + opens host.depth (event :: rest) := by
  cases event with
  | enter =>
    simp only [Host.step,Host.enter,opens]
    split
    · have := Nat.mod_le (host.epoch + 1) (2 ^ 64)
      omega
    · omega
  | leave => exact Nat.le_refl _
  | claim kind capacity owner =>
    simp only [Host.step,Host.uiPoolClaim,opens]
    split
    · exact Nat.le_refl _
    · obtain ⟨_,epoch,depth,_⟩ := claim_spec host kind (min capacity 1024).toNat owner
      rw [epoch,depth]
  | release kind index owner =>
    simp only [Host.step,Host.uiPoolRelease,opens]
    split
    · exact Nat.le_refl _
    · obtain ⟨_,epoch,depth,_⟩ := release_spec host kind index.toNat owner
      rw [epoch,depth]
  | removeOwner owner => exact Nat.le_refl _

theorem opens_head (depth : Nat) (event : Event) (rest : List Event) : opens depth [event] ≤ opens depth (event :: rest) := by
  cases event <;> simp [opens]

theorem Refines.run {host : Host} {arbiter : Arbiter} (refines : Refines host arbiter) (events : List Event)
    (few : host.epoch + opens host.depth events < 2 ^ 64) : host.run events = arbiter.run events := by
  induction events generalizing host arbiter with
  | nil => rfl
  | cons event rest ih =>
    have head := opens_head host.depth event rest
    obtain ⟨same,later⟩ := refines.step event (by omega)
    rw [Host.run,Arbiter.run,same,ih later (Nat.lt_of_le_of_lt (step_depth host event rest) few)]

/-- Whatever the plugins do, the pools answer as the arbiter does: one holder to a slot, the
lowest free one first, only the holder may give it back, and none given back during an event is
handed out before its outermost handler is done. -/
theorem run_refines (events : List Event) (few : opens 0 events < 2 ^ 64) : Host.start.run events = Arbiter.start.run events :=
  start_refines.run events (by simpa [Host.start] using few)

/-- Two handlers of one event, and a third plugin between them. -/
theorem run_two_handlers :
    Host.start.run [.claim "modal" 2 "a",.enter,.release "modal" 0 "a",.claim "modal" 2 "b",.leave,.claim "modal" 2 "c"] =
      [.claimed 0,.none,.released true,.claimed 1,.none,.claimed 0] :=
  (run_refines _ (by decide)).trans (by decide)

/-- Events that all happen before the outermost handler returns. -/
def staysInside : Nat → List Event → Bool
  | _,[] => true
  | depth,.enter :: rest => staysInside (depth + 1) rest
  | depth,.leave :: rest => 1 < depth && staysInside (depth - 1) rest
  | depth,_ :: rest => staysInside depth rest

/-- What is spent stays so while the event is being handled, and is never handed out. -/
theorem Arbiter.spent_run {arbiter : Arbiter} {kind : String} {index : Nat} (spent : arbiter.spent kind index = true)
    (inside : 0 < arbiter.depth) (events : List Event) (stays : staysInside arbiter.depth events = true) :
    ∀ capacity owner, (Event.claim kind capacity owner,Answer.claimed index) ∉ events.zip (arbiter.run events) := by
  induction events generalizing arbiter with
  | nil => simp
  | cons event rest ih =>
    intro capacity owner
    rw [Arbiter.run,List.zip_cons_cons,List.mem_cons,not_or]
    cases event with
    | enter => exact ⟨by simp,ih (by exact spent) (Nat.succ_pos _) stays capacity owner⟩
    | leave =>
      simp only [staysInside,Bool.and_eq_true,decide_eq_true_eq] at stays
      have nested : ¬arbiter.depth ≤ 1 := Nat.not_le.mpr stays.1
      have stepped : (arbiter.step .leave).1 = { arbiter with depth := arbiter.depth - 1 } := by
        simp only [Arbiter.step,if_neg nested]
      rw [stepped]
      exact ⟨by simp,ih (by exact spent) (Nat.sub_pos_of_lt stays.1) stays.2 capacity owner⟩
    | claim other size claimer =>
      simp only [Arbiter.step]
      split
      · rename_i found taken
        have free := (List.find?_range_eq_some.mp taken).1
        simp only [Arbiter.free,Bool.and_eq_true,Bool.not_eq_true'] at free
        refine ⟨?_,@ih (arbiter.take other found claimer) spent inside stays capacity owner⟩
        rintro same
        simp only [Prod.mk.injEq,Event.claim.injEq,Answer.claimed.injEq,Int.natCast_inj] at same
        obtain ⟨⟨rfl,_,_⟩,rfl⟩ := same
        rw [spent] at free
        exact absurd free.2 (by simp)
      · refine ⟨?_,ih (by exact spent) inside stays capacity owner⟩
        simp only [Prod.mk.injEq,Answer.claimed.injEq,not_and]
        omega
    | release other found giver =>
      have kept : ((arbiter.step (.release other found giver)).1).spent kind index = true ∧
          ((arbiter.step (.release other found giver)).1).depth = arbiter.depth := by
        simp only [Arbiter.step]
        split
        · simp only [Arbiter.giveBack]
          refine ⟨?_,trivial⟩
          split
          · simpa using inside
          · exact spent
        · exact ⟨spent,rfl⟩
      exact ⟨by simp,ih kept.1 (kept.2 ▸ inside) (kept.2 ▸ stays) capacity owner⟩
    | removeOwner giver =>
      refine ⟨by simp,@ih (arbiter.step (.removeOwner giver)).1 ?_ inside stays capacity owner⟩
      simp only [Arbiter.step,Arbiter.giveBack]
      split
      · simpa using inside
      · exact spent

namespace Host

def execute (host : Host) (events : List Event) : Host := events.foldl (fun host event => (host.step event).1) host

end Host

theorem Refines.execute {host : Host} {arbiter : Arbiter} (refines : Refines host arbiter) (events later : List Event)
    (few : host.epoch + opens host.depth (events ++ later) < 2 ^ 64) :
    ∃ after, Refines (host.execute events) after ∧
      (host.execute events).epoch + opens (host.execute events).depth later < 2 ^ 64 := by
  induction events generalizing host arbiter with
  | nil => exact ⟨arbiter,refines,few⟩
  | cons event rest ih =>
    have head := opens_head host.depth event (rest ++ later)
    rw [List.cons_append] at few
    exact ih (refines.step event (by omega)).2 (Nat.lt_of_le_of_lt (step_depth host event (rest ++ later)) few)

/-- In every run, a slot given back by a handler goes to nobody until the outermost handler of
that event has returned, however deep the handlers nest and whoever asks. -/
theorem not_handed_out_again (before during : List Event) (kind : String) (index : Nat) (owner : String)
    (few : opens 0 (before ++ .release kind index owner :: during) < 2 ^ 64)
    (inside : 0 < (Host.start.execute before).depth)
    (given : ((Host.start.execute before).step (.release kind index owner)).2 = .released true)
    (stays : staysInside (Host.start.execute before).depth during = true) :
    ∀ capacity claimer, (Event.claim kind capacity claimer,Answer.claimed index) ∉
      during.zip (((Host.start.execute before).step (.release kind index owner)).1.run during) := by
  obtain ⟨arbiter,refines,few⟩ := start_refines.execute before (.release kind index owner :: during)
    (by simpa [Host.start] using few)
  generalize Host.start.execute before = host at *
  obtain ⟨same,after⟩ := refines.release kind index owner
  rw [after.run during (Nat.lt_of_le_of_lt (step_depth host (.release kind index owner) during) few)]
  rw [same] at given
  simp only [Arbiter.step,Int.natCast_nonneg,true_and,Int.toNat_natCast] at given ⊢
  split at given
  · rename_i held
    rw [if_pos held]
    refine Arbiter.spent_run ?_ (refines.depth.symm ▸ inside) during (by exact refines.depth.symm ▸ stays)
    simpa [Arbiter.giveBack,refines.depth] using inside
  · simp at given

theorem passed_over : (Event.claim "modal" 2 "b",Answer.claimed (0 : Nat)) ∉
    [Event.claim "modal" 2 "b"].zip (((Host.start.execute [.claim "modal" 2 "a",.enter]).step (.release "modal" (0 : Nat) "a")).1.run
      [.claim "modal" 2 "b"]) :=
  not_handed_out_again _ _ "modal" 0 "a" (by decide) (by decide) (by decide) (by decide) 2 "b"

end S2Script.UiPool
