import S2Script.FunctionBindings

/-! The life of one preparation, read off the native calls made for it, and where its binding is
held meanwhile: in a receipt, in the registry's row, or by references that outlive the row. -/
namespace S2Script.FunctionBindings

/-- From nothing, over the target with its capability and the target alone, to the release. -/
inductive Life where
  | unborn
  | whole (target : Int) (capability : Option Nat)
  | revoked (target : Int) (capability : Nat)
  | ended
  deriving DecidableEq, Repr

def NativeCall.binding? : NativeCall → Option Nat
  | .prepare binding _ _ => some binding
  | .activate _ _ => none
  | .instanceRelease binding _ => some binding
  | .targetRelease binding _ => some binding

/-- The next stage of a life. Only one preparation begins it, only its own capability and target
are released, the target once, and the capability before it. -/
def Life.next : Life → NativeCall → Option Life
  | .unborn,.prepare _ target capability => some (.whole target capability)
  | .unborn,.instanceRelease _ _ => some .unborn
  | .whole target (some capability),.instanceRelease _ released =>
    if released = capability then some (.revoked target capability) else none
  | .revoked target capability,.instanceRelease _ released =>
    if released = capability then some (.revoked target capability) else none
  | .whole target none,.targetRelease _ released => if released = target then some .ended else none
  | .revoked target _,.targetRelease _ released => if released = target then some .ended else none
  | _,_ => none

def Life.step (id : Nat) (life : Life) (call : NativeCall) : Option Life :=
  if call.binding? = some id then life.next call else some life

/-- The stage a binding's id has reached, if its calls follow the order of a life. -/
def life (id : Nat) (calls : List NativeCall) : Option Life := calls.foldlM (Life.step id) .unborn

theorem life_append (id : Nat) (calls more : List NativeCall) :
    life id (calls ++ more) = (life id calls).bind fun stage => more.foldlM (Life.step id) stage :=
  List.foldlM_append

theorem life_append_other {id : Nat} {more : List NativeCall} (others : ∀ call ∈ more, call.binding? ≠ some id)
    (calls : List NativeCall) : life id (calls ++ more) = life id calls := by
  have still : ∀ stage, more.foldlM (Life.step id) stage = some stage := by
    induction more with
    | nil => exact fun _ => rfl
    | cons call rest ih =>
      intro stage
      rw [List.foldlM_cons,Life.step,if_neg (others call List.mem_cons_self)]
      exact ih (fun later member => others later (List.mem_cons_of_mem call member)) stage
  rw [life_append]
  cases life id calls with
  | none => rfl
  | some stage => exact still stage

/-- Nothing is prepared for the id, or all that was is given back. -/
def Idle (id : Nat) (calls : List NativeCall) : Prop := life id calls = some .unborn ∨ life id calls = some .ended

/-- The id's target and capability are as the preparation gave them. -/
def Whole (id : Nat) (calls : List NativeCall) : Option Int → Option Nat → Prop
  | none,capability => capability = none ∧ Idle id calls
  | some target,capability => life id calls = some (.whole target capability)

/-- The id's capability is given back, its target is not. -/
def Revoked (id : Nat) (calls : List NativeCall) : Option Int → Option Nat → Prop
  | none,capability => capability = none ∧ Idle id calls
  | some target,none => life id calls = some (.whole target none)
  | some target,some capability => life id calls = some (.revoked target capability)

section Calls

variable {id : Nat} {calls more : List NativeCall}

theorem Idle.append_other (idle : Idle id calls) (others : ∀ call ∈ more, call.binding? ≠ some id) : Idle id (calls ++ more) := by
  rw [Idle,life_append_other others]
  exact idle

theorem Whole.append_other {target : Option Int} {capability : Option Nat} (whole : Whole id calls target capability)
    (others : ∀ call ∈ more, call.binding? ≠ some id) : Whole id (calls ++ more) target capability := by
  cases target with
  | none => exact ⟨whole.1,whole.2.append_other others⟩
  | some target => exact (life_append_other others calls).trans whole

theorem Revoked.append_other {target : Option Int} {capability : Option Nat} (revoked : Revoked id calls target capability)
    (others : ∀ call ∈ more, call.binding? ≠ some id) : Revoked id (calls ++ more) target capability := by
  cases target with
  | none => exact ⟨revoked.1,revoked.2.append_other others⟩
  | some target => cases capability <;> exact (life_append_other others calls).trans revoked

/-- The calls of a destructor. -/
def releaseCalls (id : Nat) (target : Option Int) (capability : Option Nat) : List NativeCall :=
  (capability.map (NativeCall.instanceRelease id)).toList ++ (target.map (NativeCall.targetRelease id)).toList

theorem release_eq (world : World) (id : Nat) (target : Option Int) (capability : Option Nat) :
    world.release id target capability = { world with calls := world.calls ++ releaseCalls id target capability } := by
  cases capability <;> cases target <;> simp [World.release,releaseCalls,World.call]

theorem releaseCalls_own (id : Nat) (target : Option Int) (capability : Option Nat) :
    ∀ call ∈ releaseCalls id target capability, call.binding? = some id := by
  intro call member
  rcases List.mem_append.mp member with inCapability | inTarget
  · obtain ⟨released,_,rfl⟩ := Option.map_eq_some_iff.mp (Option.mem_toList.mp inCapability)
    rfl
  · obtain ⟨released,_,rfl⟩ := Option.map_eq_some_iff.mp (Option.mem_toList.mp inTarget)
    rfl

theorem releaseCalls_other {other : Nat} (apart : id ≠ other) (target : Option Int) (capability : Option Nat) :
    ∀ call ∈ releaseCalls id target capability, call.binding? ≠ some other := fun call member same =>
  apart (Option.some.inj ((releaseCalls_own id target capability call member).symm.trans same))

/-- The destructor ends a life, whether or not the capability went before. -/
theorem Whole.release {target : Option Int} {capability : Option Nat} (whole : Whole id calls target capability) :
    Idle id (calls ++ releaseCalls id target capability) := by
  cases target with
  | none =>
    obtain ⟨rfl,idle⟩ := whole
    simpa [releaseCalls] using idle
  | some target =>
    refine .inr ?_
    rw [life_append,whole]
    cases capability <;> simp [releaseCalls,Life.step,Life.next,NativeCall.binding?]

theorem Revoked.release {target : Option Int} {capability : Option Nat} (revoked : Revoked id calls target capability) :
    Idle id (calls ++ releaseCalls id target capability) := by
  cases target with
  | none =>
    obtain ⟨rfl,idle⟩ := revoked
    simpa [releaseCalls] using idle
  | some target =>
    refine .inr ?_
    cases capability with
    | none =>
      rw [life_append,revoked]
      simp [releaseCalls,Life.step,Life.next,NativeCall.binding?]
    | some capability =>
      rw [life_append,revoked]
      simp [releaseCalls,Life.step,Life.next,NativeCall.binding?]

/-- Giving the capability back early. -/
theorem Whole.revoke {target : Option Int} {capability : Nat} (whole : Whole id calls target (some capability)) :
    Revoked id (calls ++ [.instanceRelease id capability]) target (some capability) := by
  cases target with
  | none => exact nomatch whole.1
  | some target =>
    refine (life_append id calls _).trans ?_
    rw [whole]
    simp [Life.step,Life.next,NativeCall.binding?]

theorem Whole.bare {target : Option Int} (whole : Whole id calls target none) : Revoked id calls target none := by
  cases target <;> exact whole

end Calls

/-- Where everything prepared is: in unpublished bindings, in rows, or in references that outlive
their row; each id in one of these, and each with the native calls of its stage. -/
structure Tracks (prepared : List PreparedBinding) (rows : Table Nat Binding) (held : List Binding) (nextId : Nat)
    (calls : List NativeCall) : Prop where
  bounded : ∀ one ∈ prepared, one.id < nextId
  distinct : (prepared.map PreparedBinding.id).Nodup
  rowId : ∀ id row, rows.lookup id = some row → row.id = id
  rowBounded : ∀ id row, rows.lookup id = some row → id < nextId
  rowApart : ∀ id row, rows.lookup id = some row → ∀ one ∈ prepared, one.id ≠ id
  heldBounded : ∀ one ∈ held, one.id < nextId
  heldApart : ∀ one ∈ held, ∀ other ∈ prepared, other.id ≠ one.id
  heldRow : ∀ one ∈ held, ∀ row, rows.lookup one.id = some row → row = one
  heldSame : ∀ one ∈ held, ∀ other ∈ held, other.id = one.id → other = one
  preparedLife : ∀ one ∈ prepared, Whole one.id calls one.target one.capability
  rowLife : ∀ id row, rows.lookup id = some row → Whole id calls row.target row.capability
  heldLife : ∀ one ∈ held, rows.lookup one.id = none → Revoked one.id calls one.target one.capability
  restLife : ∀ id, (∀ one ∈ prepared, one.id ≠ id) → rows.lookup id = none → (∀ one ∈ held, one.id ≠ id) → Idle id calls
  spoken : ∀ call ∈ calls, ∀ id, call.binding? = some id → id < nextId

theorem Tracks.start : Tracks [] ∅ [] 1 [] where
  bounded := fun _ member => nomatch member
  distinct := List.nodup_nil
  rowId := fun _ _ found => nomatch found
  rowBounded := fun _ _ found => nomatch found
  rowApart := fun _ _ found => nomatch found
  heldBounded := fun _ member => nomatch member
  heldApart := fun _ member => nomatch member
  heldRow := fun _ member => nomatch member
  heldSame := fun _ member => nomatch member
  preparedLife := fun _ member => nomatch member
  rowLife := fun _ _ found => nomatch found
  heldLife := fun _ member => nomatch member
  restLife := fun _ _ _ _ => .inl rfl
  spoken := fun _ member => nomatch member

theorem spoken_append {nextId : Nat} {calls more : List NativeCall}
    (old : ∀ call ∈ calls, ∀ id, call.binding? = some id → id < nextId)
    (new : ∀ call ∈ more, ∀ id, call.binding? = some id → id < nextId) :
    ∀ call ∈ calls ++ more, ∀ id, call.binding? = some id → id < nextId := fun call member =>
  (List.mem_append.mp member).elim (old call) (new call)

/-- Nothing was asked for an id that is not taken yet. -/
theorem Tracks.fresh {prepared : List PreparedBinding} {rows : Table Nat Binding} {held : List Binding} {nextId : Nat}
    {calls : List NativeCall} (tracks : Tracks prepared rows held nextId calls) {id : Nat} (above : nextId ≤ id) :
    life id calls = some .unborn :=
  life_append_other (fun call member same => absurd (tracks.spoken call member id same) (Nat.not_lt.mpr above)) []

section Moves

variable {prepared : List PreparedBinding} {rows : Table Nat Binding} {held : List Binding} {nextId : Nat}
  {calls : List NativeCall}

theorem Tracks.perm (tracks : Tracks prepared rows held nextId calls) {others : List PreparedBinding}
    (same : others.Perm prepared) : Tracks others rows held nextId calls where
  bounded := fun one member => tracks.bounded one (same.mem_iff.mp member)
  distinct := (same.map _).nodup_iff.mpr tracks.distinct
  rowId := tracks.rowId
  rowBounded := tracks.rowBounded
  rowApart := fun id row found one member => tracks.rowApart id row found one (same.mem_iff.mp member)
  heldBounded := tracks.heldBounded
  heldApart := fun one member other inOthers => tracks.heldApart one member other (same.mem_iff.mp inOthers)
  heldRow := tracks.heldRow
  heldSame := tracks.heldSame
  preparedLife := fun one member => tracks.preparedLife one (same.mem_iff.mp member)
  rowLife := tracks.rowLife
  heldLife := tracks.heldLife
  restLife := fun id apart => tracks.restLife id fun one member => apart one (same.mem_iff.mpr member)
  spoken := tracks.spoken

/-- Calls that are about no binding leave all lives as they are. -/
theorem Tracks.append_other (tracks : Tracks prepared rows held nextId calls) {more : List NativeCall}
    (others : ∀ call ∈ more, call.binding? = none) : Tracks prepared rows held nextId (calls ++ more) := by
  have about : ∀ id, ∀ call ∈ more, call.binding? ≠ some id := fun id call member => by
    rw [others call member]
    exact nofun
  exact { tracks with
    preparedLife := fun one member => (tracks.preparedLife one member).append_other (about _)
    rowLife := fun id row found => (tracks.rowLife id row found).append_other (about _)
    heldLife := fun one member gone => (tracks.heldLife one member gone).append_other (about _)
    restLife := fun id apart gone unheld => (tracks.restLife id apart gone unheld).append_other (about _)
    spoken := spoken_append tracks.spoken fun call member id same => absurd same (about id call member) }

/-- An id taken and not used for a binding, whatever calls were made and undone for it. -/
theorem Tracks.spend (tracks : Tracks prepared rows held nextId calls) (more : List NativeCall)
    (own : ∀ call ∈ more, call.binding? = some nextId) (idle : Idle nextId (calls ++ more)) :
    Tracks prepared rows held (nextId + 1) (calls ++ more) := by
  have about : ∀ id, id ≠ nextId → ∀ call ∈ more, call.binding? ≠ some id := fun id apart call member same =>
    apart (Option.some.inj (same.symm.trans (own call member)))
  exact {
    bounded := fun one member => Nat.lt_succ_of_lt (tracks.bounded one member)
    distinct := tracks.distinct
    rowId := tracks.rowId
    rowBounded := fun id row found => Nat.lt_succ_of_lt (tracks.rowBounded id row found)
    rowApart := tracks.rowApart
    heldBounded := fun one member => Nat.lt_succ_of_lt (tracks.heldBounded one member)
    heldApart := tracks.heldApart
    heldRow := tracks.heldRow
    heldSame := tracks.heldSame
    preparedLife := fun one member => (tracks.preparedLife one member).append_other
      (about _ (Nat.ne_of_lt (tracks.bounded one member)))
    rowLife := fun id row found => (tracks.rowLife id row found).append_other
      (about _ (Nat.ne_of_lt (tracks.rowBounded id row found)))
    heldLife := fun one member gone => (tracks.heldLife one member gone).append_other
      (about _ (Nat.ne_of_lt (tracks.heldBounded one member)))
    restLife := by
      intro id apart gone unheld
      by_cases same : id = nextId
      · exact same ▸ idle
      · exact (tracks.restLife id apart gone unheld).append_other (about id same)
    spoken := by
      refine spoken_append (fun call member id same => Nat.lt_succ_of_lt (tracks.spoken call member id same)) ?_
      intro call member id same
      obtain rfl := Option.some.inj (same.symm.trans (own call member))
      exact Nat.lt_succ_self _ }

/-- A prepared binding with a fresh id joins the unpublished ones. -/
theorem Tracks.prepare (tracks : Tracks prepared rows held nextId calls) {more : List NativeCall}
    (own : ∀ call ∈ more, call.binding? = some nextId) {one : PreparedBinding} (named : one.id = nextId)
    (whole : Whole nextId (calls ++ more) one.target one.capability) :
    Tracks (prepared ++ [one]) rows held (nextId + 1) (calls ++ more) := by
  have about : ∀ id, id ≠ nextId → ∀ call ∈ more, call.binding? ≠ some id := fun id apart call member same =>
    apart (Option.some.inj (same.symm.trans (own call member)))
  have oneOf : ∀ {other}, other ∈ prepared ++ [one] → other ∈ prepared ∨ other = one := fun member =>
    (List.mem_append.mp member).imp_right List.mem_singleton.mp
  exact {
    bounded := by
      intro other member
      rcases oneOf member with old | rfl
      · exact Nat.lt_succ_of_lt (tracks.bounded other old)
      · omega
    distinct := by
      rw [List.map_append,List.nodup_append']
      refine ⟨tracks.distinct,List.nodup_singleton _,fun id inOld inNew => ?_⟩
      obtain ⟨other,old,rfl⟩ := List.mem_map.mp inOld
      have := tracks.bounded other old
      have := List.mem_singleton.mp inNew
      omega
    rowId := tracks.rowId
    rowBounded := fun id row found => Nat.lt_succ_of_lt (tracks.rowBounded id row found)
    rowApart := by
      intro id row found other member
      rcases oneOf member with old | rfl
      · exact tracks.rowApart id row found other old
      · have := tracks.rowBounded id row found
        omega
    heldBounded := fun other member => Nat.lt_succ_of_lt (tracks.heldBounded other member)
    heldApart := by
      intro reference inHeld other member
      rcases oneOf member with old | rfl
      · exact tracks.heldApart reference inHeld other old
      · have := tracks.heldBounded reference inHeld
        omega
    heldRow := tracks.heldRow
    heldSame := tracks.heldSame
    preparedLife := by
      intro other member
      rcases oneOf member with old | rfl
      · exact (tracks.preparedLife other old).append_other (about _ (Nat.ne_of_lt (tracks.bounded other old)))
      · exact named ▸ whole
    rowLife := fun id row found => (tracks.rowLife id row found).append_other
      (about _ (Nat.ne_of_lt (tracks.rowBounded id row found)))
    heldLife := fun other member gone => (tracks.heldLife other member gone).append_other
      (about _ (Nat.ne_of_lt (tracks.heldBounded other member)))
    restLife := by
      intro id apart gone unheld
      have differ : id ≠ nextId := fun same => apart one (List.mem_append_right _ List.mem_cons_self) (named.trans same.symm)
      exact (tracks.restLife id (fun other old => apart other (List.mem_append_left _ old)) gone unheld).append_other
        (about id differ)
    spoken := by
      refine spoken_append (fun call member id same => Nat.lt_succ_of_lt (tracks.spoken call member id same)) ?_
      intro call member id same
      obtain rfl := Option.some.inj (same.symm.trans (own call member))
      exact Nat.lt_succ_self _ }

/-- The destructor of an unpublished binding. -/
theorem Tracks.dropPrepared {one : PreparedBinding} (tracks : Tracks (one :: prepared) rows held nextId calls) :
    Tracks prepared rows held nextId (calls ++ releaseCalls one.id one.target one.capability) := by
  obtain ⟨unlisted,distinct⟩ := List.nodup_cons.mp tracks.distinct
  have others : ∀ id, id ≠ one.id → ∀ call ∈ releaseCalls one.id one.target one.capability, call.binding? ≠ some id :=
    fun id apart => releaseCalls_other apart.symm _ _
  have kept : ∀ {other}, other ∈ prepared → other.id ≠ one.id := fun member same =>
    unlisted (same ▸ List.mem_map_of_mem member)
  exact {
    bounded := fun other member => tracks.bounded other (List.mem_cons_of_mem _ member)
    distinct := distinct
    rowId := tracks.rowId
    rowBounded := tracks.rowBounded
    rowApart := fun id row found other member => tracks.rowApart id row found other (List.mem_cons_of_mem _ member)
    heldBounded := tracks.heldBounded
    heldApart := fun other inHeld another member => tracks.heldApart other inHeld another (List.mem_cons_of_mem _ member)
    heldRow := tracks.heldRow
    heldSame := tracks.heldSame
    preparedLife := fun other member => (tracks.preparedLife other (List.mem_cons_of_mem _ member)).append_other
      (others _ (kept member))
    rowLife := fun id row found => (tracks.rowLife id row found).append_other
      (others _ (tracks.rowApart id row found one List.mem_cons_self).symm)
    heldLife := fun other member gone => (tracks.heldLife other member gone).append_other
      (others _ (tracks.heldApart other member one List.mem_cons_self).symm)
    restLife := by
      intro id apart gone unheld
      by_cases same : id = one.id
      · exact same ▸ (tracks.preparedLife one List.mem_cons_self).release
      · refine (tracks.restLife id (fun other member => ?_) gone unheld).append_other (others id same)
        rcases List.mem_cons.mp member with rfl | old
        · exact fun equal => same equal.symm
        · exact apart other old
    spoken := spoken_append tracks.spoken fun call member id same => by
      rw [Option.some.inj (same.symm.trans (releaseCalls_own _ _ _ call member))]
      exact tracks.bounded one List.mem_cons_self }

/-- An unpublished binding becomes a row with its target and capability. -/
theorem Tracks.publish {one : PreparedBinding} (tracks : Tracks (one :: prepared) rows held nextId calls) {row : Binding}
    (named : row.id = one.id) (sameTarget : row.target = one.target) (sameCapability : row.capability = one.capability) :
    Tracks prepared (rows.insert one.id row) held nextId calls := by
  obtain ⟨unlisted,distinct⟩ := List.nodup_cons.mp tracks.distinct
  have oneOf : ∀ {id found}, (rows.insert one.id row).lookup id = some found → (id = one.id ∧ found = row) ∨
      (id ≠ one.id ∧ rows.lookup id = some found) := by
    intro id found here
    rw [Table.lookup_insert_eq] at here
    split at here
    · exact .inl ⟨‹_›,(Option.some.inj here).symm⟩
    · exact .inr ⟨‹_›,here⟩
  have kept : ∀ {other}, other ∈ prepared → other.id ≠ one.id := fun member same =>
    unlisted (same ▸ List.mem_map_of_mem member)
  exact {
    bounded := fun other member => tracks.bounded other (List.mem_cons_of_mem _ member)
    distinct := distinct
    rowId := by
      intro id found here
      rcases oneOf here with ⟨rfl,rfl⟩ | ⟨_,old⟩
      · exact named
      · exact tracks.rowId id found old
    rowBounded := by
      intro id found here
      rcases oneOf here with ⟨rfl,rfl⟩ | ⟨_,old⟩
      · exact tracks.bounded one List.mem_cons_self
      · exact tracks.rowBounded id found old
    rowApart := by
      intro id found here other member
      rcases oneOf here with ⟨rfl,rfl⟩ | ⟨_,old⟩
      · exact kept member
      · exact tracks.rowApart id found old other (List.mem_cons_of_mem _ member)
    heldBounded := tracks.heldBounded
    heldApart := fun other inHeld another member => tracks.heldApart other inHeld another (List.mem_cons_of_mem _ member)
    heldRow := by
      intro other inHeld found here
      rcases oneOf here with ⟨same,_⟩ | ⟨_,old⟩
      · exact absurd same.symm (tracks.heldApart other inHeld one List.mem_cons_self)
      · exact tracks.heldRow other inHeld found old
    heldSame := tracks.heldSame
    preparedLife := fun other member => tracks.preparedLife other (List.mem_cons_of_mem _ member)
    rowLife := by
      intro id found here
      rcases oneOf here with ⟨rfl,rfl⟩ | ⟨_,old⟩
      · rw [sameTarget,sameCapability]
        exact tracks.preparedLife one List.mem_cons_self
      · exact tracks.rowLife id found old
    heldLife := by
      intro other inHeld gone
      rw [Table.lookup_insert_eq] at gone
      split at gone
      · exact nomatch gone
      · exact tracks.heldLife other inHeld gone
    restLife := by
      intro id apart gone unheld
      rw [Table.lookup_insert_eq] at gone
      split at gone
      · exact nomatch gone
      · next differ =>
        refine tracks.restLife id (fun other member => ?_) gone unheld
        rcases List.mem_cons.mp member with rfl | old
        · exact fun equal => differ equal.symm
        · exact apart other old
    spoken := tracks.spoken }

/-- A row goes: references keep its target, else its life is over. -/
theorem Tracks.unpublish (tracks : Tracks prepared rows held nextId calls) {id : Nat} {row : Binding}
    (found : rows.lookup id = some row) {more : List NativeCall} (own : ∀ call ∈ more, call.binding? = some id)
    (kept : (∃ one ∈ held, one.id = id) → Revoked id (calls ++ more) row.target row.capability)
    (gone : (∀ one ∈ held, one.id ≠ id) → Idle id (calls ++ more)) :
    Tracks prepared (rows.erase id) held nextId (calls ++ more) := by
  have about : ∀ other, other ≠ id → ∀ call ∈ more, call.binding? ≠ some other := fun other apart call member same =>
    apart (Option.some.inj (same.symm.trans (own call member)))
  have oneOf : ∀ {other another}, (rows.erase id).lookup other = some another → other ≠ id ∧ rows.lookup other = some another := by
    intro other another here
    rw [Table.lookup_erase_eq] at here
    split at here
    · exact nomatch here
    · exact ⟨‹_›,here⟩
  exact {
    bounded := tracks.bounded
    distinct := tracks.distinct
    rowId := fun other another here => tracks.rowId other another (oneOf here).2
    rowBounded := fun other another here => tracks.rowBounded other another (oneOf here).2
    rowApart := fun other another here => tracks.rowApart other another (oneOf here).2
    heldBounded := tracks.heldBounded
    heldApart := tracks.heldApart
    heldRow := fun one member another here => tracks.heldRow one member another (oneOf here).2
    heldSame := tracks.heldSame
    preparedLife := fun one member => (tracks.preparedLife one member).append_other
      (about _ (tracks.rowApart id row found one member))
    rowLife := fun other another here => (tracks.rowLife other another (oneOf here).2).append_other (about _ (oneOf here).1)
    heldLife := by
      intro one member absent
      by_cases same : one.id = id
      · have whose : row = one := tracks.heldRow one member row (same ▸ found)
        rw [same,← whose]
        exact kept ⟨one,member,same⟩
      · rw [Table.lookup_erase_eq,if_neg same] at absent
        exact (tracks.heldLife one member absent).append_other (about _ same)
    restLife := by
      intro other apart absent unheld
      by_cases same : other = id
      · exact same ▸ gone (same ▸ unheld)
      · rw [Table.lookup_erase_eq,if_neg same] at absent
        exact (tracks.restLife other apart absent unheld).append_other (about _ same)
    spoken := spoken_append tracks.spoken fun call member other same => by
      rw [Option.some.inj (same.symm.trans (own call member))]
      exact tracks.rowBounded id row found }

/-- One more reference to a binding that has one. -/
theorem Tracks.hold (tracks : Tracks prepared rows held nextId calls) {one : Binding}
    (there : one ∈ held ∨ rows.lookup one.id = some one) : Tracks prepared rows (one :: held) nextId calls where
  bounded := tracks.bounded
  distinct := tracks.distinct
  rowId := tracks.rowId
  rowBounded := tracks.rowBounded
  rowApart := tracks.rowApart
  heldBounded := by
    intro other member
    rcases List.mem_cons.mp member with rfl | old
    · exact there.elim (tracks.heldBounded _) (tracks.rowBounded _ _)
    · exact tracks.heldBounded other old
  heldApart := by
    intro other member
    rcases List.mem_cons.mp member with rfl | old
    · exact there.elim (tracks.heldApart _) (tracks.rowApart _ _)
    · exact tracks.heldApart other old
  heldRow := by
    intro other member row found
    rcases List.mem_cons.mp member with rfl | old
    · exact there.elim (fun inHeld => tracks.heldRow _ inHeld row found) fun own => Option.some.inj (found.symm.trans own)
    · exact tracks.heldRow other old row found
  heldSame := by
    intro other member another anotherIn same
    rcases List.mem_cons.mp member with rfl | old <;> rcases List.mem_cons.mp anotherIn with rfl | anotherOld
    · rfl
    · exact there.elim (fun inHeld => tracks.heldSame _ inHeld another anotherOld same) fun own =>
        (tracks.heldRow another anotherOld _ (same ▸ own)).symm
    · exact there.elim (fun inHeld => tracks.heldSame other old _ inHeld same) fun own =>
        tracks.heldRow other old _ (same ▸ own)
    · exact tracks.heldSame other old another anotherOld same
  preparedLife := tracks.preparedLife
  rowLife := tracks.rowLife
  heldLife := by
    intro other member gone
    rcases List.mem_cons.mp member with rfl | old
    · exact there.elim (fun inHeld => tracks.heldLife _ inHeld gone) fun own => nomatch gone.symm.trans own
    · exact tracks.heldLife other old gone
  restLife := fun id apart gone unheld => tracks.restLife id apart gone fun other old => unheld other (List.mem_cons_of_mem _ old)
  spoken := tracks.spoken

/-- A reference goes; if it was the last to the binding, so does the target. -/
theorem Tracks.letGo (tracks : Tracks prepared rows held nextId calls) {one : Binding} (member : one ∈ held)
    {rest : List Binding} (fewer : ∀ other ∈ rest, other ∈ held) (others : ∀ other ∈ held, other.id ≠ one.id → other ∈ rest) :
    Tracks prepared rows rest nextId (if (rows.lookup one.id).isSome || rest.any (fun other => other.id == one.id) then calls
      else calls ++ releaseCalls one.id one.target one.capability) := by
  have about : ∀ other, other ≠ one.id → ∀ call ∈ releaseCalls one.id one.target one.capability, call.binding? ≠ some other :=
    fun other apart => releaseCalls_other apart.symm _ _
  by_cases referenced : (rows.lookup one.id).isSome = true ∨ ∃ other ∈ rest, other.id = one.id
  · rw [if_pos (by simpa using referenced)]
    exact { tracks with
      heldBounded := fun other inRest => tracks.heldBounded other (fewer other inRest)
      heldApart := fun other inRest => tracks.heldApart other (fewer other inRest)
      heldRow := fun other inRest => tracks.heldRow other (fewer other inRest)
      heldSame := fun other inRest another anotherIn => tracks.heldSame other (fewer other inRest) another (fewer another anotherIn)
      heldLife := fun other inRest => tracks.heldLife other (fewer other inRest)
      restLife := by
        intro id apart gone unheld
        refine tracks.restLife id apart gone fun other inHeld same => ?_
        by_cases own : other.id = one.id
        · rcases referenced with row | ⟨another,anotherIn,anotherOwn⟩
          · rw [← own,same,gone] at row
            exact nomatch row
          · exact unheld another anotherIn (anotherOwn.trans (own.symm.trans same))
        · exact unheld other (others other inHeld own) same }
  · rw [if_neg (by simpa using referenced)]
    have absent : rows.lookup one.id = none := by
      rw [← Option.not_isSome_iff_eq_none]
      exact fun row => referenced (.inl row)
    have unheld : ∀ other ∈ rest, other.id ≠ one.id := fun other inRest same => referenced (.inr ⟨other,inRest,same⟩)
    exact {
      bounded := tracks.bounded
      distinct := tracks.distinct
      rowId := tracks.rowId
      rowBounded := tracks.rowBounded
      rowApart := tracks.rowApart
      heldBounded := fun other inRest => tracks.heldBounded other (fewer other inRest)
      heldApart := fun other inRest => tracks.heldApart other (fewer other inRest)
      heldRow := fun other inRest => tracks.heldRow other (fewer other inRest)
      heldSame := fun other inRest another anotherIn => tracks.heldSame other (fewer other inRest) another (fewer another anotherIn)
      preparedLife := fun other inPrepared => (tracks.preparedLife other inPrepared).append_other
        (about _ (tracks.heldApart one member other inPrepared))
      rowLife := by
        intro id row found
        refine (tracks.rowLife id row found).append_other (about _ fun same => ?_)
        rw [same,absent] at found
        exact nomatch found
      heldLife := fun other inRest gone => (tracks.heldLife other (fewer other inRest) gone).append_other
        (about _ (unheld other inRest))
      restLife := by
        intro id apart gone free
        by_cases same : id = one.id
        · exact same ▸ (tracks.heldLife one member absent).release
        · refine (tracks.restLife id apart gone fun other inHeld equal => ?_).append_other (about id same)
          exact free other (others other inHeld fun own => same (equal.symm.trans own)) equal
      spoken := spoken_append tracks.spoken fun call inCalls id same => by
        rw [Option.some.inj (same.symm.trans (releaseCalls_own _ _ _ call inCalls))]
        exact tracks.heldBounded one member }

end Moves

end S2Script.FunctionBindings
