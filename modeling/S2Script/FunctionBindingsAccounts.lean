import S2Script.FunctionBindingsDrops

/-! What the native calls tell of each id: one preparation at most, and its release when no one
holds the target any more. -/
namespace S2Script.FunctionBindings

variable {world : World}

section Tells


/-- The native preparations made for a binding's id. -/
def preparations (id : Nat) (calls : List NativeCall) : List NativeCall :=
  calls.filter fun call => match call with
    | .prepare binding _ _ => binding == id
    | _ => false

def targetReleases (id : Nat) (calls : List NativeCall) : List NativeCall :=
  calls.filter fun call => match call with
    | .targetRelease binding _ => binding == id
    | _ => false

/-- The capability is released before the target is. -/
def Precedes (id capability : Nat) (target : Int) (calls : List NativeCall) : Prop :=
  ∃ before after, calls = before ++ .targetRelease id target :: after ∧ .instanceRelease id capability ∈ before

theorem Precedes.append {id capability : Nat} {target : Int} {calls : List NativeCall} (precedes : Precedes id capability target calls)
    (more : List NativeCall) : Precedes id capability target (calls ++ more) := by
  obtain ⟨before,after,rfl,member⟩ := precedes
  exact ⟨before,after ++ more,by simp,member⟩

/-- What a stage tells of the calls that led to it. -/
def Tells (id : Nat) (calls : List NativeCall) : Life → Prop
  | .unborn => preparations id calls = [] ∧ targetReleases id calls = []
  | .whole target capability => preparations id calls = [.prepare id target capability] ∧ targetReleases id calls = []
  | .revoked target capability =>
    preparations id calls = [.prepare id target (some capability)] ∧ targetReleases id calls = [] ∧ .instanceRelease id capability ∈ calls
  | .ended => ∃ target capability, preparations id calls = [.prepare id target capability] ∧
      targetReleases id calls = [.targetRelease id target] ∧ ∀ own, capability = some own → Precedes id own target calls

/-- One more call of another binding tells nothing new. -/
theorem Tells.other {id : Nat} {calls : List NativeCall} {stage : Life} (tells : Tells id calls stage) {call : NativeCall}
    (other : call.binding? ≠ some id) : Tells id (calls ++ [call]) stage := by
  have prepares : preparations id (calls ++ [call]) = preparations id calls := by
    cases call <;> simp_all [preparations,NativeCall.binding?]
  have releases : targetReleases id (calls ++ [call]) = targetReleases id calls := by
    cases call <;> simp_all [targetReleases,NativeCall.binding?]
  cases stage with
  | unborn => exact ⟨prepares.trans tells.1,releases.trans tells.2⟩
  | whole target capability => exact ⟨prepares.trans tells.1,releases.trans tells.2⟩
  | revoked target capability => exact ⟨prepares.trans tells.1,releases.trans tells.2.1,List.mem_append_left _ tells.2.2⟩
  | ended =>
    obtain ⟨target,capability,first,second,third⟩ := tells
    exact ⟨target,capability,prepares.trans first,releases.trans second,fun own same => (third own same).append [call]⟩

/-- The next call of the binding itself. -/
theorem Tells.next {id : Nat} {calls : List NativeCall} {stage later : Life} (tells : Tells id calls stage) {call : NativeCall}
    (own : call.binding? = some id) (next : stage.next call = some later) : Tells id (calls ++ [call]) later := by
  cases stage with
  | unborn =>
    obtain ⟨prepares,releases⟩ := tells
    cases call with
    | prepare binding target capability =>
      obtain rfl := Option.some.inj own
      obtain rfl := Option.some.inj next
      exact ⟨by rw [preparations] at prepares ⊢; simp [prepares],by rw [targetReleases] at releases ⊢; simp [releases]⟩
    | activate capability owner => cases own
    | instanceRelease binding capability =>
      obtain rfl := Option.some.inj next
      exact ⟨by rw [preparations] at prepares ⊢; simp [prepares],by rw [targetReleases] at releases ⊢; simp [releases]⟩
    | targetRelease binding target => cases next
  | whole target capability =>
    obtain ⟨prepares,releases⟩ := tells
    cases call with
    | prepare binding other released => cases capability <;> cases next
    | activate capability owner => cases own
    | instanceRelease binding released =>
      cases capability with
      | none => cases next
      | some capability =>
        obtain rfl := Option.some.inj own
        simp only [Life.next] at next
        split at next
        · next same =>
          obtain rfl := Option.some.inj next
          subst same
          exact ⟨by rw [preparations] at prepares ⊢; simp [prepares],by rw [targetReleases] at releases ⊢; simp [releases],by simp⟩
        · cases next
    | targetRelease binding released =>
      cases capability with
      | some capability => cases next
      | none =>
        obtain rfl := Option.some.inj own
        simp only [Life.next] at next
        split at next
        · next same =>
          obtain rfl := Option.some.inj next
          subst same
          exact ⟨released,none,by rw [preparations] at prepares ⊢; simp [prepares],
            by rw [targetReleases] at releases ⊢; simp [releases],fun _ absent => by cases absent⟩
        · cases next
  | revoked target capability =>
    obtain ⟨prepares,releases,member⟩ := tells
    cases call with
    | prepare binding other released => cases next
    | activate capability owner => cases own
    | instanceRelease binding released =>
      simp only [Life.next] at next
      split at next
      · obtain rfl := Option.some.inj next
        exact ⟨by rw [preparations] at prepares ⊢; simp [prepares],by rw [targetReleases] at releases ⊢; simp [releases],
          List.mem_append_left _ member⟩
      · cases next
    | targetRelease binding released =>
      obtain rfl := Option.some.inj own
      simp only [Life.next] at next
      split at next
      · next same =>
        obtain rfl := Option.some.inj next
        subst same
        refine ⟨released,some capability,by rw [preparations] at prepares ⊢; simp [prepares],
          by rw [targetReleases] at releases ⊢; simp [releases],fun own same => ?_⟩
        exact ⟨calls,[],rfl,Option.some.inj same ▸ member⟩
      · cases next
  | ended => cases next

theorem tells_of_life {id : Nat} (calls : List NativeCall) {stage : Life} (reached : life id calls = some stage) :
    Tells id calls stage := by
  induction calls using List.reverseRecOn generalizing stage with
  | nil =>
    obtain rfl := Option.some.inj reached
    exact ⟨rfl,rfl⟩
  | append_singleton before call ih =>
    rw [life_append,Option.bind_eq_some_iff] at reached
    obtain ⟨earlier,here,next⟩ := reached
    rw [List.foldlM_cons,Life.step] at next
    split at next
    · next own =>
      rw [Option.bind_eq_bind,Option.bind_eq_some_iff] at next
      obtain ⟨after,step,rest⟩ := next
      obtain rfl := Option.some.inj rest
      exact (ih here).next own step
    · next other =>
      obtain rfl := Option.some.inj next
      exact (ih here).other other

theorem mem_preparations {id : Nat} {target : Int} {capability : Option Nat} {calls : List NativeCall}
    (member : .prepare id target capability ∈ calls) : .prepare id target capability ∈ preparations id calls :=
  List.mem_filter.mpr ⟨member,beq_self_eq_true id⟩

theorem mem_targetReleases {id : Nat} {target : Int} {calls : List NativeCall} (member : .targetRelease id target ∈ calls) :
    .targetRelease id target ∈ targetReleases id calls :=
  List.mem_filter.mpr ⟨member,beq_self_eq_true id⟩

end Tells

section Conservation

/-- Someone holds the target: a receipt, the registry's row or a running call's reference. -/
def World.HoldsTarget (world : World) (id : Nat) (target : Int) : Prop :=
  (∃ one ∈ world.unpublished, one.id = id ∧ one.target = some target) ∨
    (∃ row, world.rows.lookup id = some row ∧ row.target = some target) ∨ ∃ one ∈ world.held, one.id = id ∧ one.target = some target

/-- A held target's life has not ended; what is not held is given back. -/
theorem Sound.stage (sound : Sound world) (id : Nat) :
    (∃ target, world.HoldsTarget id target ∧ ((∃ capability, life id world.calls = some (.whole target capability)) ∨
      ∃ capability, life id world.calls = some (.revoked target capability))) ∨
      (∀ target, ¬world.HoldsTarget id target) ∧ Idle id world.calls := by
  have tracks : Tracks world.unpublished world.rows world.held world.nextId world.calls := sound.tracked
  by_cases inReceipt : ∃ one ∈ world.unpublished, one.id = id
  · obtain ⟨one,member,rfl⟩ := inReceipt
    have whole := tracks.preparedLife one member
    cases hasTarget : one.target with
    | some target =>
      rw [hasTarget] at whole
      exact .inl ⟨target,.inl ⟨one,member,rfl,hasTarget⟩,.inl ⟨one.capability,whole⟩⟩
    | none =>
      rw [hasTarget] at whole
      refine .inr ⟨?_,whole.2⟩
      rintro target (⟨other,inOthers,same,holds⟩ | ⟨row,found,_⟩ | ⟨other,inHeld,same,_⟩)
      · have equal := List.inj_on_of_nodup_map tracks.distinct inOthers member same
        rw [equal,hasTarget] at holds
        exact nomatch holds
      · exact tracks.rowApart _ row found one member rfl
      · exact tracks.heldApart other inHeld one member same.symm
  · have apart : ∀ one ∈ world.unpublished, one.id ≠ id := fun one member same => inReceipt ⟨one,member,same⟩
    cases found : world.rows.lookup id with
    | some row =>
      have whole := tracks.rowLife id row found
      cases hasTarget : row.target with
      | some target =>
        rw [hasTarget] at whole
        exact .inl ⟨target,.inr (.inl ⟨row,found,hasTarget⟩),.inl ⟨row.capability,whole⟩⟩
      | none =>
        rw [hasTarget] at whole
        refine .inr ⟨?_,whole.2⟩
        rintro target (⟨one,member,same,_⟩ | ⟨other,again,holds⟩ | ⟨one,inHeld,rfl,holds⟩)
        · exact apart one member same
        · rw [← Option.some.inj (found.symm.trans again),hasTarget] at holds
          exact nomatch holds
        · rw [← tracks.heldRow one inHeld row found,hasTarget] at holds
          exact nomatch holds
    | none =>
      by_cases inHeld : ∃ one ∈ world.held, one.id = id
      · obtain ⟨one,member,rfl⟩ := inHeld
        have revoked := tracks.heldLife one member found
        cases hasTarget : one.target with
        | some target =>
          rw [hasTarget] at revoked
          refine .inl ⟨target,.inr (.inr ⟨one,member,rfl,hasTarget⟩),?_⟩
          cases hasCapability : one.capability with
          | none =>
            rw [hasCapability] at revoked
            exact .inl ⟨none,revoked⟩
          | some capability =>
            rw [hasCapability] at revoked
            exact .inr ⟨capability,revoked⟩
        | none =>
          rw [hasTarget] at revoked
          refine .inr ⟨?_,revoked.2⟩
          rintro target (⟨other,inOthers,same,_⟩ | ⟨row,here,_⟩ | ⟨other,inOthers,same,holds⟩)
          · exact apart other inOthers same
          · exact nomatch found.symm.trans here
          · rw [tracks.heldSame one member other inOthers same,hasTarget] at holds
            exact nomatch holds
      · refine .inr ⟨?_,tracks.restLife id apart found fun one member same => inHeld ⟨one,member,same⟩⟩
        rintro target (⟨one,member,same,_⟩ | ⟨row,here,_⟩ | ⟨one,member,same,_⟩)
        · exact apart one member same
        · exact nomatch found.symm.trans here
        · exact inHeld ⟨one,member,same⟩

/-- Each preparation is released once, when no one holds its target, and never before; what is
released was prepared; and the capability goes with the row at the latest. -/
structure Conserved (world : World) : Prop where
  once : ∀ id target capability, .prepare id target capability ∈ world.calls →
    preparations id world.calls = [.prepare id target capability]
  kept : ∀ id target capability, .prepare id target capability ∈ world.calls → world.HoldsTarget id target →
    targetReleases id world.calls = []
  released : ∀ id target capability, .prepare id target capability ∈ world.calls → ¬world.HoldsTarget id target →
    targetReleases id world.calls = [.targetRelease id target]
  own : ∀ id target, .targetRelease id target ∈ world.calls → ∃ capability, .prepare id target capability ∈ world.calls
  before : ∀ id target capability, .prepare id target (some capability) ∈ world.calls → .targetRelease id target ∈ world.calls →
    Precedes id capability target world.calls
  revoked : ∀ id target capability, .prepare id target (some capability) ∈ world.calls → world.rows.lookup id = none →
    (∀ one ∈ world.unpublished, one.id ≠ id) → .instanceRelease id capability ∈ world.calls

theorem mem_of_preparations {id : Nat} {calls : List NativeCall} {call : NativeCall} (only : preparations id calls = [call]) :
    call ∈ calls := (List.mem_filter.mp (only ▸ List.mem_singleton_self call : call ∈ preparations id calls)).1

/-- What the calls tell of an id, by whether its target is held. -/
inductive Account (world : World) (id : Nat) : Prop where
  | held (target : Int) (capability : Option Nat) (holds : world.HoldsTarget id target)
      (prepares : preparations id world.calls = [.prepare id target capability]) (releases : targetReleases id world.calls = [])
  | unasked (free : ∀ target, ¬world.HoldsTarget id target) (prepares : preparations id world.calls = [])
      (releases : targetReleases id world.calls = [])
  | ended (free : ∀ target, ¬world.HoldsTarget id target) (target : Int) (capability : Option Nat)
      (prepares : preparations id world.calls = [.prepare id target capability])
      (releases : targetReleases id world.calls = [.targetRelease id target])
      (before : ∀ own, capability = some own → Precedes id own target world.calls)

theorem Sound.account (sound : Sound world) (id : Nat) : Account world id := by
  rcases sound.stage id with ⟨target,holds,⟨capability,reached⟩ | ⟨capability,reached⟩⟩ | ⟨free,reached | reached⟩
  · obtain ⟨prepares,releases⟩ := tells_of_life world.calls reached
    exact .held target capability holds prepares releases
  · obtain ⟨prepares,releases,_⟩ := tells_of_life world.calls reached
    exact .held target (some capability) holds prepares releases
  · obtain ⟨prepares,releases⟩ := tells_of_life world.calls reached
    exact .unasked free prepares releases
  · obtain ⟨target,capability,prepares,releases,before⟩ := tells_of_life world.calls reached
    exact .ended free target capability prepares releases before

theorem Sound.conserved (sound : Sound world) : Conserved world where
  once := by
    intro id target capability member
    have inPreparations := mem_preparations member
    cases sound.account id with
    | held other own _ prepares _ =>
      rw [prepares,List.mem_singleton] at inPreparations
      rw [prepares,inPreparations]
    | unasked _ prepares _ =>
      rw [prepares] at inPreparations
      exact nomatch inPreparations
    | ended _ other own prepares _ _ =>
      rw [prepares,List.mem_singleton] at inPreparations
      rw [prepares,inPreparations]
  kept := by
    intro id target capability member holds
    cases sound.account id with
    | held other own _ _ releases => exact releases
    | unasked _ _ releases => exact releases
    | ended free other own _ _ _ => exact absurd holds (free target)
  released := by
    intro id target capability member released
    have inPreparations := mem_preparations member
    cases sound.account id with
    | held other own holds prepares _ =>
      rw [prepares,List.mem_singleton,NativeCall.prepare.injEq] at inPreparations
      exact absurd (inPreparations.2.1 ▸ holds) released
    | unasked _ prepares _ =>
      rw [prepares] at inPreparations
      exact nomatch inPreparations
    | ended _ other own prepares releases _ =>
      rw [prepares,List.mem_singleton,NativeCall.prepare.injEq] at inPreparations
      rw [releases,inPreparations.2.1]
  own := by
    intro id target member
    have inReleases := mem_targetReleases member
    cases sound.account id with
    | held _ _ _ _ releases =>
      rw [releases] at inReleases
      exact nomatch inReleases
    | unasked _ _ releases =>
      rw [releases] at inReleases
      exact nomatch inReleases
    | ended _ other own prepares releases _ =>
      rw [releases,List.mem_singleton,NativeCall.targetRelease.injEq] at inReleases
      rw [inReleases.2]
      exact ⟨own,mem_of_preparations prepares⟩
  before := by
    intro id target capability member gone
    have inPreparations := mem_preparations member
    have inReleases := mem_targetReleases gone
    cases sound.account id with
    | held _ _ _ _ releases =>
      rw [releases] at inReleases
      exact nomatch inReleases
    | unasked _ _ releases =>
      rw [releases] at inReleases
      exact nomatch inReleases
    | ended _ other own prepares releases before =>
      rw [prepares,List.mem_singleton,NativeCall.prepare.injEq] at inPreparations
      rw [inPreparations.2.1]
      exact before capability inPreparations.2.2.symm
  revoked := by
    intro id target capability member noRow apart
    have inPreparations := mem_preparations member
    have finished : Idle id world.calls → .instanceRelease id capability ∈ world.calls := by
      rintro (reached | reached)
      · rw [(tells_of_life world.calls reached).1] at inPreparations
        exact nomatch inPreparations
      · obtain ⟨other,own,prepares,_,before⟩ := tells_of_life world.calls reached
        rw [prepares,List.mem_singleton,NativeCall.prepare.injEq] at inPreparations
        obtain ⟨first,last,split,inFirst⟩ := before capability inPreparations.2.2.symm
        rw [split]
        exact List.mem_append_left _ inFirst
    by_cases inHeld : ∃ one ∈ world.held, one.id = id
    · obtain ⟨one,inHeld,rfl⟩ := inHeld
      have stage := sound.tracked.heldLife one inHeld noRow
      cases hasTarget : one.target with
      | none =>
        rw [hasTarget] at stage
        exact finished stage.2
      | some held =>
        rw [hasTarget] at stage
        cases hasCapability : one.capability with
        | none =>
          rw [hasCapability] at stage
          rw [(tells_of_life world.calls stage).1,List.mem_singleton,NativeCall.prepare.injEq] at inPreparations
          exact nomatch inPreparations.2.2
        | some own =>
          rw [hasCapability] at stage
          obtain ⟨prepares,_,inCalls⟩ := tells_of_life world.calls stage
          rw [prepares,List.mem_singleton,NativeCall.prepare.injEq] at inPreparations
          rwa [Option.some.inj inPreparations.2.2]
    · exact finished (sound.tracked.restLife id apart noRow fun one member same => inHeld ⟨one,member,same⟩)

/-- Whoever can be asked for an id. -/
def World.Mentions (world : World) (id : Nat) : Prop :=
  (∃ one ∈ world.unpublished, one.id = id) ∨ (world.rows.lookup id).isSome ∨ (∃ one ∈ world.held, one.id = id) ∨
    ∃ call ∈ world.calls, call.binding? = some id

theorem Sound.mentions (sound : Sound world) {id : Nat} (mentioned : world.Mentions id) : id < world.nextId := by
  rcases mentioned with ⟨one,member,rfl⟩ | isRow | ⟨one,member,rfl⟩ | ⟨call,member,own⟩
  · exact sound.tracked.bounded one member
  · obtain ⟨row,found⟩ := Option.isSome_iff_exists.mp isRow
    exact sound.tracked.rowBounded id row found
  · exact sound.tracked.heldBounded one member
  · exact sound.tracked.spoken call member id own

end Conservation

end S2Script.FunctionBindings
