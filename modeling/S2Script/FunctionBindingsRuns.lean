import S2Script.FunctionBindingsLives

/-! Each operation of the registry keeps everything prepared in one place, with the native calls
of its stage. -/
namespace S2Script.FunctionBindings

open Plugin (Resource)

def World.unpublished (world : World) : List PreparedBinding := world.receipts.values.flatMap PreparedOwnerReceipt.bindings

/-- The world with bindings in hand that are in no receipt. -/
def World.Tracked (world : World) (inHand : List PreparedBinding) : Prop :=
  Tracks (inHand ++ world.unpublished) world.rows world.held world.nextId world.calls

def Ascending (bindings : List PreparedBinding) : Prop := (bindings.map PreparedBinding.id).Pairwise (· < ·)

structure Sound (world : World) : Prop where
  tracked : world.Tracked []
  ascending : ∀ handle receipt, world.receipts.lookup handle = some receipt → Ascending receipt.bindings
  handles : ∀ handle, world.nextHandle ≤ handle → world.receipts.lookup handle = none
  ledgers : ∃ acquired, Plugin.Refines world.plugins acquired

/-- A preparation changes nothing but the id counter and the native calls. -/
structure Frames (world later : World) : Prop where
  plugins : later.plugins = world.plugins
  packages : later.packages = world.packages
  nextPackage : later.nextPackage = world.nextPackage
  rows : later.rows = world.rows
  held : later.held = world.held
  receipts : later.receipts = world.receipts
  actives : later.actives = world.actives
  nextHandle : later.nextHandle = world.nextHandle
  nextId : world.nextId ≤ later.nextId

theorem Frames.refl (world : World) : Frames world world := ⟨rfl,rfl,rfl,rfl,rfl,rfl,rfl,rfl,Nat.le_refl _⟩

theorem Frames.trans {world later last : World} (first : Frames world later) (second : Frames later last) : Frames world last :=
  ⟨second.plugins.trans first.plugins,second.packages.trans first.packages,second.nextPackage.trans first.nextPackage,
    second.rows.trans first.rows,second.held.trans first.held,second.receipts.trans first.receipts,
    second.actives.trans first.actives,second.nextHandle.trans first.nextHandle,Nat.le_trans first.nextId second.nextId⟩

theorem Frames.unpublished {world later : World} (frames : Frames world later) : later.unpublished = world.unpublished := by
  rw [World.unpublished,World.unpublished,frames.receipts]

section Prepare

def dropCalls (bindings : List PreparedBinding) : List NativeCall :=
  bindings.flatMap fun one => releaseCalls one.id one.target one.capability

theorem dropPrepared_eq (world : World) (bindings : List PreparedBinding) :
    world.dropPrepared bindings = { world with calls := world.calls ++ dropCalls bindings } := by
  induction bindings generalizing world with
  | nil => simp [World.dropPrepared,dropCalls]
  | cons one rest ih =>
    rw [World.dropPrepared,List.foldl_cons,release_eq]
    refine (ih _).trans ?_
    simp [dropCalls]

theorem Tracks.dropAll {bindings prepared : List PreparedBinding} {rows : Table Nat Binding} {held : List Binding} {nextId : Nat}
    {calls : List NativeCall} (tracks : Tracks (bindings ++ prepared) rows held nextId calls) :
    Tracks prepared rows held nextId (calls ++ dropCalls bindings) := by
  induction bindings generalizing calls with
  | nil => simpa [dropCalls] using tracks
  | cons one rest ih => simpa [dropCalls] using ih tracks.dropPrepared

theorem World.Tracked.drop {world : World} {inHand : List PreparedBinding} (tracked : world.Tracked inHand) :
    (world.dropPrepared inHand).Tracked [] := by
  rw [dropPrepared_eq]
  exact tracked.dropAll

theorem frames_drop (world : World) (bindings : List PreparedBinding) : Frames world (world.dropPrepared bindings) := by
  rw [dropPrepared_eq]
  exact ⟨rfl,rfl,rfl,rfl,rfl,rfl,rfl,rfl,Nat.le_refl _⟩

theorem takeId_eq_some {world later : World} {id : Nat} (taken : world.takeId = some (id,later)) :
    id = world.nextId ∧ later = { world with nextId := world.nextId + 1 } := by
  rw [World.takeId] at taken
  split at taken
  · obtain ⟨rfl,rfl⟩ := Prod.mk.inj (Option.some.inj taken)
    exact ⟨rfl,rfl⟩
  · exact nomatch taken

/-- What the native side is asked for one id: its target whole if the binding gets it, else nothing is left. -/
theorem prepareBinding_spec (world : World) (function : Function) (id : Nat) (answer : NativeAnswer) :
    ∃ more, (world.prepareBinding function id answer).1 = { world with calls := world.calls ++ more } ∧
      (∀ call ∈ more, call.binding? = some id) ∧ (life id world.calls = some .unborn →
        match (world.prepareBinding function id answer).2 with
        | .ok (target,capability) => Whole id (world.calls ++ more) (some target) capability
        | .error _ => Idle id (world.calls ++ more)) := by
  cases answer with
  | refused why => exact ⟨[],by simp [World.prepareBinding],fun _ member => (nomatch member),fun unborn => .inl (by simpa using unborn)⟩
  | receipt valid target capability =>
    simp only [World.prepareBinding]
    split
    · split
      · exact ⟨[],by simp,fun _ member => (nomatch member),fun unborn => .inl (by simpa using unborn)⟩
      · refine ⟨[.prepare id target none],rfl,fun call member => List.mem_singleton.mp member ▸ rfl,fun unborn => ?_⟩
        refine (life_append id _ _).trans ?_
        rw [unborn]
        simp [Life.step,Life.next,NativeCall.binding?]
    · split
      · rw [release_eq]
        by_cases noTarget : target ≤ 0
        · refine ⟨releaseCalls id none (if capability == 0 then none else some capability),?_,?_,fun unborn => ?_⟩
          · simp [noTarget]
          · intro call member
            by_cases noCapability : capability = 0 <;> simp [releaseCalls,noCapability] at member
            rw [member]
            rfl
          · refine .inl ?_
            rw [life_append,unborn]
            by_cases noCapability : capability = 0 <;>
              simp [releaseCalls,noCapability,Life.step,Life.next,NativeCall.binding?]
        · refine ⟨.prepare id target (if capability == 0 then none else some capability) ::
            releaseCalls id (some target) (if capability == 0 then none else some capability),?_,?_,fun unborn => ?_⟩
          · simp [noTarget,World.call]
          · intro call member
            by_cases noCapability : capability = 0 <;> simp [releaseCalls,noCapability] at member
            · rcases member with rfl | rfl <;> rfl
            · rcases member with rfl | rfl | rfl <;> rfl
          · refine .inr ?_
            rw [life_append,unborn]
            by_cases noCapability : capability = 0 <;>
              simp [releaseCalls,noCapability,Life.step,Life.next,NativeCall.binding?]
      · refine ⟨[.prepare id target (some capability)],rfl,fun call member => List.mem_singleton.mp member ▸ rfl,fun unborn => ?_⟩
        refine (life_append id _ _).trans ?_
        rw [unborn]
        simp [Life.step,Life.next,NativeCall.binding?]

/-- A prepared vector: the world with it in hand, its ids ascending and its new ones fresh. -/
structure Prepares (world later : World) (inHand result : List PreparedBinding) : Prop where
  frames : Frames world later
  tracked : later.Tracked result
  ascending : Ascending inHand → Ascending result
  minted : ∀ one ∈ result, one ∈ inHand ∨ world.nextId ≤ one.id

theorem resolve_spec (world : World) (prepared : PreparedFunction) (id : Nat) (answer : NativeAnswer) :
    ∃ more, (world.resolve prepared id answer).1 = { world with calls := world.calls ++ more } ∧
      (∀ call ∈ more, call.binding? = some id) ∧ (life id world.calls = some .unborn →
        match (world.resolve prepared id answer).2 with
        | .ok (target,capability) => Whole id (world.calls ++ more) (some target) capability
        | .error _ => Idle id (world.calls ++ more)) := by
  rw [World.resolve]
  cases prepared.unavailable with
  | some why => exact ⟨[],by simp,fun _ member => (nomatch member),fun unborn => .inl (by simpa using unborn)⟩
  | none => exact prepareBinding_spec world prepared.function id answer

/-- The vector a preparation leaves in hand. -/
def vectorOf : Except String (List PreparedBinding) → List PreparedBinding
  | .ok bindings => bindings
  | .error _ => []

theorem Ascending.snoc {bindings : List PreparedBinding} (ascending : Ascending bindings) {one : PreparedBinding}
    (above : ∀ other ∈ bindings, other.id < one.id) : Ascending (bindings ++ [one]) := by
  rw [Ascending,List.map_append]
  refine List.pairwise_append.mpr ⟨ascending,List.pairwise_singleton _ _,fun id member last same => ?_⟩
  obtain ⟨other,old,rfl⟩ := List.mem_map.mp member
  obtain rfl := List.mem_singleton.mp same
  exact above other old

/-- One more binding in hand, under the id just taken. -/
theorem World.Tracked.snoc {world : World} {inHand : List PreparedBinding} (tracked : world.Tracked inHand)
    {more : List NativeCall} (own : ∀ call ∈ more, call.binding? = some world.nextId) {one : PreparedBinding}
    (named : one.id = world.nextId) (whole : Whole world.nextId (world.calls ++ more) one.target one.capability) :
    World.Tracked { world with nextId := world.nextId + 1, calls := world.calls ++ more } (inHand ++ [one]) := by
  refine (Tracks.prepare tracked own named whole).perm ?_
  rw [List.append_assoc,List.append_assoc]
  exact List.perm_append_comm.append_left inHand

theorem prepareFunctions_spec (host : Option Nat) (functions : List (PreparedFunction × NativeAnswer)) {world : World}
    {inHand : List PreparedBinding} (tracked : world.Tracked inHand) :
    Prepares world (world.prepareFunctions host inHand functions).1 inHand
      (vectorOf (world.prepareFunctions host inHand functions).2) := by
  induction functions generalizing world inHand with
  | nil => exact ⟨Frames.refl world,tracked,id,fun _ member => .inl member⟩
  | cons head rest ih =>
    obtain ⟨prepared,answer⟩ := head
    have dropped : ∀ {later}, Frames world later → later.Tracked inHand → Prepares world (later.dropPrepared inHand) inHand [] :=
      fun frames tracked => ⟨frames.trans (frames_drop _ _),tracked.drop,fun _ => List.Pairwise.nil,fun _ member => nomatch member⟩
    simp only [World.prepareFunctions]
    split
    · exact dropped (Frames.refl world) tracked
    · split
      · exact dropped (Frames.refl world) tracked
      · cases taken : world.takeId with
        | none => exact dropped (Frames.refl world) tracked
        | some pair =>
          obtain ⟨id,next⟩ := pair
          obtain ⟨rfl,rfl⟩ := takeId_eq_some taken
          obtain ⟨more,calls,own,lives⟩ := resolve_spec { world with nextId := world.nextId + 1 } prepared world.nextId answer
          have lives := lives (Tracks.fresh tracked (Nat.le_refl world.nextId))
          have frames : Frames world { world with nextId := world.nextId + 1, calls := world.calls ++ more } :=
            ⟨rfl,rfl,rfl,rfl,rfl,rfl,rfl,rfl,Nat.le_succ _⟩
          have below : ∀ other ∈ inHand, other.id < world.nextId := fun other member =>
            Tracks.bounded tracked other (List.mem_append_left _ member)
          have continues : ∀ {one : PreparedBinding}, one.id = world.nextId →
              Whole world.nextId (world.calls ++ more) one.target one.capability →
              Prepares world
                (World.prepareFunctions { world with nextId := world.nextId + 1, calls := world.calls ++ more } host (inHand ++ [one]) rest).1
                inHand (vectorOf (World.prepareFunctions { world with nextId := world.nextId + 1, calls := world.calls ++ more } host
                  (inHand ++ [one]) rest).2) := by
            intro one named whole
            have after := ih (tracked.snoc own named whole)
            refine ⟨frames.trans after.frames,after.tracked,fun ascending => ?_,fun other member => ?_⟩
            · exact after.ascending (ascending.snoc fun other member => named ▸ below other member)
            · rcases after.minted other member with old | above
              · rcases List.mem_append.mp old with before | new
                · exact .inl before
                · exact .inr (by rw [List.mem_singleton.mp new,named])
              · exact .inr (Nat.le_of_succ_le above)
          simp only
          cases resolved : World.resolve { world with nextId := world.nextId + 1 } prepared world.nextId answer with
          | mk mid outcome =>
            rw [resolved] at calls lives
            simp only at calls lives
            subst calls
            cases outcome with
            | ok pair => exact continues rfl lives
            | error why =>
              simp only
              split
              · exact dropped frames (Tracks.spend tracked more own lives)
              · exact continues rfl ⟨rfl,lives⟩

/-- A receipt that is kept holds what was in hand. -/
theorem Sound.keepReceipt {world : World} {receipt : PreparedOwnerReceipt} (tracked : world.Tracked receipt.bindings) (ascending : Ascending receipt.bindings)
    (before : ∀ handle one, world.receipts.lookup handle = some one → Ascending one.bindings)
    (handles : ∀ handle, world.nextHandle ≤ handle → world.receipts.lookup handle = none)
    (ledgers : ∃ acquired, Plugin.Refines world.plugins acquired) : Sound (world.keepReceipt receipt) where
  tracked := by
    refine Tracks.perm tracked ?_
    have fresh : world.nextHandle ∉ world.receipts := by
      rw [← AList.lookup_eq_none]
      exact handles _ (Nat.le_refl _)
    rw [World.unpublished,World.keepReceipt,Table.values_insert,Table.erase_of_absent fresh]
    simp [World.unpublished]
  ascending := by
    intro handle one found
    rw [World.keepReceipt,Table.lookup_insert_eq] at found
    split at found
    · exact Option.some.inj found ▸ ascending
    · exact before handle one found
  handles := by
    intro handle above
    rw [World.keepReceipt] at above ⊢
    simp only at above ⊢
    rw [Table.lookup_insert_eq,if_neg (by omega)]
    exact handles handle (by omega)
  ledgers := ledgers

/-- What a prepare call leaves. -/
def LeavesReceipt (world later : World) : Except String Nat → Prop
  | .error _ => Frames world later
  | .ok handle => ∃ mid receipt, Frames world mid ∧ handle = mid.nextHandle ∧ later = mid.keepReceipt receipt ∧
      ∀ one ∈ receipt.bindings, world.nextId ≤ one.id

/-- A preparation either leaves a receipt of fresh ids, or no trace. -/
theorem Sound.prepareOwnerAuthorized {world : World} (sound : Sound world) (intendedId : String) (candidate : PreparedCandidate)
    (host : Option Nat) (answers : Nat → NativeAnswer) :
    Sound (world.prepareOwnerAuthorized intendedId candidate host answers).1 ∧
      LeavesReceipt world (world.prepareOwnerAuthorized intendedId candidate host answers).1
        (world.prepareOwnerAuthorized intendedId candidate host answers).2 := by
  have prepares := prepareFunctions_spec host (answered candidate answers) sound.tracked
  rw [World.prepareOwnerAuthorized]
  split
  · exact ⟨sound,Frames.refl world⟩
  · cases result : world.prepareFunctions host [] (answered candidate answers) with
    | mk mid outcome =>
      rw [result] at prepares
      have frames := prepares.frames
      have ascending : ∀ handle one, mid.receipts.lookup handle = some one → Ascending one.bindings := by
        rw [frames.receipts]
        exact sound.ascending
      have handles : ∀ handle, mid.nextHandle ≤ handle → mid.receipts.lookup handle = none := by
        rw [frames.receipts,frames.nextHandle]
        exact sound.handles
      have ledgers : ∃ acquired, Plugin.Refines mid.plugins acquired := frames.plugins ▸ sound.ledgers
      cases outcome with
      | error why => exact ⟨⟨prepares.tracked,ascending,handles,ledgers⟩,frames⟩
      | ok bindings =>
        refine ⟨Sound.keepReceipt prepares.tracked (prepares.ascending List.Pairwise.nil) ascending handles ledgers,
          mid,⟨intendedId,bindings,host⟩,frames,rfl,rfl,fun one member => ?_⟩
        exact (prepares.minted one member).resolve_left (fun inNone => nomatch inNone)

theorem Sound.prepareOwner {world : World} (sound : Sound world) (intendedId : String) (candidate : PreparedCandidate)
    (answers : Nat → NativeAnswer) :
    Sound (world.prepareOwner intendedId candidate answers).1 ∧
      LeavesReceipt world (world.prepareOwner intendedId candidate answers).1 (world.prepareOwner intendedId candidate answers).2 :=
  sound.prepareOwnerAuthorized intendedId candidate none answers

theorem Sound.preparePackageOwner {world : World} (sound : Sound world) (owner : Nat) (candidate : PreparedCandidate)
    (answers : Nat → NativeAnswer) :
    Sound (world.preparePackageOwner owner candidate answers).1 ∧
      LeavesReceipt world (world.preparePackageOwner owner candidate answers).1 (world.preparePackageOwner owner candidate answers).2 := by
  rw [World.preparePackageOwner]
  split
  · exact ⟨sound,Frames.refl world⟩
  · split
    · exact ⟨sound,Frames.refl world⟩
    · exact sound.prepareOwnerAuthorized _ candidate (some owner) answers

end Prepare

end S2Script.FunctionBindings
