import S2Script.FunctionBindingsAccounts
import S2Script.FunctionBindingsLedger

/-! What holds in every run: each preparation is released once, when its last holder goes; a
refused call leaves no trace; no id comes back; and a ledger lists what is published. -/
namespace S2Script.FunctionBindings

open Plugin (Resource)

variable {world later : World}

section Calls

/-- Once a row has left, its id is spent. -/
theorem Sound.left (sound : Sound world) (moves : Moves world later) {id : Nat} (isRow : (world.rows.lookup id).isSome)
    (gone : later.rows.lookup id = none) : Spent later id := by
  obtain ⟨row,found⟩ := Option.isSome_iff_exists.mp isRow
  have bounded := sound.tracked.rowBounded id row found
  refine ⟨Nat.lt_of_lt_of_le bounded moves.nextId,fun one member => ?_,gone⟩
  rcases moves.unpublished one member with old | fresh
  · exact sound.tracked.rowApart id row found one old
  · omega

/-- No lookup and no frame access finds a spent id. -/
theorem Spent.refuses {id : Nat} (spent : Spent world id) :
    (∀ owner, world.binding id owner = .error "binding owner generation unavailable") ∧
      ∀ frameTarget one, one.id = id → world.instanceAccess frameTarget one = .error "binding owner generation unavailable" := by
  have refused : ∀ owner, world.binding id owner = .error "binding owner generation unavailable" := by
    intro owner
    rw [World.binding,spent.2.2]
  refine ⟨refused,fun frameTarget one same => ?_⟩
  rw [World.instanceAccess,same,refused]

/-- A refused call: the registry, the ledgers, the packages and the references are as before, and
what was prepared for the ids it acquired is released. -/
structure LeavesNoTrace (world later : World) (acquired : Nat → Prop) : Prop where
  rows : later.rows = world.rows
  ledgers : acquisitions later.plugins = acquisitions world.plugins
  packages : later.packages = world.packages
  held : later.held = world.held
  released : ∀ id target capability, acquired id → .prepare id target capability ∈ later.calls →
    targetReleases id later.calls = [.targetRelease id target]

theorem not_mentioned {id : Nat} (apart : ∀ one ∈ world.unpublished, one.id ≠ id) (noRow : world.rows.lookup id = none)
    (free : ∀ one ∈ world.held, one.id ≠ id) (target : Int) : ¬world.HoldsTarget id target := by
  rintro (⟨one,member,same,_⟩ | ⟨row,found,_⟩ | ⟨one,member,same,_⟩)
  · exact apart one member same
  · exact nomatch noRow.symm.trans found
  · exact free one member same

theorem Sound.prepare_leavesNoTrace (sound : Sound world) (after : Sound later) (frames : Frames world later) :
    LeavesNoTrace world later (world.nextId ≤ ·) where
  rows := frames.rows
  ledgers := by rw [frames.plugins]
  packages := frames.packages
  held := frames.held
  released := by
    intro id target capability fresh member
    refine after.conserved.released id target capability member (not_mentioned ?_ ?_ ?_ target)
    · intro one inReceipt
      rw [frames.unpublished] at inReceipt
      have bounded := sound.tracked.bounded one inReceipt
      omega
    · rw [frames.rows]
      cases found : world.rows.lookup id with
      | none => rfl
      | some row =>
        have bounded := sound.tracked.rowBounded id row found
        omega
    · intro one inHeld
      rw [frames.held] at inHeld
      have bounded := sound.tracked.heldBounded one inHeld
      omega

theorem Sound.activate_leavesNoTrace (sound : Sound world) (after : Sound later) {handle : Nat} {takes : PreparedOwnerReceipt → Prop}
    (undone : Undone world later) (taken : Taken world later handle takes) :
    LeavesNoTrace world later fun id => ∃ receipt, world.receipts.lookup handle = some receipt ∧ takes receipt ∧
      ∃ one ∈ receipt.bindings, one.id = id where
  rows := undone.rows
  ledgers := undone.acquisitions
  packages := undone.packages
  held := undone.held
  released := by
    rintro id target capability ⟨receipt,found,took,one,inside,rfl⟩ member
    have erased := taken receipt found took
    have inReceipt : one ∈ world.unpublished := mem_unpublished.mpr ⟨handle,receipt,found,inside⟩
    refine after.conserved.released _ target capability member (not_mentioned ?_ ?_ ?_ target)
    · intro other inOthers same
      have distinct := (sound.take found).distinct
      rw [List.map_append,List.nodup_append'] at distinct
      refine distinct.2.2 (List.mem_map_of_mem inside) (List.mem_map.mpr ⟨other,?_,same⟩)
      rwa [World.unpublished,erased] at inOthers
    · rw [undone.rows]
      cases here : world.rows.lookup one.id with
      | none => rfl
      | some row => exact absurd rfl (sound.tracked.rowApart one.id row here one inReceipt)
    · intro other inHeld same
      rw [undone.held] at inHeld
      exact sound.tracked.heldApart other inHeld one inReceipt same.symm

/-- Each binding of the receipt has its row. -/
def PublishesAll (world later : World) (handle : Nat) (lifetime : BindingLifetime) (owner : OwnerKey) : Prop :=
  ∃ receipt, world.receipts.lookup handle = some receipt ∧
    ∀ one ∈ receipt.bindings, later.rows.lookup one.id = some (one.published lifetime owner)

/-- What a plugin's activation leaves: exactly its ids published for the owner, and in its ledger
after what it had recorded, none of which is published. -/
structure Publishes (world later : World) (owner : OwnerKey) (ids : List Nat) : Prop where
  owned : later.ownerBindings owner = ids
  ledger : ∃ held, acquisitions world.plugins owner.id = some (owner.generation,held) ∧
    acquisitions later.plugins owner.id = some (owner.generation,held ++ ids.map Resource.functionBinding) ∧
    (bindingIds (held ++ ids.map Resource.functionBinding)).filter (fun id => (later.rows.lookup id).isSome) = ids ∧
    (Complete world → bindingIds (held ++ ids.map Resource.functionBinding) = ids)

theorem Sound.ownerBindings_eq (sound : Sound later) {owner : OwnerKey} {ids : List Nat} (ascending : ids.Pairwise (· < ·))
    (owns : ∀ id, id ∈ ids ↔ ∃ row, later.rows.lookup id = some row ∧ row.owner = owner) : later.ownerBindings owner = ids := by
  have named := sound.tracked.rowId
  have distinct : ((later.rows.values.filter fun binding => binding.owner == owner).map Binding.id).Nodup := by
    refine List.Nodup.sublist (List.filter_sublist.map _) ?_
    rw [Table.values_map_names named]
    exact later.rows.nodupKeys
  have members : ∀ id, id ∈ (later.rows.values.filter fun binding => binding.owner == owner).map Binding.id ↔ id ∈ ids := by
    intro id
    rw [owns,List.mem_map]
    constructor
    · rintro ⟨row,member,rfl⟩
      obtain ⟨inValues,own⟩ := List.mem_filter.mp member
      obtain ⟨key,found⟩ := (Table.mem_values _ _).mp inValues
      exact ⟨row,named key row found ▸ found,beq_iff_eq.mp own⟩
    · rintro ⟨row,found,own⟩
      exact ⟨row,List.mem_filter.mpr ⟨(Table.mem_values _ _).mpr ⟨id,found⟩,beq_iff_eq.mpr own⟩,named id row found⟩
  have perm := (List.perm_ext_iff_of_nodup distinct (ascending.imp Nat.ne_of_lt)).mpr members
  exact ((List.mergeSort_perm _ _).trans perm).eq_of_pairwise' (List.pairwise_mergeSort' (· ≤ ·) _) (ascending.imp Nat.le_of_lt)

theorem bindingIds_append (held : List Resource) (ids : List Nat) :
    bindingIds (held ++ ids.map Resource.functionBinding) = bindingIds held ++ ids := by
  rw [bindingIds,List.filterMap_append,List.filterMap_map]
  congr 1
  exact List.filterMap_some

theorem Sound.publishes (sound : Sound world) (listed : Listed world) (after : Sound later) {handle : Nat} {owner : OwnerKey}
    {ids : List Nat} (activated : Activated world later handle owner ids) : Publishes world later owner ids := by
  obtain ⟨receipt,found,idsEq,ascending,rows⟩ := activated.receipt
  obtain ⟨held,before,now⟩ := activated.ledger
  have owns : ∀ id, id ∈ ids ↔ ∃ row, later.rows.lookup id = some row ∧ row.owner = owner := by
    intro id
    rw [idsEq,List.mem_map]
    constructor
    · rintro ⟨one,inside,rfl⟩
      exact ⟨_,(published_row sound found rows _ _).mpr (.inl ⟨one,inside,rfl,rfl⟩),rfl⟩
    · rintro ⟨row,here,own⟩
      rcases (published_row sound found rows id row).mp here with ⟨one,inside,same,_⟩ | ⟨_,old⟩
      · exact ⟨one,inside,same⟩
      · exact absurd own (activated.unpublished id row old)
  -- what the ledger held has no row: its row would be the owner's
  have unpublished : ∀ n, .functionBinding n ∈ held → world.rows.lookup n = none := by
    intro n member
    cases here : world.rows.lookup n with
    | none => rfl
    | some row =>
      have own := (listed.ledgers owner.id owner.generation held n before member).2.2 row here
      rw [← activated.isPlugin] at own
      exact absurd own (activated.unpublished n row here)
  have gone : ∀ n ∈ bindingIds held, later.rows.lookup n = none := by
    intro n member
    rw [mem_bindingIds] at member
    have apart := (listed.ledgers owner.id owner.generation held n before member).2.1
    cases here : later.rows.lookup n with
    | none => rfl
    | some row =>
      rcases (published_row sound found rows n row).mp here with ⟨one,inside,same,_⟩ | ⟨_,old⟩
      · exact absurd same (apart one (mem_unpublished.mpr ⟨handle,receipt,found,inside⟩))
      · exact nomatch (unpublished n member).symm.trans old
  refine ⟨after.ownerBindings_eq (idsEq ▸ ascending) owns,held,before,?_,?_,fun complete => ?_⟩
  · rw [now]
    exact Function.update_self ..
  · rw [bindingIds_append,List.filter_append]
    have none : (bindingIds held).filter (fun id => (later.rows.lookup id).isSome) = [] := by
      refine List.filter_eq_nil_iff.mpr fun n member => ?_
      rw [gone n member]
      exact Bool.false_ne_true
    have all : ids.filter (fun id => (later.rows.lookup id).isSome) = ids := by
      refine List.filter_eq_self.mpr fun n member => ?_
      obtain ⟨row,here,_⟩ := (owns n).mp member
      rw [here,Option.isSome_some]
    rw [none,all,List.nil_append]
  · have empty : bindingIds held = [] := by
      refine List.eq_nil_iff_forall_not_mem.mpr fun n member => ?_
      rw [mem_bindingIds] at member
      have isRow := complete owner.id owner.generation held n before member
      rw [unpublished n member] at isRow
      exact nomatch isRow
    rw [bindingIds_append,empty,List.nil_append]

theorem Sound.publishesAll (sound : Sound world) {handle : Nat} {receipt : PreparedOwnerReceipt}
    (found : world.receipts.lookup handle = some receipt) {lifetime : BindingLifetime} {owner : OwnerKey}
    (rows : later.rows = (world.publish lifetime owner receipt.bindings).rows) : PublishesAll world later handle lifetime owner :=
  ⟨receipt,found,fun one inside => (published_row sound found rows _ _).mpr (.inl ⟨one,inside,rfl,rfl⟩)⟩

/-- What is taken by a call of the registry that may fail, for each of its four. -/
structure Refuses (world : World) : Prop where
  prepareOwner : ∀ intendedId candidate answers why, (world.prepareOwner intendedId candidate answers).2 = .error why →
    LeavesNoTrace world (world.prepareOwner intendedId candidate answers).1 (world.nextId ≤ ·)
  preparePackageOwner : ∀ owner candidate answers why, (world.preparePackageOwner owner candidate answers).2 = .error why →
    LeavesNoTrace world (world.preparePackageOwner owner candidate answers).1 (world.nextId ≤ ·)
  activateOwner : ∀ handle owner limit activates why, (world.activateOwner handle owner limit activates).2 = .error why →
    LeavesNoTrace world (world.activateOwner handle owner limit activates).1 fun id =>
      ∃ receipt, world.receipts.lookup handle = some receipt ∧ receipt.host = none ∧ ∃ one ∈ receipt.bindings, one.id = id
  activatePackageOwner : ∀ handle owner activates why, (world.activatePackageOwner handle owner activates).2 = .error why →
    LeavesNoTrace world (world.activatePackageOwner handle owner activates).1 fun id =>
      ∃ receipt, world.receipts.lookup handle = some receipt ∧
        (receipt.host.isSome = true ∧ (world.packages.lookup owner).isSome) ∧ ∃ one ∈ receipt.bindings, one.id = id

theorem Sound.refuses (sound : Sound world) : Refuses world where
  prepareOwner := by
    intro intendedId candidate answers why refused
    obtain ⟨after,leaves⟩ := sound.prepareOwner intendedId candidate answers
    rw [refused] at leaves
    exact sound.prepare_leavesNoTrace after leaves
  preparePackageOwner := by
    intro owner candidate answers why refused
    obtain ⟨after,leaves⟩ := sound.preparePackageOwner owner candidate answers
    rw [refused] at leaves
    exact sound.prepare_leavesNoTrace after leaves
  activateOwner := by
    intro handle owner limit activates why refused
    obtain ⟨after,outcome⟩ := sound.activateOwner handle owner limit activates
    rw [refused] at outcome
    exact sound.activate_leavesNoTrace after outcome.1 outcome.2
  activatePackageOwner := by
    intro handle owner activates why refused
    obtain ⟨after,outcome⟩ := sound.activatePackageOwner handle owner activates
    rw [refused] at outcome
    exact sound.activate_leavesNoTrace after outcome.1 outcome.2

/-- Ids name one binding each, all of them given out by the counter. -/
structure Named (world : World) : Prop where
  mentioned : ∀ id, world.Mentions id → id < world.nextId
  distinct : (world.unpublished.map PreparedBinding.id).Nodup
  published : ∀ id row, world.rows.lookup id = some row → row.id = id ∧ ∀ one ∈ world.unpublished, one.id ≠ id

theorem Sound.named (sound : Sound world) : Named world where
  mentioned := fun _ mentioned => sound.mentions mentioned
  distinct := sound.tracked.distinct
  published := fun id row found => ⟨sound.tracked.rowId id row found,sound.tracked.rowApart id row found⟩

end Calls

theorem run_append (operations more : List Operation) : run (operations ++ more) = more.foldl execute (run operations) :=
  List.foldl_append

/-- Over every run, what is prepared is held or released, refused calls leave no trace, ids are not
given out again, a row that left is refused for good, and an activation publishes all. -/
theorem bindings_are_conserved (operations : List Operation) :
    Conserved (run operations) ∧ Refuses (run operations) ∧ Named (run operations) ∧
      (∀ more, Moves (run operations) (run (operations ++ more))) ∧
      (∀ more rest id, ((run operations).rows.lookup id).isSome → (run (operations ++ more)).rows.lookup id = none →
        (∀ owner, (run (operations ++ more ++ rest)).binding id owner = .error "binding owner generation unavailable") ∧
        ∀ frameTarget one, one.id = id → (run (operations ++ more ++ rest)).instanceAccess frameTarget one =
          .error "binding owner generation unavailable") ∧
      (∀ handle owner limit activates ids later, (run operations).activateOwner handle owner limit activates = (later,.ok ids) →
        PublishesAll (run operations) later handle .plugin owner ∧ Publishes (run operations) later owner ids ∧
        ((∀ operation ∈ operations, operation.dropsBare = false) →
          ∀ held, acquisitions later.plugins owner.id = some (owner.generation,held) → bindingIds held = ids)) ∧
      ∀ handle owner activates active later, (run operations).activatePackageOwner handle owner activates = (later,.ok active) →
        ∃ state, (run operations).packages.lookup owner = some state ∧
          PublishesAll (run operations) later handle (.package owner) state.key ∧
          later.packages.lookup owner = some { state with phase := .active } := by
  have sound : Sound (run operations) := Sound.start.run operations
  have moves : ∀ more, Moves (run operations) (run (operations ++ more)) := by
    intro more
    rw [run_append]
    exact sound.moves_run more
  refine ⟨sound.conserved,sound.refuses,sound.named,moves,?_,?_,?_⟩
  · intro more rest id isRow gone
    have spent := (sound.left (moves more) isRow gone)
    have still : Moves (run (operations ++ more)) (run (operations ++ more ++ rest)) := by
      rw [run_append (operations ++ more)]
      exact (Sound.start.run (operations ++ more)).moves_run rest
    exact (spent.moves still).refuses
  · intro handle owner limit activates ids later result
    obtain ⟨after,activated⟩ := sound.activateOwner handle owner limit activates
    rw [result] at after activated
    obtain ⟨receipt,found,_,_,rows⟩ := activated.receipt
    have publishes := sound.publishes (Listed.run operations) after activated
    refine ⟨sound.publishesAll found rows,publishes,fun inLedger held here => ?_⟩
    obtain ⟨before,_,now,_,exact⟩ := publishes.ledger
    have same := Option.some.inj (now.symm.trans here)
    rw [← (Prod.mk.inj same).2]
    exact exact (Complete.run operations inLedger)
  · intro handle owner activates active later result
    obtain ⟨_,activated⟩ := sound.activatePackageOwner handle owner activates
    rw [result] at activated
    obtain ⟨receipt,state,found,known,rows,packages,_⟩ := activated.receipt
    refine ⟨state,known,sound.publishesAll found rows,?_⟩
    rw [packages,Table.lookup_insert_eq,if_pos rfl]

/-- A call outlives its binding's row: the capability goes with the row, the target with the call. -/
def dropUnderCall : List Operation :=
  [.mint "b",.preparePackageOwner 1 ⟨"b",[⟨⟨"f","b.f","required","generic.v2",some ⟨"b",1,.gamePackage⟩⟩,none⟩]⟩ fun _ => .receipt true 7 3,
    .activatePackageOwner 1 1 fun _ => true,.hold 1 ⟨"b",1,.gamePackage⟩,.dropActive 2,.letGo 0]

example : (run dropUnderCall).calls = [.prepare 1 7 (some 3),.activate 3 ⟨"b",1,.gamePackage⟩,.instanceRelease 1 3,
    .instanceRelease 1 3,.targetRelease 1 7] := by decide +kernel

end S2Script.FunctionBindings
