import S2Script.FunctionBindingsDrops

/-! What each operation does to rows, receipts and ledgers: ids in a ledger are those of the
owner's own rows, and an id that has left the registry does not come back. -/
namespace S2Script.FunctionBindings

open Plugin (Resource Acquisitions releaseRecent)

variable {world later : World}

/-- How ids move: a receipt's are old or fresh, a row's are old, or from a receipt, or fresh. -/
structure Moves (world later : World) : Prop where
  nextId : world.nextId ≤ later.nextId
  unpublished : ∀ one ∈ later.unpublished, one ∈ world.unpublished ∨ world.nextId ≤ one.id
  rows : ∀ id row, later.rows.lookup id = some row →
    world.rows.lookup id = some row ∨ (∃ one ∈ world.unpublished, one.id = id) ∨ world.nextId ≤ id

theorem Moves.refl (world : World) : Moves world world := ⟨Nat.le_refl _,fun _ => .inl,fun _ _ => .inl⟩

theorem Moves.trans {last : World} (first : Moves world later) (second : Moves later last) : Moves world last where
  nextId := Nat.le_trans first.nextId second.nextId
  unpublished := by
    intro one member
    rcases second.unpublished one member with old | fresh
    · exact first.unpublished one old
    · exact .inr (Nat.le_trans first.nextId fresh)
  rows := by
    intro id row found
    rcases second.rows id row found with old | ⟨one,member,rfl⟩ | fresh
    · exact first.rows id row old
    · rcases first.unpublished one member with old | fresh
      · exact .inr (.inl ⟨one,old,rfl⟩)
      · exact .inr (.inr fresh)
    · exact .inr (.inr (Nat.le_trans first.nextId fresh))

/-- The id is spent: in no receipt and in no row. -/
def Spent (world : World) (id : Nat) : Prop :=
  id < world.nextId ∧ (∀ one ∈ world.unpublished, one.id ≠ id) ∧ world.rows.lookup id = none

theorem Spent.moves {id : Nat} (spent : Spent world id) (moves : Moves world later) : Spent later id := by
  obtain ⟨bounded,apart,gone⟩ := spent
  refine ⟨Nat.lt_of_lt_of_le bounded moves.nextId,fun one member => ?_,?_⟩
  · rcases moves.unpublished one member with old | fresh
    · exact apart one old
    · omega
  · cases found : later.rows.lookup id with
    | none => rfl
    | some row =>
      rcases moves.rows id row found with old | ⟨one,member,same⟩ | fresh
      · exact nomatch gone.symm.trans old
      · exact absurd same (apart one member)
      · omega

theorem mem_unpublished {one : PreparedBinding} :
    one ∈ world.unpublished ↔ ∃ handle receipt, world.receipts.lookup handle = some receipt ∧ one ∈ receipt.bindings := by
  rw [World.unpublished,List.mem_flatMap]
  constructor
  · rintro ⟨receipt,inValues,member⟩
    obtain ⟨handle,found⟩ := (Table.mem_values _ _).mp inValues
    exact ⟨handle,receipt,found,member⟩
  · rintro ⟨handle,receipt,found,member⟩
    exact ⟨receipt,(Table.mem_values _ _).mpr ⟨handle,found⟩,member⟩

/-- Receipts that were there before hold no new ids. -/
theorem unpublished_of_fewer (fewer : ∀ handle receipt, later.receipts.lookup handle = some receipt →
    world.receipts.lookup handle = some receipt) : ∀ one ∈ later.unpublished, one ∈ world.unpublished := by
  intro one member
  obtain ⟨handle,receipt,found,inside⟩ := mem_unpublished.mp member
  exact mem_unpublished.mpr ⟨handle,receipt,fewer handle receipt found,inside⟩

theorem Moves.ofFrames (frames : Frames world later) : Moves world later := by
  refine ⟨frames.nextId,fun one member => .inl ?_,fun id row found => .inl ?_⟩
  · rwa [← frames.unpublished]
  · rwa [← frames.rows]

theorem Moves.ofUndone (undone : Undone world later) : Moves world later := by
  refine ⟨Nat.le_of_eq undone.nextId.symm,fun one member => .inl (unpublished_of_fewer undone.receipts one member),
    fun id row found => .inl ?_⟩
  rwa [← undone.rows]

theorem Moves.ofPrepare {result : Except String Nat} (leaves : LeavesReceipt world later result) : Moves world later := by
  cases result with
  | error why => exact Moves.ofFrames leaves
  | ok handle =>
    obtain ⟨mid,receipt,frames,_,rfl,minted⟩ := leaves
    have before := Moves.ofFrames frames
    refine ⟨frames.nextId,fun one member => ?_,before.rows⟩
    obtain ⟨other,kept,found,inside⟩ := mem_unpublished.mp member
    rw [World.keepReceipt,Table.lookup_insert_eq] at found
    split at found
    · exact .inr (minted one (Option.some.inj found ▸ inside))
    · exact before.unpublished one (mem_unpublished.mpr ⟨other,kept,found,inside⟩)

/-- Rows published from a receipt that was there. -/
theorem published_row (sound : Sound world) {handle : Nat} {receipt : PreparedOwnerReceipt}
    (found : world.receipts.lookup handle = some receipt) {lifetime : BindingLifetime} {owner : OwnerKey}
    (rows : later.rows = (world.publish lifetime owner receipt.bindings).rows) (id : Nat) (row : Binding) :
    later.rows.lookup id = some row ↔ (∃ one ∈ receipt.bindings, one.id = id ∧ row = one.published lifetime owner) ∨
      (∀ one ∈ receipt.bindings, one.id ≠ id) ∧ world.rows.lookup id = some row := by
  rw [rows]
  exact publish_lookup world lifetime owner ((sound.ascending handle receipt found).imp Nat.ne_of_lt) id row

theorem Moves.ofPublish (sound : Sound world) {handle : Nat} {receipt : PreparedOwnerReceipt}
    (found : world.receipts.lookup handle = some receipt) {lifetime : BindingLifetime} {owner : OwnerKey}
    (rows : later.rows = (world.publish lifetime owner receipt.bindings).rows) (nextId : later.nextId = world.nextId)
    (receipts : later.receipts = world.receipts.erase handle) : Moves world later := by
  refine ⟨Nat.le_of_eq nextId.symm,fun one member => .inl (unpublished_of_fewer (fun other kept here => ?_) one member),
    fun id row here => ?_⟩
  · rw [receipts,Table.lookup_erase_eq] at here
    split at here
    · exact nomatch here
    · exact here
  · rcases (published_row sound found rows id row).mp here with ⟨one,member,same,_⟩ | ⟨_,old⟩
    · exact .inr (.inl ⟨one,mem_unpublished.mpr ⟨handle,receipt,found,member⟩,same⟩)
    · exact .inl old

/-- Dropping rows: some are gone, the others and the receipts stay. -/
structure Drops (world later : World) (ids : List Nat) : Prop where
  rows : ∀ id, later.rows.lookup id = if id ∈ ids then none else world.rows.lookup id
  receipts : later.receipts = world.receipts
  nextId : later.nextId = world.nextId
  plugins : later.plugins = world.plugins
  packages : later.packages = world.packages
  actives : later.actives = world.actives

theorem drops_one (sound : Sound world) (id : Nat) : Drops world (world.dropBinding id) [id] := by
  cases found : world.rows.lookup id with
  | none =>
    rw [World.dropBinding,found]
    refine ⟨fun other => ?_,rfl,rfl,rfl,rfl,rfl⟩
    simp only [List.mem_singleton]
    split
    · next same => rw [same,found]
    · rfl
  | some row =>
    rw [dropBinding_eq found (sound.tracked.rowId id row found)]
    refine ⟨fun other => ?_,rfl,rfl,rfl,rfl,rfl⟩
    simp only [List.mem_singleton]
    exact Table.lookup_erase_eq world.rows id other

theorem drops_all (sound : Sound world) (ids : List Nat) : Drops world (ids.foldl World.dropBinding world) ids := by
  induction ids generalizing world with
  | nil => exact ⟨fun _ => by simp,rfl,rfl,rfl,rfl,rfl⟩
  | cons id rest ih =>
    have first := drops_one sound id
    have others := ih (sound.dropBinding id)
    refine ⟨fun other => ?_,others.receipts.trans first.receipts,others.nextId.trans first.nextId,
      others.plugins.trans first.plugins,others.packages.trans first.packages,others.actives.trans first.actives⟩
    refine (others.rows other).trans ?_
    rw [first.rows]
    by_cases head : other = id <;> by_cases tail : other ∈ rest <;> simp [head,tail]

theorem Moves.ofDrops {ids : List Nat} (drops : Drops world later ids) : Moves world later := by
  refine ⟨Nat.le_of_eq drops.nextId.symm,fun one member => .inl ?_,fun id row found => .inl ?_⟩
  · rwa [World.unpublished,drops.receipts] at member
  · rw [drops.rows] at found
    split at found
    · cases found
    · exact found

/-- The ids of an owner's ledger are its own rows' as far as these are there; those of a package's
activation are of a package. -/
structure Listed (world : World) : Prop where
  ledgers : ∀ id generation held n, acquisitions world.plugins id = some (generation,held) → .functionBinding n ∈ held →
    n < world.nextId ∧ (∀ one ∈ world.unpublished, one.id ≠ n) ∧
      ∀ row, world.rows.lookup n = some row → row.owner = ⟨id,generation,.plugin⟩
  actives : ∀ handle active, world.actives.lookup handle = some active → ∀ n ∈ active.ids,
    n < world.nextId ∧ (∀ one ∈ world.unpublished, one.id ≠ n) ∧ ∀ row, world.rows.lookup n = some row → row.owner.kind = .gamePackage
  keys : ∀ owner state, world.packages.lookup owner = some state → state.key.kind = .gamePackage

/-- Each id of a ledger has its row. -/
def Complete (world : World) : Prop :=
  ∀ id generation held n, acquisitions world.plugins id = some (generation,held) → .functionBinding n ∈ held →
    (world.rows.lookup n).isSome

/-- A ledger's bindings were there before, in the same owner's ledger. -/
def FewerListed (plugins before : Plugin.Registry) : Prop :=
  ∀ id generation held n, acquisitions plugins id = some (generation,held) → .functionBinding n ∈ held →
    ∃ old, acquisitions before id = some (generation,old) ∧ .functionBinding n ∈ old

theorem FewerListed.of_eq {plugins before : Plugin.Registry} (same : acquisitions plugins = acquisitions before) :
    FewerListed plugins before := fun id generation held n found member => ⟨held,same ▸ found,member⟩

/-- An id that is in no receipt keeps what is said of its row. -/
theorem Moves.said (moves : Moves world later) {n : Nat} {fits : Binding → Prop}
    (said : n < world.nextId ∧ (∀ one ∈ world.unpublished, one.id ≠ n) ∧ ∀ row, world.rows.lookup n = some row → fits row) :
    n < later.nextId ∧ (∀ one ∈ later.unpublished, one.id ≠ n) ∧ ∀ row, later.rows.lookup n = some row → fits row := by
  obtain ⟨bounded,apart,rows⟩ := said
  refine ⟨Nat.lt_of_lt_of_le bounded moves.nextId,fun one member => ?_,fun row found => ?_⟩
  · rcases moves.unpublished one member with old | fresh
    · exact apart one old
    · omega
  · rcases moves.rows n row found with old | ⟨one,member,same⟩ | fresh
    · exact rows row old
    · exact absurd same (apart one member)
    · omega

theorem Listed.moves (listed : Listed world) (moves : Moves world later) (fewer : FewerListed later.plugins world.plugins)
    (actives : ∀ handle active, later.actives.lookup handle = some active → world.actives.lookup handle = some active)
    (keys : ∀ owner state, later.packages.lookup owner = some state → state.key.kind = .gamePackage) : Listed later where
  ledgers := by
    intro id generation held n found member
    obtain ⟨old,before,inOld⟩ := fewer id generation held n found member
    exact moves.said (listed.ledgers id generation old n before inOld)
  actives := fun handle active found n member => moves.said (listed.actives handle active (actives handle active found) n member)
  keys := keys

theorem Complete.moves (complete : Complete world) (fewer : FewerListed later.plugins world.plugins)
    (kept : ∀ id generation held n, acquisitions later.plugins id = some (generation,held) → .functionBinding n ∈ held →
      (world.rows.lookup n).isSome → (later.rows.lookup n).isSome) : Complete later := by
  intro id generation held n found member
  obtain ⟨old,before,inOld⟩ := fewer id generation held n found member
  exact kept id generation held n found member (complete id generation old n before inOld)

section Steps

theorem Listed.ofFrames (listed : Listed world) (frames : Frames world later) : Listed later :=
  listed.moves (.ofFrames frames) (.of_eq (by rw [frames.plugins])) (fun _ _ found => frames.actives ▸ found)
    fun owner state found => listed.keys owner state (frames.packages ▸ found)

theorem Listed.ofUndone (listed : Listed world) (undone : Undone world later) : Listed later :=
  listed.moves (.ofUndone undone) (.of_eq undone.acquisitions) (fun _ _ found => undone.actives ▸ found)
    fun owner state found => listed.keys owner state (undone.packages ▸ found)

theorem Listed.ofPrepare (listed : Listed world) {result : Except String Nat} (leaves : LeavesReceipt world later result) :
    Listed later := by
  cases result with
  | error why => exact listed.ofFrames leaves
  | ok handle =>
    have moves := Moves.ofPrepare leaves
    obtain ⟨mid,receipt,frames,_,rfl,_⟩ := leaves
    have before := listed.ofFrames frames
    refine listed.moves moves (.of_eq (congrArg acquisitions frames.plugins)) (fun _ _ found => ?_) before.keys
    have same : (mid.keepReceipt receipt).actives = world.actives := frames.actives
    rwa [same] at found

/-- A plugin's activation: the ledger's new ids are the new rows', all of them the owner's. -/
theorem Listed.ofActivated (listed : Listed world) (sound : Sound world) {handle : Nat} {owner : OwnerKey} {ids : List Nat}
    (activated : Activated world later handle owner ids) : Listed later := by
  obtain ⟨receipt,found,idsEq,_,rows⟩ := activated.receipt
  have moves := Moves.ofPublish sound found rows activated.nextId activated.receipts
  obtain ⟨before,entry,after⟩ := activated.ledger
  have published : ∀ n ∈ ids, n < later.nextId ∧ (∀ one ∈ later.unpublished, one.id ≠ n) ∧
      ∀ row, later.rows.lookup n = some row → row.owner = owner := by
    intro n member
    rw [idsEq] at member
    obtain ⟨one,inside,rfl⟩ := List.mem_map.mp member
    refine ⟨?_,fun other inOthers same => ?_,fun row here => ?_⟩
    · rw [activated.nextId]
      exact sound.tracked.bounded one (mem_unpublished.mpr ⟨handle,receipt,found,inside⟩)
    · have taken := (sound.take found).distinct
      rw [List.map_append,List.nodup_append'] at taken
      refine taken.2.2 (List.mem_map_of_mem inside) (List.mem_map.mpr ⟨other,?_,same⟩)
      rwa [World.unpublished,activated.receipts] at inOthers
    · rcases (published_row sound found rows _ row).mp here with ⟨another,_,_,rfl⟩ | ⟨apart,_⟩
      · rfl
      · exact absurd rfl (apart one inside)
  refine ⟨fun id generation held n found member => ?_,fun _ active known => ?_,fun owner state known => ?_⟩
  · rw [after] at found
    by_cases same : id = owner.id
    · subst same
      rw [Function.update_self,Option.some.injEq,Prod.mk.injEq] at found
      obtain ⟨rfl,rfl⟩ := found
      rcases List.mem_append.mp member with old | new
      · exact moves.said (listed.ledgers _ _ _ n entry old)
      · obtain ⟨m,inIds,equal⟩ := List.mem_map.mp new
        obtain rfl := Resource.functionBinding.inj equal
        obtain ⟨bounded,apart,owned⟩ := published m inIds
        refine ⟨bounded,apart,fun row here => ?_⟩
        rw [owned row here,← activated.isPlugin]
    · rw [Function.update_of_ne same] at found
      exact moves.said (listed.ledgers id generation held n found member)
  · exact fun n member => moves.said (listed.actives _ active (activated.actives ▸ known) n member)
  · exact listed.keys owner state (activated.packages ▸ known)

theorem Listed.ofPackageActivated (listed : Listed world) (sound : Sound world) {handle owner result : Nat}
    (activated : PackageActivated world later handle owner result) : Listed later := by
  obtain ⟨receipt,state,found,known,rows,packages,actives⟩ := activated.receipt
  have moves := Moves.ofPublish sound found rows activated.nextId activated.receipts
  refine ⟨fun id generation held n ledger member => ?_,fun other active here n member => ?_,fun other one here => ?_⟩
  · rw [activated.plugins] at ledger
    exact moves.said (listed.ledgers id generation held n ledger member)
  · rw [actives,Table.lookup_insert_eq] at here
    split at here
    · obtain rfl := Option.some.inj here
      obtain ⟨one,inside,rfl⟩ := List.mem_map.mp member
      refine ⟨?_,fun another inOthers same => ?_,fun row there => ?_⟩
      · rw [activated.nextId]
        exact sound.tracked.bounded one (mem_unpublished.mpr ⟨handle,receipt,found,inside⟩)
      · have taken := (sound.take found).distinct
        rw [List.map_append,List.nodup_append'] at taken
        refine taken.2.2 (List.mem_map_of_mem inside) (List.mem_map.mpr ⟨another,?_,same⟩)
        rwa [World.unpublished,activated.receipts] at inOthers
      · rcases (published_row sound found rows _ row).mp there with ⟨another,_,_,rfl⟩ | ⟨apart,_⟩
        · exact listed.keys owner state known
        · exact absurd rfl (apart one inside)
    · exact moves.said (listed.actives other active here n member)
  · rw [packages,Table.lookup_insert_eq] at here
    split at here
    · obtain rfl := Option.some.inj here
      exact listed.keys owner state known
    · exact listed.keys other one here

theorem Listed.ofDrops (listed : Listed world) {ids : List Nat} (drops : Drops world later ids) : Listed later :=
  listed.moves (.ofDrops drops) (.of_eq (by rw [drops.plugins])) (fun _ _ found => drops.actives ▸ found)
    fun owner state found => listed.keys owner state (drops.packages ▸ found)

/-- A plugin's operation that records no binding lists none that was not listed. -/
theorem fewerListed_advance {acquired : Acquisitions} {plugins : Plugin.Registry} (refines : Plugin.Refines plugins acquired)
    (op : Plugin.Op) (other : ∀ id generation resource, op = .record id generation resource → isBinding resource = false) :
    FewerListed (Plugin.advance plugins op) plugins := by
  intro id generation held n found member
  rw [acquisitions_eq (Plugin.advance_refines refines op)] at found
  rw [acquisitions_eq refines]
  have amended : ∀ (owner : String) (live : Nat) (change : List Resource → List Resource),
      (∀ old, .functionBinding n ∈ change old → .functionBinding n ∈ old) →
      (acquired.amend owner live change).entries id = some (generation,held) →
      ∃ old, acquired.entries id = some (generation,old) ∧ .functionBinding n ∈ old := by
    intro owner live change keeps here
    rw [Acquisitions.amend] at here
    split at here
    · next current old entry =>
      split at here
      · dsimp only at here
        by_cases same : id = owner
        · subst same
          rw [Function.update_self,Option.some.injEq,Prod.mk.injEq] at here
          obtain ⟨rfl,rfl⟩ := here
          exact ⟨old,entry,keeps old member⟩
        · rw [Function.update_of_ne same] at here
          exact ⟨held,here,member⟩
      · exact ⟨held,here,member⟩
    · exact ⟨held,here,member⟩
  cases op with
  | insert owner =>
    simp only [Acquisitions.advance,Liveness.LiveTable.insert] at found
    by_cases same : id = owner
    · rw [same,Function.update_self,Option.some.injEq,Prod.mk.injEq] at found
      rw [← found.2] at member
      cases member
    · rw [Function.update_of_ne same] at found
      exact ⟨held,found,member⟩
  | remove owner =>
    simp only [Acquisitions.advance,Liveness.LiveTable.remove] at found
    by_cases same : id = owner
    · rw [same,Function.update_self] at found
      cases found
    · rw [Function.update_of_ne same] at found
      exact ⟨held,found,member⟩
  | record owner live resource =>
    refine amended owner live _ (fun old inChanged => ?_) found
    rcases List.mem_append.mp inChanged with inOld | inNew
    · exact inOld
    · rw [List.mem_singleton] at inNew
      have recorded := other owner live resource rfl
      rw [← inNew] at recorded
      cases recorded
  | release owner live resource =>
    refine amended owner live _ (fun old inChanged => ?_) found
    rw [releaseRecent,List.mem_reverse] at inChanged
    exact List.mem_reverse.mp (List.mem_of_mem_erase inChanged)

theorem Complete.ofActivated (complete : Complete world) (sound : Sound world) {handle : Nat} {owner : OwnerKey} {ids : List Nat}
    (activated : Activated world later handle owner ids) : Complete later := by
  obtain ⟨receipt,found,idsEq,_,rows⟩ := activated.receipt
  obtain ⟨before,entry,after⟩ := activated.ledger
  have stays : ∀ n, (world.rows.lookup n).isSome → (later.rows.lookup n).isSome := by
    intro n isRow
    obtain ⟨row,here⟩ := Option.isSome_iff_exists.mp isRow
    have apart := sound.tracked.rowApart n row here
    refine Option.isSome_iff_exists.mpr ⟨row,(published_row sound found rows n row).mpr (.inr ⟨fun one inside => ?_,here⟩)⟩
    exact apart one (mem_unpublished.mpr ⟨handle,receipt,found,inside⟩)
  intro id generation held n ledger member
  rw [after] at ledger
  by_cases same : id = owner.id
  · rw [same,Function.update_self,Option.some.injEq,Prod.mk.injEq] at ledger
    rw [← ledger.2] at member
    rcases List.mem_append.mp member with old | new
    · exact stays n (complete owner.id owner.generation before n entry old)
    · obtain ⟨m,inIds,equal⟩ := List.mem_map.mp new
      obtain rfl := Resource.functionBinding.inj equal
      obtain ⟨one,inside,rfl⟩ := List.mem_map.mp (idsEq ▸ inIds)
      exact Option.isSome_iff_exists.mpr ⟨_,(published_row sound found rows _ _).mpr (.inl ⟨one,inside,rfl,rfl⟩)⟩
  · rw [Function.update_of_ne same] at ledger
    exact stays n (complete id generation held n ledger member)

theorem Complete.ofPackageActivated (complete : Complete world) (sound : Sound world) {handle owner result : Nat}
    (activated : PackageActivated world later handle owner result) : Complete later := by
  obtain ⟨receipt,state,found,known,rows,packages,actives⟩ := activated.receipt
  refine complete.moves (.of_eq (by rw [activated.plugins])) fun id generation held n ledger member isRow => ?_
  obtain ⟨row,here⟩ := Option.isSome_iff_exists.mp isRow
  have apart := sound.tracked.rowApart n row here
  refine Option.isSome_iff_exists.mpr ⟨row,(published_row sound found rows n row).mpr (.inr ⟨fun one inside => ?_,here⟩)⟩
  exact apart one (mem_unpublished.mpr ⟨handle,receipt,found,inside⟩)

/-- Rows that are dropped are of no ledger that remains. -/
theorem Complete.ofDrops (complete : Complete world) {ids : List Nat} (drops : Drops world later ids)
    (apart : ∀ id generation held n, acquisitions world.plugins id = some (generation,held) → .functionBinding n ∈ held → n ∉ ids) :
    Complete later := by
  refine complete.moves (.of_eq (by rw [drops.plugins])) fun id generation held n ledger member isRow => ?_
  rw [drops.plugins] at ledger
  rw [drops.rows,if_neg (apart id generation held n ledger member)]
  exact isRow

end Steps

section Run

def Operation.dropsBare : Operation → Bool
  | .dropBinding _ => true
  | _ => false

/-- What an operation does to ids; a row is dropped past its owner's ledger only by a bare drop. -/
structure Advances (world later : World) (bare : Bool) : Prop where
  moves : Moves world later
  listed : Listed world → Listed later
  complete : bare = false → Listed world → Complete world → Complete later

theorem Advances.refl (world : World) (bare : Bool) : Advances world world bare :=
  ⟨.refl world,id,fun _ _ complete => complete⟩

theorem Advances.trans {last : World} {bare : Bool} (first : Advances world later bare) (second : Advances later last bare) :
    Advances world last bare where
  moves := first.moves.trans second.moves
  listed := fun listed => second.listed (first.listed listed)
  complete := fun inLedger listed complete => second.complete inLedger (first.listed listed) (first.complete inLedger listed complete)

/-- A step that leaves rows and receipts alone and lists nothing new. -/
theorem Advances.same {bare : Bool} (unpublished : later.unpublished = world.unpublished) (rows : later.rows = world.rows)
    (nextId : world.nextId ≤ later.nextId) (fewer : FewerListed later.plugins world.plugins)
    (actives : ∀ handle active, later.actives.lookup handle = some active → world.actives.lookup handle = some active)
    (keys : Listed world → ∀ owner state, later.packages.lookup owner = some state → state.key.kind = .gamePackage) :
    Advances world later bare := by
  have moves : Moves world later := ⟨nextId,fun _ member => .inl (unpublished ▸ member),fun _ _ found => .inl (rows ▸ found)⟩
  exact ⟨moves,fun listed => listed.moves moves fewer actives (keys listed),
    fun _ _ complete => complete.moves fewer fun _ _ _ n _ _ isRow => rows ▸ isRow⟩

theorem Advances.ofFrames {bare : Bool} (frames : Frames world later) : Advances world later bare :=
  .same frames.unpublished frames.rows frames.nextId (.of_eq (by rw [frames.plugins])) (fun _ _ found => frames.actives ▸ found)
    fun listed owner state found => listed.keys owner state (frames.packages ▸ found)

theorem Advances.ofUndone {bare : Bool} (undone : Undone world later) : Advances world later bare where
  moves := .ofUndone undone
  listed := fun listed => listed.ofUndone undone
  complete := fun _ _ complete => complete.moves (.of_eq undone.acquisitions) fun _ _ _ _ _ _ isRow => undone.rows ▸ isRow

theorem Advances.ofPrepare {bare : Bool} {result : Except String Nat} (leaves : LeavesReceipt world later result) :
    Advances world later bare where
  moves := .ofPrepare leaves
  listed := fun listed => listed.ofPrepare leaves
  complete := fun _ listed complete => by
    cases result with
    | error why =>
      have unchanged : Advances world later false := .ofFrames leaves
      exact unchanged.complete rfl listed complete
    | ok handle =>
      obtain ⟨mid,receipt,frames,_,rfl,_⟩ := leaves
      refine complete.moves (.of_eq (congrArg acquisitions frames.plugins)) fun _ _ _ _ _ _ isRow => ?_
      have same : (mid.keepReceipt receipt).rows = world.rows := frames.rows
      rwa [same]

theorem Advances.ofPlugins {bare : Bool} (sound : Sound world) (op : Plugin.Op)
    (other : ∀ id generation resource, op = .record id generation resource → isBinding resource = false) :
    Advances world { world with plugins := Plugin.advance world.plugins op } bare := by
  obtain ⟨acquired,refines⟩ := sound.ledgers
  exact .same rfl rfl (Nat.le_refl _) (fewerListed_advance refines op other) (fun _ _ => id) fun listed => listed.keys

theorem Advances.setPackage {bare : Bool} (owner : Nat) {state changed : PackageFunctionLifetime}
    (known : world.packages.lookup owner = some state) (key : changed.key = state.key) :
    Advances world { world with packages := world.packages.insert owner changed } bare := by
  refine .same rfl rfl (Nat.le_refl _) (.of_eq rfl) (fun _ _ => id) fun listed other one found => ?_
  rw [Table.lookup_insert_eq] at found
  split at found
  · rw [← Option.some.inj found,key]
    exact listed.keys owner state known
  · exact listed.keys other one found

theorem Advances.ofDrops {ids : List Nat} (drops : Drops world later ids)
    (apart : Listed world → Complete world → ∀ id generation held n, acquisitions world.plugins id = some (generation,held) →
      .functionBinding n ∈ held → n ∉ ids) {bare : Bool} : Advances world later bare where
  moves := .ofDrops drops
  listed := fun listed => listed.ofDrops drops
  complete := fun _ listed complete => complete.ofDrops drops (apart listed complete)

/-- The rows of a package's activation are in no plugin's ledger. -/
theorem Sound.dropActive_advances (sound : Sound world) (handle : Nat) : Advances world (world.dropActive handle) false := by
  rw [World.dropActive]
  cases found : world.actives.lookup handle with
  | none => exact .refl world false
  | some active =>
    simp only
    have phased : Advances world (world.setPhase active.owner .retired) false := by
      rw [World.setPhase]
      split
      · exact .refl world false
      · next state known => exact .setPackage active.owner known rfl
    have same : (world.setPhase active.owner .retired).actives = world.actives := by
      rw [World.setPhase]
      split <;> rfl
    have still : acquisitions (world.setPhase active.owner .retired).plugins = acquisitions world.plugins := by
      rw [World.setPhase]
      split <;> rfl
    have rows : (world.setPhase active.owner .retired).rows = world.rows := by
      rw [World.setPhase]
      split <;> rfl
    have retired := sound.setPhase active.owner .retired
    have erased : Advances (world.setPhase active.owner .retired)
        { world.setPhase active.owner .retired with actives := world.actives.erase handle } false := by
      refine .same rfl rfl (Nat.le_refl _) (.of_eq rfl) (fun other one here => ?_) fun listed => listed.keys
      rw [Table.lookup_erase_eq] at here
      split at here
      · cases here
      · rwa [same]
    have begun : Sound { world.setPhase active.owner .retired with actives := world.actives.erase handle } :=
      ⟨retired.tracked,retired.ascending,retired.handles,retired.ledgers⟩
    have drops := drops_all begun active.ids.reverse
    have before := phased.trans erased
    refine ⟨before.moves.trans (.ofDrops drops),fun listed => (before.listed listed).ofDrops drops,fun _ listed complete => ?_⟩
    refine (before.complete rfl listed complete).ofDrops drops fun id generation held n ledger member inIds => ?_
    rw [still] at ledger
    obtain ⟨row,here⟩ := Option.isSome_iff_exists.mp (complete id generation held n ledger member)
    have plugin := (listed.ledgers id generation held n ledger member).2.2 row here
    have package := (listed.actives handle active found n (List.mem_reverse.mp inIds)).2.2 row here
    rw [plugin] at package
    cases package

/-- The rows that go with an owner are in its ledger and in no other. -/
theorem Sound.unloadOwner_advances (sound : Sound world) (id : String) : Advances world (world.unloadOwner id) false := by
  have removed : Advances world { world with plugins := (world.plugins.remove id).1 } false :=
    .ofPlugins sound (.remove id) fun _ _ _ same => nomatch same
  have begun : Sound { world with plugins := (world.plugins.remove id).1 } := sound.ofPlugins (.remove id)
  obtain ⟨acquired,refines⟩ := sound.ledgers
  rw [unloadOwner_eq]
  have drops := drops_all begun
    (bindingIds (((world.plugins.table.entries id).map fun entry => entry.2.teardownOrder).getD []))
  refine ⟨removed.moves.trans (.ofDrops drops),fun listed => (removed.listed listed).ofDrops drops,fun _ listed complete => ?_⟩
  refine (removed.complete rfl listed complete).ofDrops drops fun other generation held n ledger member inIds => ?_
  cases entry : world.plugins.table.entries id with
  | none =>
    rw [entry] at inIds
    exact nomatch inIds
  | some pair =>
    obtain ⟨own,known,exact⟩ := refines.entry entry
    rw [entry,Option.map_some,Option.getD_some,exact.teardownOrder,mem_bindingIds,List.mem_reverse] at inIds
    have here : acquisitions world.plugins id = some (pair.1,own) := by rw [acquisitions_eq refines,known]
    have gone : acquisitions (world.plugins.remove id).1 id = none := by
      change acquisitions (Plugin.advance world.plugins (.remove id)) id = none
      rw [acquisitions_eq (Plugin.advance_refines refines (.remove id))]
      exact Function.update_self ..
    have apart : other ≠ id := by
      rintro rfl
      exact nomatch gone.symm.trans ledger
    obtain ⟨old,before,inOld⟩ := fewerListed_advance refines (.remove id) (fun _ _ _ same => nomatch same) other generation held n ledger member
    obtain ⟨row,isRow⟩ := Option.isSome_iff_exists.mp (complete other generation old n before inOld)
    have first := (listed.ledgers other generation old n before inOld).2.2 row isRow
    have second := (listed.ledgers id pair.1 own n here inIds).2.2 row isRow
    exact apart (congrArg OwnerKey.id (first.symm.trans second))

/-- Every operation moves ids as `Advances` describes. -/
theorem Sound.advances (sound : Sound world) (operation : Operation) :
    Advances world (FunctionBindings.execute world operation) operation.dropsBare := by
  cases operation with
  | loadOwner id => exact .ofPlugins sound (.insert id) fun _ _ _ same => by cases same
  | recordOther id generation resource =>
    rw [FunctionBindings.execute]
    split
    · exact .refl world _
    · next other =>
      refine .ofPlugins sound (.record id generation resource) fun _ _ _ same => ?_
      injection same with _ _ same
      rwa [← same,← Bool.not_eq_true]
  | releaseOther id generation resource =>
    rw [FunctionBindings.execute]
    split
    · exact .refl world _
    · exact .ofPlugins sound (.release id generation resource) fun _ _ _ same => by cases same
  | mint id =>
    rw [FunctionBindings.execute,World.mint]
    split
    · exact .refl world _
    · refine .same rfl rfl (Nat.le_refl _) (.of_eq rfl) (fun _ _ found => found) fun listed other one found => ?_
      rw [Table.lookup_insert_eq] at found
      split at found
      · rw [← Option.some.inj found]
      · exact listed.keys other one found
  | setSource owner source =>
    rw [FunctionBindings.execute,World.setSource]
    split
    · exact .refl world _
    · next state known => exact .setPackage owner known rfl
  | takeId =>
    rw [FunctionBindings.execute]
    cases taken : world.takeId with
    | none => exact .refl world _
    | some pair =>
      obtain ⟨id,later⟩ := pair
      obtain ⟨rfl,rfl⟩ := takeId_eq_some taken
      exact .same rfl rfl (Nat.le_succ _) (.of_eq rfl) (fun _ _ found => found) fun listed => listed.keys
  | prepareOwner intendedId candidate answers => exact .ofPrepare (sound.prepareOwner intendedId candidate answers).2
  | preparePackageOwner owner candidate answers => exact .ofPrepare (sound.preparePackageOwner owner candidate answers).2
  | activateOwner handle owner limit activates =>
    have outcome := (sound.activateOwner handle owner limit activates).2
    rw [FunctionBindings.execute]
    cases result : (world.activateOwner handle owner limit activates).2 with
    | error why =>
      rw [result] at outcome
      exact .ofUndone outcome.1
    | ok ids =>
      rw [result] at outcome
      obtain ⟨receipt,found,_,_,rows⟩ := outcome.receipt
      exact ⟨.ofPublish sound found rows outcome.nextId outcome.receipts,fun listed => listed.ofActivated sound outcome,
        fun _ _ complete => complete.ofActivated sound outcome⟩
  | activatePackageOwner handle owner activates =>
    have outcome := (sound.activatePackageOwner handle owner activates).2
    rw [FunctionBindings.execute]
    cases result : (world.activatePackageOwner handle owner activates).2 with
    | error why =>
      rw [result] at outcome
      exact .ofUndone outcome.1
    | ok active =>
      rw [result] at outcome
      obtain ⟨receipt,state,found,_,rows,_⟩ := outcome.receipt
      exact ⟨.ofPublish sound found rows outcome.nextId outcome.receipts,fun listed => listed.ofPackageActivated sound outcome,
        fun _ _ complete => complete.ofPackageActivated sound outcome⟩
  | dropReceipt handle => exact .ofUndone (sound.dropReceipt handle).2.1
  | dropBinding id =>
    have drops := drops_one sound id
    exact ⟨.ofDrops drops,fun listed => listed.ofDrops drops,fun inLedger => by cases inLedger⟩
  | dropActive handle => exact sound.dropActive_advances handle
  | unloadOwner id => exact sound.unloadOwner_advances id
  | hold id owner =>
    rw [FunctionBindings.execute,World.hold]
    split
    · exact .refl world _
    · exact .same rfl rfl (Nat.le_refl _) (.of_eq rfl) (fun _ _ found => found) fun listed => listed.keys
  | holdAgain position =>
    rw [FunctionBindings.execute,World.holdAgain]
    split
    · exact .refl world _
    · exact .same rfl rfl (Nat.le_refl _) (.of_eq rfl) (fun _ _ found => found) fun listed => listed.keys
  | letGo position =>
    rw [FunctionBindings.execute,World.letGo]
    split
    · exact .refl world _
    · simp only [World.dropReference]
      split
      · exact .same rfl rfl (Nat.le_refl _) (.of_eq rfl) (fun _ _ found => found) fun listed => listed.keys
      · rw [release_eq]
        exact .same rfl rfl (Nat.le_refl _) (.of_eq rfl) (fun _ _ found => found) fun listed => listed.keys

theorem Sound.moves_run (sound : Sound world) (operations : List Operation) :
    Moves world (operations.foldl FunctionBindings.execute world) := by
  induction operations generalizing world with
  | nil => exact .refl world
  | cons operation rest ih => exact (sound.advances operation).moves.trans (ih (sound.execute operation))

theorem Listed.start : Listed .start where
  ledgers := fun _ _ _ _ found => nomatch found
  actives := fun _ _ found => nomatch found
  keys := fun _ _ found => nomatch found

theorem Listed.run (operations : List Operation) : Listed (run operations) := by
  induction operations using List.reverseRecOn with
  | nil => exact .start
  | append_singleton before operation ih =>
    rw [FunctionBindings.run,List.foldl_append]
    exact ((Sound.start.run before).advances operation).listed ih

theorem Complete.run (operations : List Operation) (inLedger : ∀ operation ∈ operations, operation.dropsBare = false) :
    Complete (run operations) := by
  induction operations using List.reverseRecOn with
  | nil => exact fun _ _ _ _ found => nomatch found
  | append_singleton before operation ih =>
    have earlier := ih fun one member => inLedger one (List.mem_append_left _ member)
    rw [FunctionBindings.run,List.foldl_append]
    exact ((Sound.start.run before).advances operation).complete (inLedger operation (by simp)) (Listed.run before) earlier

end Run

end S2Script.FunctionBindings
