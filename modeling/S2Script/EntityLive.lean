import S2Script.Liveness

/-! The entity books as they are kept: the table, and a flat copy of it that the hot
read path indexes. Every write of the table is followed by a write of the copy. -/
namespace S2Script.EntityLive

open Liveness

def handleEntryBits : Nat := 15

/-- Every index a `CEntityHandle` can carry. -/
def flatLen : Nat := 1 <<< handleEntryBits

def flatSlot (index : Int) : Option (Fin flatLen) :=
  if inside : 0 ≤ index ∧ index.toNat < flatLen then some ⟨index.toNat,inside.2⟩ else none

theorem flatSlot_eq_some_iff (index : Int) (slot : Fin flatLen) :
    flatSlot index = some slot ↔ index = slot.val := by
  unfold flatSlot
  constructor
  · intro found
    split at found
    · next inside =>
      obtain rfl := Option.some.inj found
      exact (Int.toNat_of_nonneg inside.1).symm
    · contradiction
  · rintro rfl
    simp

/-- The books of one thread. `keys` is the hash table's iteration order, whatever it is;
`mints` remembers every id handed out, oldest first. -/
structure Books where
  live : EntityBooks
  keys : List Int
  flat : Fin flatLen → Nat × Int
  mapEpoch : Nat
  repairArmed : Bool
  mints : List Nat
  enumerated : ∀ index, index ∈ keys ↔ (live.entries index).isSome

namespace Books

def new : Books where
  live := LiveTable.new 1
  keys := []
  flat := fun _ => (0,0)
  mapEpoch := 1
  repairArmed := false
  mints := []
  enumerated := by simp [LiveTable.new]

/-- `LiveTable::insert` on the books. -/
def insert (books : Books) (index serial : Int) : Books :=
  { books with
    live := (books.live.insert index serial).1
    keys := if index ∈ books.keys then books.keys else index :: books.keys
    mints := books.mints ++ [(books.live.insert index serial).2]
    enumerated := by
      intro other
      by_cases same : other = index
      · by_cases known : index ∈ books.keys <;> simp [LiveTable.insert,same,known]
      · by_cases known : index ∈ books.keys <;>
          simp [LiveTable.insert,same,known,books.enumerated other] }

/-- `LiveTable::remove` on the books. -/
def remove (books : Books) (index : Int) : Books :=
  { books with
    live := books.live.remove index
    keys := books.keys.filter (· ≠ index)
    enumerated := by
      intro other
      by_cases same : other = index <;> simp [LiveTable.remove,same,books.enumerated other] }

/-- Copy the table's entry for `index`, or its absence. -/
def mirror (books : Books) (index : Int) : Books :=
  match flatSlot index with
  | none => books
  | some slot =>
    { books with
      flat := Function.update books.flat slot ((books.live.entries index).getD (0,0)) }

def copyKeys (live : EntityBooks) :
    List Int → (Fin flatLen → Nat × Int) → Fin flatLen → Nat × Int
  | [], flat => flat
  | index :: keys, flat =>
    match flatSlot index, live.entries index with
    | some slot, some entry => copyKeys live keys (Function.update flat slot entry)
    | _, _ => copyKeys live keys flat

/-- Rebuild the whole copy from the table. -/
def mirrorAll (books : Books) : Books :=
  { books with flat := copyKeys books.live books.keys (fun _ => (0,0)) }

def lookup (books : Books) (index : Int) : Option (Nat × Int) := books.live.entries index

def adopt (books : Books) (index serial : Int) : Option Nat :=
  match books.lookup index with
  | some (id,current) => if current = serial then some id else none
  | none => none

/-- The read every entity access makes: the flat copy inside its range, the table outside. -/
def engineSerialFor (books : Books) (index : Int) (id : Nat) : Option Int :=
  if id = 0 then none
  else match flatSlot index with
    | some slot => if (books.flat slot).1 = id then some (books.flat slot).2 else none
    | none =>
      match books.live.entries index with
      | some (current,serial) => if current = id then some serial else none
      | none => none

/-- A same-index create replaces whatever entry is there. -/
def onCreated (books : Books) (index serial : Int) : Books × Nat :=
  ((books.insert index serial).mirror index,(books.live.insert index serial).2)

/-- A matching spawn keeps the id minted at creation. -/
def onSpawned (books : Books) (index serial : Int) : Books :=
  match books.live.entries index with
  | some (_,current) =>
    if current = serial then books else (books.insert index serial).mirror index
  | none => (books.insert index serial).mirror index

/-- A stale delete does not evict a newer entity of the same index. -/
def onDeleted (books : Books) (index serial : Int) : Books × Option Nat :=
  match books.live.entries index with
  | some (id,current) =>
    if current = serial then ((books.remove index).mirror index,some id) else (books,none)
  | none => (books,none)

def nextEpoch (epoch : Nat) : Nat :=
  if epoch = 0 then 0 else if epoch + 1 < 2 ^ 64 then epoch + 1 else 0

def clearForMapTransition (books : Books) : Books :=
  let cleared : Books :=
    { books with
      mapEpoch := nextEpoch books.mapEpoch
      live := books.live.clear
      keys := []
      repairArmed := true
      enumerated := by simp [LiveTable.clear] }
  cleared.mirrorAll

def takeRepairArmed (books : Books) : Books × Bool :=
  ({ books with repairArmed := false },books.repairArmed)

/-- The snapshot's upserts; nothing is copied until the sweep ends. -/
def upsertSlots : List (Int × Int) → Books → Books
  | [], books => books
  | (index,serial) :: slots, books =>
    match books.live.entries index with
    | some (_,current) =>
      if current = serial then upsertSlots slots books
      else upsertSlots slots (books.insert index serial)
    | none => upsertSlots slots (books.insert index serial)

/-- The evictions, over the keys the table had when the loop began. -/
def evictUnseen (seen : List Int) : List Int → Books → Books
  | [], books => books
  | index :: keys, books =>
    if index ∈ seen then evictUnseen seen keys books
    else evictUnseen seen keys (books.remove index)

def repairReconcile (books : Books) (liveSlots : List (Int × Int)) : Books :=
  let upserted := upsertSlots liveSlots books
  (evictUnseen (liveSlots.map Prod.fst) upserted.keys upserted).mirrorAll

end Books

/-- What the engine's listener and the host feed the books. `rehash` is the hash table
changing its iteration order. -/
inductive Op where
  | created (index serial : Int)
  | spawned (index serial : Int)
  | deleted (index serial : Int)
  | repair (liveSlots : List (Int × Int))
  | clear
  | takeRepairArmed
  | rehash (keys : List Int)

def advance (books : Books) : Op → Books
  | .created index serial => (books.onCreated index serial).1
  | .spawned index serial => books.onSpawned index serial
  | .deleted index serial => (books.onDeleted index serial).1
  | .repair liveSlots => books.repairReconcile liveSlots
  | .clear => books.clearForMapTransition
  | .takeRepairArmed => books.takeRepairArmed.1
  | .rehash keys =>
    if same : keys.Perm books.keys then
      { books with
        keys
        enumerated := fun index => same.mem_iff.trans (books.enumerated index) }
    else books

def execute (ops : List Op) (books : Books) : Books := ops.foldl advance books

namespace Books

@[simp] theorem insert_live (books : Books) (index serial : Int) :
    (books.insert index serial).live = (books.live.insert index serial).1 := rfl

@[simp] theorem insert_flat (books : Books) (index serial : Int) :
    (books.insert index serial).flat = books.flat := rfl

@[simp] theorem remove_live (books : Books) (index : Int) :
    (books.remove index).live = books.live.remove index := rfl

@[simp] theorem remove_flat (books : Books) (index : Int) :
    (books.remove index).flat = books.flat := rfl

@[simp] theorem remove_mints (books : Books) (index : Int) :
    (books.remove index).mints = books.mints := rfl

@[simp] theorem mirror_live (books : Books) (index : Int) :
    (books.mirror index).live = books.live := by
  unfold mirror
  split <;> rfl

@[simp] theorem mirror_mints (books : Books) (index : Int) :
    (books.mirror index).mints = books.mints := by
  unfold mirror
  split <;> rfl

@[simp] theorem mirrorAll_live (books : Books) : books.mirrorAll.live = books.live := rfl

@[simp] theorem mirrorAll_mints (books : Books) : books.mirrorAll.mints = books.mints := rfl

/-- The flat copy is the table, absence spelled `(0,0)`. -/
def Mirrored (books : Books) : Prop :=
  ∀ slot : Fin flatLen, books.flat slot = (books.live.entries slot.val).getD (0,0)

/-- After a write of one entry, copying that entry is enough. -/
theorem mirror_mirrored {before books : Books} (mirrored : before.Mirrored) {index : Int}
    (flat : books.flat = before.flat)
    (others : ∀ other, other ≠ index → books.live.entries other = before.live.entries other) :
    (books.mirror index).Mirrored := by
  intro slot
  cases found : flatSlot index with
  | none =>
    have apart : (slot.val : Int) ≠ index := by
      rintro rfl
      simp [(flatSlot_eq_some_iff _ slot).mpr rfl] at found
    simp only [mirror,found]
    rw [flat,others _ apart]
    exact mirrored slot
  | some written =>
    have place := (flatSlot_eq_some_iff index written).mp found
    simp only [mirror,found]
    by_cases same : slot = written
    · subst same
      simp [place]
    · have apart : (slot.val : Int) ≠ index := by
        intro equal
        exact same (Fin.ext (by omega))
      rw [Function.update_of_ne same,flat,others _ apart]
      exact mirrored slot

theorem insert_mirrored {books : Books} (mirrored : books.Mirrored) (index serial : Int) :
    ((books.insert index serial).mirror index).Mirrored := by
  apply mirror_mirrored mirrored
  · rfl
  · intro other apart
    simp [LiveTable.insert,apart]

theorem remove_mirrored {books : Books} (mirrored : books.Mirrored) (index : Int) :
    ((books.remove index).mirror index).Mirrored := by
  apply mirror_mirrored mirrored
  · rfl
  · intro other apart
    simp [LiveTable.remove,apart]

/-- What the rebuilding loop leaves in a slot, over any keys and any copy before it. -/
theorem copyKeys_slot (live : EntityBooks) (keys : List Int) (flat : Fin flatLen → Nat × Int)
    (slot : Fin flatLen) :
    copyKeys live keys flat slot =
      if (slot.val : Int) ∈ keys then (live.entries slot.val).getD (flat slot) else flat slot := by
  induction keys generalizing flat with
  | nil => simp [copyKeys]
  | cons index keys previous =>
    by_cases own : index = slot.val
    · subst own
      have found := (flatSlot_eq_some_iff slot.val slot).mpr rfl
      cases entry : live.entries slot.val <;> simp [copyKeys,found,entry,previous]
    · have other : (slot.val : Int) ≠ index := fun equal => own equal.symm
      cases found : flatSlot index with
      | none => simp [copyKeys,found,previous,other]
      | some written =>
        have apart : slot ≠ written := by
          rintro rfl
          exact own ((flatSlot_eq_some_iff index slot).mp found)
        cases entry : live.entries index <;> simp [copyKeys,found,entry,previous,other,apart]

theorem mirrorAll_mirrored (books : Books) : books.mirrorAll.Mirrored := by
  intro slot
  have known := books.enumerated slot.val
  cases entry : books.live.entries slot.val with
  | none => simp_all [mirrorAll,copyKeys_slot]
  | some held => simp_all [mirrorAll,copyKeys_slot]

/-- The hot read asks the table's question. -/
theorem engineSerialFor_eq_table {books : Books} (mirrored : books.Mirrored) (index : Int)
    (id : Nat) : books.engineSerialFor index id = books.live.engineSerialFor index id := by
  unfold engineSerialFor EntityBooks.engineSerialFor
  by_cases sentinel : id = 0
  · simp [sentinel]
  cases found : flatSlot index with
  | none => rfl
  | some slot =>
    obtain rfl := (flatSlot_eq_some_iff index slot).mp found
    have copied := mirrored slot
    cases entry : books.live.entries slot.val with
    | none =>
      have other : ¬0 = id := fun equal => sentinel equal.symm
      simp [sentinel,copied,entry,other]
    | some held => simp [sentinel,copied,entry]

theorem engineSerialFor_eq_some_iff {books : Books} (mirrored : books.Mirrored) (index : Int)
    (id : Nat) (serial : Int) :
    books.engineSerialFor index id = some serial ↔
      id ≠ 0 ∧ books.lookup index = some (id,serial) := by
  rw [engineSerialFor_eq_table mirrored]
  unfold EntityBooks.engineSerialFor lookup
  by_cases sentinel : id = 0
  · simp [sentinel]
  · cases entry : books.live.entries index with
    | none => simp [sentinel]
    | some held =>
      obtain ⟨current,stored⟩ := held
      by_cases same : current = id <;> simp [sentinel,same]

section Loops

variable {P : Books → Prop}

/-- What every mint preserves, the snapshot's upserts preserve. -/
theorem upsertSlots_preserves
    (insert : ∀ books index serial, P books → P (books.insert index serial))
    (slots : List (Int × Int)) (books : Books) (holds : P books) : P (upsertSlots slots books) := by
  induction slots generalizing books with
  | nil => exact holds
  | cons slot slots previous =>
    unfold upsertSlots
    split
    · split
      · exact previous books holds
      · exact previous _ (insert _ _ _ holds)
    · exact previous _ (insert _ _ _ holds)

/-- What every removal preserves, the evictions preserve. -/
theorem evictUnseen_preserves (remove : ∀ books index, P books → P (books.remove index))
    (seen keys : List Int) (books : Books) (holds : P books) :
    P (evictUnseen seen keys books) := by
  induction keys generalizing books with
  | nil => exact holds
  | cons index keys previous =>
    unfold evictUnseen
    split
    · exact previous books holds
    · exact previous _ (remove _ _ holds)

end Loops

/-- What is true of the books in every run. -/
structure Invariant (books : Books) : Prop where
  minted : books.live.Minted
  distinct : books.live.Distinct
  mirrored : books.Mirrored
  history : books.mints = List.range' 1 (books.live.nextId - 1)

theorem new_invariant : new.Invariant where
  minted := .new
  distinct := LiveTable.Distinct.new 1
  mirrored := fun _ => rfl
  history := rfl

/-- Writes between two states: what they do to the table, and each mint remembered. -/
structure Writes (before after : Books) : Prop where
  changes : before.live.Changes after.live
  mints : after.mints =
    before.mints ++ List.range' before.live.nextId (after.live.nextId - before.live.nextId)

namespace Writes

theorem refl (books : Books) : books.Writes books := ⟨.refl,by simp⟩

theorem insert {before after : Books} (writes : before.Writes after) (index serial : Int) :
    before.Writes (after.insert index serial) where
  changes := writes.changes.tail (.mints index serial)
  mints := by
    have minting := (LiveTable.Changes.evolves writes.changes).minting
    have count : after.live.nextId + 1 - before.live.nextId =
        after.live.nextId - before.live.nextId + 1 := by omega
    have last : before.live.nextId + (after.live.nextId - before.live.nextId) =
        after.live.nextId := by omega
    have minted : (after.insert index serial).mints = after.mints ++ [after.live.nextId] := rfl
    have next : (after.insert index serial).live.nextId = after.live.nextId + 1 := rfl
    rw [minted,next,writes.mints,count,List.range'_1_concat,last,List.append_assoc]

/-- A write that keeps ids or drops them mints nothing. -/
theorem keeps {before middle after : Books} (writes : before.Writes middle)
    (nextId : after.live.nextId = middle.live.nextId) (mints : after.mints = middle.mints)
    (ids : ∀ index, after.live.idOf index = none ∨
      after.live.idOf index = middle.live.idOf index) : before.Writes after where
  changes := writes.changes.tail (.keeps nextId ids)
  mints := by simp [mints,nextId,writes.mints]

theorem remove {before after : Books} (writes : before.Writes after) (index : Int) :
    before.Writes (after.remove index) := by
  have ids (other : Int) : (after.remove index).live.idOf other = none ∨
      (after.remove index).live.idOf other = after.live.idOf other := by
    by_cases same : other = index <;> simp [LiveTable.idOf_remove,same]
  exact writes.keeps rfl rfl ids

/-- Copying writes no table. -/
theorem copied {before middle after : Books} (writes : before.Writes middle)
    (live : after.live = middle.live) (mints : after.mints = middle.mints) :
    before.Writes after :=
  writes.keeps (by rw [live]) mints (fun _ => .inr (by rw [live]))

theorem upsertSlots (books : Books) (slots : List (Int × Int)) :
    books.Writes (upsertSlots slots books) :=
  upsertSlots_preserves (fun _ index serial writes => writes.insert index serial) slots books
    (.refl books)

theorem evictUnseen {before after : Books} (writes : before.Writes after) (seen keys : List Int) :
    before.Writes (evictUnseen seen keys after) :=
  evictUnseen_preserves (fun _ index held => held.remove index) seen keys after writes

theorem repairReconcile (books : Books) (slots : List (Int × Int)) :
    books.Writes (books.repairReconcile slots) :=
  ((Writes.upsertSlots books slots).evictUnseen _ _).copied rfl rfl

end Writes

theorem advance_writes (books : Books) (op : Op) : books.Writes (advance books op) := by
  have created (index serial : Int) : books.Writes ((books.insert index serial).mirror index) :=
    ((Writes.refl books).insert index serial).copied (by simp) (by simp)
  cases op with
  | created index serial => exact created index serial
  | spawned index serial =>
    simp only [advance,onSpawned]
    split
    · split
      · exact .refl books
      · exact created index serial
    · exact created index serial
  | deleted index serial =>
    simp only [advance,onDeleted]
    split
    · split
      · exact ((Writes.refl books).remove index).copied (by simp) (by simp)
      · exact .refl books
    · exact .refl books
  | repair slots => exact .repairReconcile books slots
  | clear => exact (Writes.refl books).keeps rfl rfl (fun _ => .inl rfl)
  | takeRepairArmed => exact (Writes.refl books).copied rfl rfl
  | rehash keys =>
    simp only [advance]
    split
    · exact (Writes.refl books).copied rfl rfl
    · exact .refl books

theorem advance_mirrored {books : Books} (mirrored : books.Mirrored) (op : Op) :
    (advance books op).Mirrored := by
  cases op with
  | created index serial => exact insert_mirrored mirrored index serial
  | spawned index serial =>
    simp only [advance,onSpawned]
    split
    · split
      · exact mirrored
      · exact insert_mirrored mirrored index serial
    · exact insert_mirrored mirrored index serial
  | deleted index serial =>
    simp only [advance,onDeleted]
    split
    · split
      · exact remove_mirrored mirrored index
      · exact mirrored
    · exact mirrored
  | repair slots => exact mirrorAll_mirrored _
  | clear => exact mirrorAll_mirrored _
  | takeRepairArmed => exact mirrored
  | rehash keys =>
    simp only [advance]
    split
    · exact mirrored
    · exact mirrored

theorem Writes.history {before after : Books} (writes : before.Writes after)
    (invariant : before.Invariant) : after.mints = List.range' 1 (after.live.nextId - 1) := by
  have minting := invariant.minted.minting
  have later := (LiveTable.Changes.evolves writes.changes).minting
  have total : after.live.nextId - 1 =
      before.live.nextId - 1 + (after.live.nextId - before.live.nextId) := by omega
  have start : before.live.nextId = 1 + (before.live.nextId - 1) := by omega
  rw [writes.mints,invariant.history,total,List.range'_append_1.symm,← start]

theorem advance_invariant {books : Books} (invariant : books.Invariant) (op : Op) :
    (advance books op).Invariant := by
  have writes := advance_writes books op
  exact {
    minted := invariant.minted.evolves (LiveTable.Changes.evolves writes.changes)
    distinct := LiveTable.Changes.distinct writes.changes invariant.minted invariant.distinct
    mirrored := advance_mirrored invariant.mirrored op
    history := writes.history invariant }

theorem execute_invariant (ops : List Op) {books : Books} (invariant : books.Invariant) :
    (execute ops books).Invariant := by
  induction ops generalizing books with
  | nil => exact invariant
  | cons op ops previous => exact previous (advance_invariant invariant op)

theorem execute_changes (ops : List Op) (books : Books) :
    books.live.Changes (execute ops books).live := by
  induction ops generalizing books with
  | nil => exact .refl
  | cons op ops previous => exact (advance_writes books op).changes.trans (previous _)

theorem upsertSlots_live (slots : List (Int × Int)) (books : Books) :
    (upsertSlots slots books).live = EntityBooks.reconcileSlots slots books.live := by
  induction slots generalizing books with
  | nil => rfl
  | cons slot slots previous =>
    obtain ⟨index,serial⟩ := slot
    cases entry : books.live.entries index with
    | none => simp [upsertSlots,EntityBooks.reconcileSlots,EntityBooks.onSpawned,entry,previous]
    | some held =>
      by_cases same : held.2 = serial <;>
        simp [upsertSlots,EntityBooks.reconcileSlots,EntityBooks.onSpawned,entry,same,previous]

theorem evictUnseen_entries (seen keys : List Int) (books : Books) (index : Int) :
    (evictUnseen seen keys books).live.entries index =
      if index ∈ keys ∧ index ∉ seen then none else books.live.entries index := by
  induction keys generalizing books with
  | nil => simp [evictUnseen]
  | cons key keys previous =>
    unfold evictUnseen
    by_cases same : index = key
    · subst same
      by_cases named : index ∈ seen
      · simp [named,previous]
      · simp [named,previous,LiveTable.remove]
    · by_cases named : key ∈ seen
      · simp [named,same,previous]
      · simp [named,same,previous,LiveTable.remove]

/-- The loops over the hash table's keys come to the sweep of the whole table. -/
theorem repairReconcile_live (books : Books) (slots : List (Int × Int)) :
    (books.repairReconcile slots).live = EntityBooks.repairReconcile books.live slots := by
  have minting : (books.repairReconcile slots).live.nextId =
      (upsertSlots slots books).live.nextId :=
    evictUnseen_preserves (P := fun state => state.live.nextId = (upsertSlots slots books).live.nextId)
      (fun _ _ same => same) _ _ _ rfl
  have entries : (books.repairReconcile slots).live.entries =
      (EntityBooks.repairReconcile books.live slots).entries := by
    funext index
    have known := (upsertSlots slots books).enumerated index
    simp only [repairReconcile,mirrorAll_live,evictUnseen_entries,EntityBooks.repairReconcile,
      upsertSlots_live] at known ⊢
    by_cases named : index ∈ slots.map Prod.fst
    · simp [named]
    · cases entry : (EntityBooks.reconcileSlots slots books.live).entries index with
      | none => simp [named]
      | some held => simp_all
  rw [upsertSlots_live] at minting
  cases after : (books.repairReconcile slots).live
  simp_all [EntityBooks.repairReconcile]

/-- An entry survives the upserts exactly when no row of its index names another serial:
such a row mints, and what is minted is no id held before. -/
theorem reconcileSlots_keeps_iff (slots : List (Int × Int)) {books : EntityBooks}
    (minted : books.Minted) {index serial : Int} {id : Nat}
    (held : books.entries index = some (id,serial)) :
    (EntityBooks.reconcileSlots slots books).entries index = some (id,serial) ↔
      ∀ slot ∈ slots, slot.1 = index → slot.2 = serial := by
  induction slots generalizing books with
  | nil => simpa [EntityBooks.reconcileSlots] using held
  | cons slot slots previous =>
    have evolves := EntityBooks.onSpawned_evolves books slot.1 slot.2
    have later := minted.evolves evolves
    by_cases own : slot.1 = index
    · by_cases same : slot.2 = serial
      · have kept : (books.onSpawned slot.1 slot.2).1 = books := by
          simp [EntityBooks.onSpawned,own,held,same]
        simp only [EntityBooks.reconcileSlots,kept,previous minted held,List.forall_mem_cons]
        simp [same]
      · have known : books.idOf index = some id := by simp [LiveTable.idOf,held]
        have other : serial ≠ slot.2 := fun equal => same equal.symm
        have replaced : (books.onSpawned slot.1 slot.2).1 =
            (books.insert index slot.2).1 := by
          simp [EntityBooks.onSpawned,own,held,other]
        have retired := EntityBooks.insert_retires minted known slot.2
        have gone : (EntityBooks.reconcileSlots slots
            (books.onSpawned slot.1 slot.2).1).entries index ≠ some (id,serial) := by
          intro back
          have again : (EntityBooks.reconcileSlots slots
              (books.onSpawned slot.1 slot.2).1).idOf index = some id := by
            simp [LiveTable.idOf,back]
          have old := (minted.minted known).2
          rcases (EntityBooks.reconcileSlots_evolves slots _).live again with still | fresh
          · exact retired (replaced ▸ still)
          · have := evolves.minting
            omega
        have mismatch : ¬∀ row ∈ slot :: slots, row.1 = index → row.2 = serial :=
          fun all => same (all slot List.mem_cons_self own)
        exact iff_of_false gone mismatch
    · have untouched : (books.onSpawned slot.1 slot.2).1.entries index = some (id,serial) := by
        have apart : index ≠ slot.1 := fun equal => own equal.symm
        unfold EntityBooks.onSpawned
        split
        · split <;> simp [LiveTable.insert,apart,held]
        · simp [LiveTable.insert,apart,held]
      simp [EntityBooks.reconcileSlots,previous later untouched,own]

theorem repairReconcile_keeps_iff {books : Books} (minted : books.live.Minted)
    {index serial : Int} {id : Nat} (held : books.lookup index = some (id,serial))
    (slots : List (Int × Int)) :
    (books.repairReconcile slots).lookup index = some (id,serial) ↔
      index ∈ slots.map Prod.fst ∧ ∀ slot ∈ slots, slot.1 = index → slot.2 = serial := by
  have kept := reconcileSlots_keeps_iff slots minted held
  by_cases named : index ∈ slots.map Prod.fst
  · simp only [lookup,repairReconcile_live,EntityBooks.repairReconcile,named,if_true,kept,true_and]
  · simp only [lookup,repairReconcile_live,EntityBooks.repairReconcile,named,if_false]
    simp

theorem onSpawned_keeps {books : Books} {index serial : Int} {id : Nat}
    (held : books.lookup index = some (id,serial)) : books.onSpawned index serial = books := by
  replace held : books.live.entries index = some (id,serial) := held
  simp [onSpawned,held]

theorem onDeleted_stale {books : Books} {index serial : Int}
    (stale : ∀ id, books.lookup index ≠ some (id,serial)) :
    books.onDeleted index serial = (books,none) := by
  cases entry : books.live.entries index with
  | none => simp [onDeleted,entry]
  | some held =>
    have other : held.2 ≠ serial := by
      rintro rfl
      exact stale held.1 entry
    simp [onDeleted,entry,other]

end Books

open Books in
/-- After any feed, the flat copy answers as the table does, no id has been minted twice,
an id its index lost stays dead everywhere, and only a differing serial replaces an entry. -/
theorem ids_never_alias (ops : List Op) :
    let books := execute ops Books.new
    (∀ index id serial, books.engineSerialFor index id = some serial ↔
      id ≠ 0 ∧ books.lookup index = some (id,serial)) ∧
    books.mints.Nodup ∧
    (∀ during later index id serial, books.lookup index = some (id,serial) →
      (∀ current, (execute during books).lookup index ≠ some (id,current)) →
      ∀ other current, (execute later (execute during books)).lookup other ≠ some (id,current)) ∧
    (∀ index serial id, books.lookup index = some (id,serial) →
      books.onSpawned index serial = books) ∧
    (∀ slots index serial id, books.lookup index = some (id,serial) →
      ((books.repairReconcile slots).lookup index = some (id,serial) ↔
        index ∈ slots.map Prod.fst ∧ ∀ slot ∈ slots, slot.1 = index → slot.2 = serial)) ∧
    (∀ index serial, (∀ id, books.lookup index ≠ some (id,serial)) →
      books.onDeleted index serial = (books,none)) := by
  intro books
  have invariant : books.Invariant := execute_invariant ops new_invariant
  refine ⟨?_,?_,?_,?_,?_,?_⟩
  · exact engineSerialFor_eq_some_iff invariant.mirrored
  · rw [invariant.history]
    exact List.nodup_range'
  · intro during later index id serial held gone other current again
    have lost : (execute during books).live.idOf index ≠ some id := by
      intro still
      obtain ⟨⟨known,stored⟩,entry,rfl⟩ := Option.map_eq_some_iff.mp still
      exact gone stored entry
    apply LiveTable.Changes.never_again (execute_changes during books) (execute_changes later _)
      invariant.minted invariant.distinct _ lost other
    · exact Option.map_eq_some_iff.mpr ⟨_,again,rfl⟩
    · exact Option.map_eq_some_iff.mpr ⟨_,held,rfl⟩
  · exact fun index serial id held => onSpawned_keeps held
  · exact fun slots index serial id held => repairReconcile_keeps_iff invariant.minted held slots
  · exact fun index serial stale => onDeleted_stale stale

end S2Script.EntityLive
