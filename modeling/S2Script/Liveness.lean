import Mathlib

/-! Host-minted liveness. A `LiveTable` mints ids that never alias; the plugin
registry keeps one beside the dense slots the multiplexer addresses plugins by. -/
namespace S2Script.Liveness

/-- `key → (host-minted id, metadata)`. -/
structure LiveTable (K M : Type) where
  entries : K → Option (Nat × M)
  nextId : Nat

namespace LiveTable

def new (firstId : Nat) : LiveTable K M := ⟨fun _ => none,firstId⟩

/-- The host-minted id `key` holds, if it is present. -/
def idOf (table : LiveTable K M) (key : K) : Option Nat := (table.entries key).map Prod.fst

def insert [DecidableEq K] (table : LiveTable K M) (key : K) (metadata : M) :
    LiveTable K M × Nat :=
  (⟨Function.update table.entries key (some (table.nextId,metadata)),table.nextId + 1⟩,
    table.nextId)

def remove [DecidableEq K] (table : LiveTable K M) (key : K) : LiveTable K M :=
  { table with entries := Function.update table.entries key none }

/-- Every entry goes; the allocator never resets. -/
def clear (table : LiveTable K M) : LiveTable K M := { table with entries := fun _ => none }

def isLive (table : LiveTable K M) (key : K) (id : Nat) : Bool := table.idOf key == some id

@[simp] theorem idOf_new (firstId : Nat) (key : K) : (new firstId : LiveTable K M).idOf key = none :=
  rfl

theorem idOf_insert [DecidableEq K] (table : LiveTable K M) (key other : K) (metadata : M) :
    (table.insert key metadata).1.idOf other =
      if other = key then some table.nextId else table.idOf other := by
  by_cases same : other = key <;> simp [idOf,insert,same]

theorem idOf_remove [DecidableEq K] (table : LiveTable K M) (key other : K) :
    (table.remove key).idOf other = if other = key then none else table.idOf other := by
  by_cases same : other = key <;> simp [idOf,remove,same]

@[simp] theorem idOf_clear (table : LiveTable K M) (key : K) : table.clear.idOf key = none := rfl

end LiveTable

namespace LiveTable

/-- Ids in the table were minted by it, and never the sentinel `0`. -/
structure Minted (table : LiveTable K M) : Prop where
  minting : 0 < table.nextId
  minted : ∀ {key id}, table.idOf key = some id → 0 < id ∧ id < table.nextId

/-- What the table's operations do to identities: an id live afterwards was live
before or is freshly minted. -/
structure Evolves (table after : LiveTable K M) : Prop where
  minting : table.nextId ≤ after.nextId
  live : ∀ {key id}, after.idOf key = some id →
    table.idOf key = some id ∨ table.nextId ≤ id ∧ id < after.nextId

theorem Minted.new : (LiveTable.new 1 : LiveTable K M).Minted := ⟨Nat.one_pos,by simp⟩

theorem Minted.evolves {table after : LiveTable K M} (minted : table.Minted)
    (evolves : table.Evolves after) : after.Minted where
  minting := Nat.lt_of_lt_of_le minted.minting evolves.minting
  minted := by
    intro key id entry
    rcases evolves.live entry with old | fresh
    · have bounds := minted.minted old
      exact ⟨bounds.1,Nat.lt_of_lt_of_le bounds.2 evolves.minting⟩
    · exact ⟨Nat.lt_of_lt_of_le minted.minting fresh.1,fresh.2⟩

namespace Evolves

theorem refl (table : LiveTable K M) : table.Evolves table := ⟨Nat.le_refl _,.inl⟩

theorem trans {first second third : LiveTable K M} (one : first.Evolves second)
    (two : second.Evolves third) : first.Evolves third where
  minting := Nat.le_trans one.minting two.minting
  live := by
    intro key id entry
    rcases two.live entry with old | fresh
    · rcases one.live old with older | fresh
      · exact .inl older
      · exact .inr ⟨fresh.1,Nat.lt_of_lt_of_le fresh.2 two.minting⟩
    · exact .inr ⟨Nat.le_trans one.minting fresh.1,fresh.2⟩

theorem insert [DecidableEq K] (table : LiveTable K M) (key : K) (metadata : M) :
    table.Evolves (table.insert key metadata).1 where
  minting := Nat.le_succ _
  live := by
    intro other id entry
    rw [idOf_insert] at entry
    split at entry
    · obtain rfl := Option.some.inj entry
      exact .inr ⟨Nat.le_refl _,Nat.lt_succ_self _⟩
    · exact .inl entry

/-- Dropping entries mints nothing. -/
theorem drops {table after : LiveTable K M} (nextId : after.nextId = table.nextId)
    (entries : ∀ key, after.entries key = none ∨ after.entries key = table.entries key) :
    table.Evolves after where
  minting := Nat.le_of_eq nextId.symm
  live := by
    intro key id entry
    rcases entries key with gone | kept
    · simp [idOf,gone] at entry
    · exact .inl (by simpa [idOf,kept] using entry)

theorem remove [DecidableEq K] (table : LiveTable K M) (key : K) :
    table.Evolves (table.remove key) := by
  refine drops rfl fun other => ?_
  by_cases same : other = key
  · exact .inl (by simp [LiveTable.remove,same])
  · exact .inr (by simp [LiveTable.remove,same])

end Evolves

/-- No id is held by two keys. -/
def Distinct (table : LiveTable K M) : Prop :=
  ∀ {key other id}, table.idOf key = some id → table.idOf other = some id → key = other

/-- One write of the table: a mint, or entries that keep their ids or go. -/
inductive Change [DecidableEq K] (table : LiveTable K M) : LiveTable K M → Prop where
  | mints (key : K) (metadata : M) : Change table (table.insert key metadata).1
  | keeps {after : LiveTable K M} (nextId : after.nextId = table.nextId)
      (ids : ∀ key, after.idOf key = none ∨ after.idOf key = table.idOf key) : Change table after

/-- Any number of writes. -/
abbrev Changes [DecidableEq K] : LiveTable K M → LiveTable K M → Prop :=
  Relation.ReflTransGen Change

section Changes

variable [DecidableEq K] {table after : LiveTable K M}

theorem Change.evolves (change : table.Change after) : table.Evolves after := by
  cases change with
  | mints key metadata => exact .insert table key metadata
  | keeps nextId ids =>
    refine ⟨Nat.le_of_eq nextId.symm,?_⟩
    intro key id entry
    rcases ids key with gone | kept
    · simp [gone] at entry
    · exact .inl (kept ▸ entry)

theorem Change.distinct (change : table.Change after) (minted : table.Minted)
    (distinct : table.Distinct) : after.Distinct := by
  intro key other id one two
  cases change with
  | mints fresh metadata =>
    have old {known : K} (held : table.idOf known = some table.nextId) : False :=
      Nat.lt_irrefl _ (minted.minted held).2
    by_cases first : key = fresh <;> by_cases second : other = fresh
    · exact first.trans second.symm
    · simp only [idOf_insert,first,second,if_true,if_false,Option.some.injEq] at one two
      exact (old (one ▸ two)).elim
    · simp only [idOf_insert,first,second,if_true,if_false,Option.some.injEq] at one two
      exact (old (two ▸ one)).elim
    · simp only [idOf_insert,first,second,if_false] at one two
      exact distinct one two
  | keeps nextId ids =>
    rcases ids key with gone | kept
    · simp [gone] at one
    rcases ids other with gone | same
    · simp [gone] at two
    exact distinct (kept ▸ one) (same ▸ two)

theorem Changes.evolves (changes : table.Changes after) : table.Evolves after := by
  induction changes with
  | refl => exact .refl table
  | tail _ change previous => exact previous.trans change.evolves

theorem Changes.distinct (changes : table.Changes after) (minted : table.Minted)
    (distinct : table.Distinct) : after.Distinct := by
  induction changes with
  | refl => exact distinct
  | tail earlier change previous =>
    exact change.distinct (minted.evolves (Changes.evolves earlier)) previous

/-- An id its key has lost is held by no key ever again. -/
theorem Changes.never_again {later : LiveTable K M} {key : K} {id : Nat}
    (during : table.Changes after) (onwards : after.Changes later) (minted : table.Minted)
    (distinct : table.Distinct) (held : table.idOf key = some id)
    (gone : after.idOf key ≠ some id) (other : K) : later.idOf other ≠ some id := by
  intro again
  have old := (minted.minted held).2
  have still : table.idOf other = some id := by
    rcases (Changes.evolves (during.trans onwards)).live again with still | fresh
    · exact still
    · omega
  obtain rfl := distinct held still
  rcases onwards.evolves.live again with back | fresh
  · exact gone back
  · have := during.evolves.minting
    omega

end Changes

theorem Distinct.new (firstId : Nat) : (LiveTable.new firstId : LiveTable K M).Distinct := by
  intro key other id held
  simp at held

end LiveTable

/-- The entity books, `index → (host id, engine serial)`. -/
abbrev EntityBooks := LiveTable Int Int

namespace EntityBooks

/-- Each notification answers with the identity it retired. -/
def onCreated (books : EntityBooks) (index serial : Int) : EntityBooks × Option Nat :=
  ((books.insert index serial).1,books.idOf index)

/-- A matching spawn keeps the id minted at creation. -/
def onSpawned (books : EntityBooks) (index serial : Int) : EntityBooks × Option Nat :=
  match books.entries index with
  | some (id,current) =>
    if current = serial then (books,none) else ((books.insert index serial).1,some id)
  | none => ((books.insert index serial).1,none)

/-- A stale delete does not evict a newer entity of the same index. -/
def onDeleted (books : EntityBooks) (index serial : Int) : EntityBooks × Option Nat :=
  match books.entries index with
  | some (id,current) =>
    if current = serial then (books.remove index,some id) else (books,none)
  | none => (books,none)

def reconcileSlots : List (Int × Int) → EntityBooks → EntityBooks
  | [], books => books
  | (index,serial) :: slots, books => reconcileSlots slots (books.onSpawned index serial).1

/-- Upsert every slot of the snapshot, then evict what it does not name. -/
def repairReconcile (books : EntityBooks) (slots : List (Int × Int)) : EntityBooks :=
  let repaired := reconcileSlots slots books
  { repaired with
    entries := fun index => if index ∈ slots.map Prod.fst then repaired.entries index else none }

def engineSerialFor (books : EntityBooks) (index : Int) (id : Nat) : Option Int :=
  if id = 0 then none
  else match books.entries index with
    | some (current,serial) => if current = id then some serial else none
    | none => none

/-- The identity `(index,id)` is in the books. -/
def live (books : EntityBooks) (index : Int) (id : Nat) : Bool :=
  (books.engineSerialFor index id).isSome

theorem live_iff {books : EntityBooks} (minted : books.Minted) (index : Int) (id : Nat) :
    books.live index id = true ↔ books.idOf index = some id := by
  cases entry : books.entries index with
  | none => simp [live,engineSerialFor,LiveTable.idOf,entry]
  | some held =>
    obtain ⟨current,serial⟩ := held
    have held : books.idOf index = some current := by simp [LiveTable.idOf,entry]
    have positive := (minted.minted held).1
    by_cases same : current = id
    · have nonzero : id ≠ 0 := by omega
      simp [live,engineSerialFor,LiveTable.idOf,entry,same,nonzero]
    · simp [live,engineSerialFor,LiveTable.idOf,entry,same]

theorem onCreated_evolves (books : EntityBooks) (index serial : Int) :
    books.Evolves (books.onCreated index serial).1 := .insert books index serial

theorem onSpawned_evolves (books : EntityBooks) (index serial : Int) :
    books.Evolves (books.onSpawned index serial).1 := by
  unfold onSpawned
  split
  · split
    · exact .refl books
    · exact .insert books index serial
  · exact .insert books index serial

theorem onDeleted_evolves (books : EntityBooks) (index serial : Int) :
    books.Evolves (books.onDeleted index serial).1 := by
  unfold onDeleted
  split
  · split
    · exact .remove books index
    · exact .refl books
  · exact .refl books

theorem reconcileSlots_evolves (slots : List (Int × Int)) (books : EntityBooks) :
    books.Evolves (reconcileSlots slots books) := by
  induction slots generalizing books with
  | nil => exact .refl books
  | cons slot slots previous =>
    exact (onSpawned_evolves books slot.1 slot.2).trans (previous _)

theorem repairReconcile_evolves (books : EntityBooks) (slots : List (Int × Int)) :
    books.Evolves (books.repairReconcile slots) := by
  refine (reconcileSlots_evolves slots books).trans (.drops rfl fun index => ?_)
  by_cases named : index ∈ slots.map Prod.fst
  · exact .inr (if_pos named)
  · exact .inl (if_neg named)

theorem onSpawned_retired {books : EntityBooks} {index serial : Int} {id : Nat}
    (retired : (books.onSpawned index serial).2 = some id) : books.idOf index = some id := by
  cases entry : books.entries index with
  | none => simp [onSpawned,entry] at retired
  | some held =>
    by_cases same : held.2 = serial
    · simp [onSpawned,entry,same] at retired
    · simpa [onSpawned,entry,same,LiveTable.idOf] using retired

theorem onDeleted_retired {books : EntityBooks} {index serial : Int} {id : Nat}
    (retired : (books.onDeleted index serial).2 = some id) : books.idOf index = some id := by
  cases entry : books.entries index with
  | none => simp [onDeleted,entry] at retired
  | some held =>
    by_cases same : held.2 = serial
    · simpa [onDeleted,entry,same,LiveTable.idOf] using retired
    · simp [onDeleted,entry,same] at retired

section Retired

variable {books : EntityBooks} (minted : books.Minted) {index serial : Int} {id : Nat}
include minted

/-- A freshly minted id is not one the books held. -/
theorem insert_retires (held : books.idOf index = some id) (serial : Int) :
    (books.insert index serial).1.idOf index ≠ some id := by
  have old := (minted.minted held).2
  simp only [LiveTable.idOf_insert,if_true,ne_eq,Option.some.injEq]
  omega

theorem onCreated_retires (retired : (books.onCreated index serial).2 = some id) :
    (books.onCreated index serial).1.idOf index ≠ some id :=
  insert_retires minted retired serial

theorem onSpawned_retires (retired : (books.onSpawned index serial).2 = some id) :
    (books.onSpawned index serial).1.idOf index ≠ some id := by
  cases entry : books.entries index with
  | none => simp [onSpawned,entry] at retired
  | some held =>
    by_cases same : held.2 = serial
    · simp [onSpawned,entry,same] at retired
    · have old : books.idOf index = some id := by
        simpa [onSpawned,entry,same,LiveTable.idOf] using retired
      simpa [onSpawned,entry,same] using insert_retires minted old serial

omit minted in
theorem onDeleted_retires (retired : (books.onDeleted index serial).2 = some id) :
    (books.onDeleted index serial).1.idOf index ≠ some id := by
  cases entry : books.entries index with
  | none => simp [onDeleted,entry] at retired
  | some held =>
    by_cases same : held.2 = serial
    · simp [onDeleted,entry,same,LiveTable.idOf_remove]
    · simp [onDeleted,entry,same] at retired

end Retired

theorem clear_evolves (books : EntityBooks) : books.Evolves books.clear :=
  .drops rfl fun _ => .inl rfl

end EntityBooks

/-- The plugin registry. A slot is assigned on an id's first insertion and kept;
`0` beside it means the plugin is not loaded. -/
structure Registry where
  table : LiveTable String Unit
  slots : List (String × Nat)
  slotIndex : String → Option Nat

namespace Registry

def new : Registry := ⟨LiveTable.new 1,[],fun _ => none⟩

def insert (registry : Registry) (id : String) : Registry × Nat :=
  let (table,generation) := registry.table.insert id ()
  let (slots,slotIndex,slot) := match registry.slotIndex id with
    | some slot => (registry.slots,registry.slotIndex,slot)
    | none =>
      let slot := registry.slots.length
      (registry.slots ++ [(id,0)],Function.update registry.slotIndex id (some slot),slot)
  (⟨table,slots.modify slot (fun entry => (entry.1,generation)),slotIndex⟩,generation)

def remove (registry : Registry) (id : String) : Registry :=
  let slots := match registry.slotIndex id with
    | some slot => registry.slots.modify slot (fun entry => (entry.1,0))
    | none => registry.slots
  { registry with slots, table := registry.table.remove id }

def isLive (registry : Registry) (id : String) (generation : Nat) : Bool :=
  registry.table.isLive id generation

def slotOf (registry : Registry) (id : String) : Option Nat := registry.slotIndex id

def liveAt (registry : Registry) (slot generation : Nat) : Option String :=
  match registry.slots[slot]? with
  | none => none
  | some (id,live) => if generation ≠ 0 ∧ live = generation then some id else none

def generationOf (registry : Registry) (id : String) : Option Nat := registry.table.idOf id

/-- Slots and table describe the same plugins. -/
structure Coherent (registry : Registry) : Prop where
  minting : 0 < registry.table.nextId
  minted : ∀ {id generation}, registry.table.idOf id = some generation → 0 < generation
  registered : ∀ {id generation}, registry.table.idOf id = some generation →
    (registry.slotIndex id).isSome
  indexed : ∀ {id slot}, registry.slotIndex id = some slot →
    registry.slots[slot]? = some (id,(registry.table.idOf id).getD 0)
  bounded : ∀ {id slot}, registry.slotIndex id = some slot → slot < registry.slots.length

theorem new_coherent : new.Coherent where
  minting := Nat.one_pos
  minted := by simp [new]
  registered := by simp [new]
  indexed := by simp [new]
  bounded := by simp [new]

/-- Two ids never share a slot: the slot names its id. -/
theorem Coherent.slot_injective {registry : Registry} (coherent : registry.Coherent)
    {first second : String} {slot : Nat} (one : registry.slotIndex first = some slot)
    (two : registry.slotIndex second = some slot) : first = second := by
  have same := (coherent.indexed one).symm.trans (coherent.indexed two)
  simp only [Option.some.injEq,Prod.mk.injEq] at same
  exact same.1

theorem remove_idOf (registry : Registry) (id key : String) :
    (registry.remove id).table.idOf key =
      if key = id then none else registry.table.idOf key := by
  simp [remove,LiveTable.idOf_remove]

theorem insert_idOf (registry : Registry) (id key : String) :
    (registry.insert id).1.table.idOf key =
      if key = id then some registry.table.nextId else registry.table.idOf key := by
  simp [insert,LiveTable.idOf_insert]

theorem Coherent.remove {registry : Registry} (coherent : registry.Coherent) (id : String) :
    (registry.remove id).Coherent where
  minting := coherent.minting
  minted := by
    intro key generation entry
    by_cases same : key = id
    · simp [remove_idOf,same] at entry
    · exact coherent.minted (by simpa [remove_idOf,same] using entry)
  registered := by
    intro key generation entry
    by_cases same : key = id
    · simp [remove_idOf,same] at entry
    · exact coherent.registered (by simpa [remove_idOf,same] using entry)
  indexed := by
    intro key slot found
    replace found : registry.slotIndex key = some slot := found
    by_cases same : key = id
    · subst same
      simp [Registry.remove,LiveTable.idOf_remove,found,coherent.indexed found]
    · rw [remove_idOf,if_neg same]
      simp only [Registry.remove]
      cases other : registry.slotIndex id with
      | none => exact coherent.indexed found
      | some removed =>
        have apart : removed ≠ slot := by
          rintro rfl
          exact same (coherent.slot_injective found other)
        simp [apart,coherent.indexed found]
  bounded := by
    intro key slot found
    have bound : slot < registry.slots.length := coherent.bounded found
    simp only [Registry.remove]
    cases registry.slotIndex id <;> simpa using bound

theorem Coherent.insert {registry : Registry} (coherent : registry.Coherent) (id : String) :
    (registry.insert id).1.Coherent := by
  have minted : ∀ {key generation}, (registry.insert id).1.table.idOf key = some generation →
      0 < generation := by
    intro key generation entry
    by_cases same : key = id
    · simp only [insert_idOf,same,if_true,Option.some.injEq] at entry
      exact entry ▸ coherent.minting
    · exact coherent.minted (by simpa [insert_idOf,same] using entry)
  cases found : registry.slotIndex id with
  | some own =>
    have index : (registry.insert id).1.slotIndex = registry.slotIndex := by
      simp [Registry.insert,found]
    have slots : (registry.insert id).1.slots =
        registry.slots.modify own (fun entry => (entry.1,registry.table.nextId)) := by
      simp [Registry.insert,found,LiveTable.insert]
    refine ⟨Nat.succ_pos _,minted,?_,?_,?_⟩
    · intro key generation entry
      rw [index]
      by_cases same : key = id
      · simp [same,found]
      · exact coherent.registered (by simpa [insert_idOf,same] using entry)
    · intro key slot held
      rw [index] at held
      rw [slots,insert_idOf]
      by_cases same : key = id
      · subst same
        obtain rfl : own = slot := by simpa using found.symm.trans held
        simp [coherent.indexed held]
      · have apart : own ≠ slot := by
          rintro rfl
          exact same (coherent.slot_injective held found)
        simp [apart,same,coherent.indexed held]
    · intro key slot held
      rw [index] at held
      simpa [slots] using coherent.bounded held
  | none =>
    have index : (registry.insert id).1.slotIndex =
        Function.update registry.slotIndex id (some registry.slots.length) := by
      simp [Registry.insert,found]
    have slots : (registry.insert id).1.slots =
        registry.slots ++ [(id,registry.table.nextId)] := by
      simp [Registry.insert,found,LiveTable.insert,List.modify_eq_set_getElem?]
    refine ⟨Nat.succ_pos _,minted,?_,?_,?_⟩
    · intro key generation entry
      rw [index]
      by_cases same : key = id
      · simp [same]
      · simpa [same] using coherent.registered (by simpa [insert_idOf,same] using entry)
    · intro key slot held
      rw [index] at held
      rw [slots,insert_idOf]
      by_cases same : key = id
      · obtain rfl : registry.slots.length = slot := by simpa [same] using held
        simp [same]
      · have held : registry.slotIndex key = some slot := by simpa [same] using held
        simp [List.getElem?_append_left (coherent.bounded held),same,coherent.indexed held]
    · intro key slot held
      rw [index] at held
      rw [slots]
      by_cases same : key = id
      · obtain rfl : registry.slots.length = slot := by simpa [same] using held
        simp
      · have held : registry.slotIndex key = some slot := by simpa [same] using held
        simpa using Nat.lt_succ_of_lt (coherent.bounded held)

/-- Asking by slot and asking by id are the same question. -/
theorem Coherent.liveAt_slot {registry : Registry} (coherent : registry.Coherent)
    {id : String} {slot : Nat} (found : registry.slotIndex id = some slot) (generation : Nat) :
    (registry.liveAt slot generation).isSome = registry.isLive id generation := by
  simp only [liveAt,coherent.indexed found,isLive,LiveTable.isLive]
  cases entry : registry.table.idOf id with
  | none =>
    have never : ¬(generation ≠ 0 ∧ 0 = generation) := fun both => both.1 both.2.symm
    simp [never]
  | some current =>
    have positive := coherent.minted entry
    by_cases same : current = generation
    · have live : generation ≠ 0 := by omega
      simp [same,live]
    · simp [same]

end Registry

/-- The registry with the ids `PLUGINS` holds a context for. Loading and disposing
change both before any dispatch runs, so a context means a registered plugin. -/
structure Host where
  registry : Registry
  plugins : String → Bool
  coherent : registry.Coherent
  contexts : ∀ id, plugins id = (registry.table.idOf id).isSome

namespace Host

def new : Host := ⟨.new,fun _ => false,Registry.new_coherent,by simp [Registry.new]⟩

def createPluginContext (host : Host) (id : String) : Host where
  registry := (host.registry.insert id).1
  plugins := Function.update host.plugins id true
  coherent := host.coherent.insert id
  contexts := by
    intro key
    by_cases same : key = id
    · simp [same,Registry.insert_idOf]
    · simpa [same,Registry.insert_idOf] using host.contexts key

def disposePluginContext (host : Host) (id : String) : Host where
  registry := host.registry.remove id
  plugins := Function.update host.plugins id false
  coherent := host.coherent.remove id
  contexts := by
    intro key
    by_cases same : key = id
    · simp [same,Registry.remove_idOf]
    · simpa [same,Registry.remove_idOf] using host.contexts key

/-- What may happen to the books while a handler runs: plugins go. Loading one
borrows the isolate, which every dispatch holds. -/
def Unloads : Host → Host → Prop :=
  Relation.ReflTransGen (fun host after => ∃ id, after = host.disposePluginContext id)

theorem Unloads.slotIndex {host after : Host} (unloads : host.Unloads after) :
    after.registry.slotIndex = host.registry.slotIndex := by
  induction unloads with
  | refl => rfl
  | tail _ step previous =>
    obtain ⟨id,rfl⟩ := step
    exact previous

/-- An id still registered is registered at the generation it had. -/
theorem Unloads.entry {host after : Host} (unloads : host.Unloads after) {id : String}
    {generation : Nat} (entry : after.registry.table.idOf id = some generation) :
    host.registry.table.idOf id = some generation := by
  induction unloads with
  | refl => exact entry
  | tail _ step previous =>
    obtain ⟨removed,rfl⟩ := step
    by_cases same : id = removed
    · simp [disposePluginContext,Registry.remove_idOf,same] at entry
    · apply previous
      simpa [disposePluginContext,Registry.remove_idOf,same] using entry

end Host
end S2Script.Liveness
