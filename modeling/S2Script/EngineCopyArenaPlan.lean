import S2Script.EngineCopyArena

/-! The plan of a batch: published and tentative entries are one table in which every value lies
once, behind those before it in the payload. -/
namespace S2Script.EngineCopyArena

open EngineFunctionCopy (StableOwner)
open Probing (Placed Reads search)

/-- Payload that entries take. -/
def total (entries : List Pending) : Nat := (entries.map fun p => p.source.capacity).sum

def home (hash : Value → UInt64) (p : Pending) : Nat := (hash p.source).toNat

/-- Entries as the index and the payload hold them. -/
structure Indexed (hash : Value → UInt64) (entries : List Pending) : Prop where
  placed : Placed InternSlots (home hash) Pending.slot entries
  entry : ∀ p ∈ entries, p.entry = ⟨hash p.source,p.entry.offset,p.source.bytes.length,p.source.kind⟩
  values : (entries.map Pending.source).Nodup
  apart : entries.Pairwise fun p q => p.entry.offset + p.source.capacity ≤ q.entry.offset
  inside : ∀ p ∈ entries, p.entry.offset + p.source.capacity ≤ total entries
  aligned : ∀ p ∈ entries, p.entry.offset % 16 = 0

/-- The mapping against its published entries. -/
structure Holds (a : Arena) (published : List Pending) : Prop where
  slots : ∀ i, a.slots i = (published.find? fun p => p.slot = i).map Pending.entry
  payload : ∀ p ∈ published, ∀ k < p.source.capacity, a.payload (p.entry.offset + k) = p.source.byte k
  bytes : a.metrics.bytes = total published
  values : a.metrics.values = published.length

theorem total_append (first second : List Pending) : total (first ++ second) = total first + total second := by
  simp [total]

theorem total_cons (p : Pending) (entries : List Pending) : total (p :: entries) = p.source.capacity + total entries := by
  simp [total]

theorem capacity_aligned (v : Value) : v.capacity % 16 = 0 := by
  rw [Value.capacity,align16]
  omega

theorem length_le_capacity (v : Value) : v.bytes.length + (if v.kind = .string then 1 else 0) ≤ v.capacity := by
  rw [Value.capacity,align16]
  omega

theorem total_aligned (entries : List Pending) : total entries % 16 = 0 := by
  induction entries with
  | nil => rfl
  | cons p rest ih =>
    have := capacity_aligned p.source
    rw [total_cons]
    omega

/-- A value that is accepted takes some payload. -/
theorem capacity_pos {v : Value} (valid : v.Valid = true) : 0 < v.capacity := by
  have enough := length_le_capacity v
  rw [Value.Valid] at valid
  cases kind : v.kind with
  | string =>
    rw [kind,if_pos rfl] at enough
    omega
  | vector =>
    rw [kind] at valid
    simp only at valid
    split at valid
    next bytes =>
      rw [bytes] at enough
      simp only [List.length_cons] at enough
      omega
    next => cases valid

theorem read_bytes (v : Value) : (List.range v.bytes.length).map v.byte = v.bytes := by
  refine List.ext_getElem (by simp) fun i _ inside => ?_
  simp [Value.byte,inside]

/-- An entry answers to its own value and to no other. -/
theorem equal_iff {hash : Value → UInt64} {p : Pending} (v : Value) {bytes : Nat → UInt8}
    (entry : p.entry = ⟨hash p.source,p.entry.offset,p.source.bytes.length,p.source.kind⟩)
    (stored : ∀ k < p.source.bytes.length, bytes k = p.source.byte k) :
    p.entry.equal v (hash v) bytes = true ↔ p.source = v := by
  have read : p.source.bytes.length = v.bytes.length → (List.range v.bytes.length).map bytes = p.source.bytes := by
    intro same
    rw [← same]
    refine Eq.trans (List.map_congr_left fun k member => ?_) (read_bytes p.source)
    exact stored k (List.mem_range.mp member)
  rw [entry,Slot.equal]
  simp only [Bool.and_eq_true,decide_eq_true_eq]
  constructor
  · rintro ⟨⟨⟨kind,_⟩,length⟩,bytes⟩
    rw [read length] at bytes
    exact (Value.mk.injEq ..).mpr ⟨kind,bytes⟩
  · rintro rfl
    exact ⟨⟨⟨rfl,rfl⟩,rfl⟩,read rfl⟩

theorem find_slot {entries : List Pending} (slots : (entries.map Pending.slot).Nodup) {p : Pending}
    (member : p ∈ entries) : entries.find? (fun q => q.slot = p.slot) = some p := by
  induction entries with
  | nil => cases member
  | cons q rest ih =>
    obtain ⟨new,others⟩ := List.nodup_cons.mp slots
    rcases List.mem_cons.mp member with rfl | later
    · simp
    · have different : q.slot ≠ p.slot := fun same => new (same ▸ List.mem_map_of_mem later)
      simp [different,ih others later]

theorem find_free {entries : List Pending} {i : Nat} :
    entries.find? (fun q => q.slot = i) = none ↔ ∀ p ∈ entries, p.slot ≠ i := by
  simp [List.find?_eq_none]

variable {hash : Value → UInt64} {a : Arena} {published : List Pending} {stage : Stage}

/-- What the probes of a value see is the published and the tentative entries. -/
theorem look_reads (holds : Holds a published) (indexed : Indexed hash (published ++ stage.entries)) (v : Value) :
    Reads InternSlots Pending.slot (published ++ stage.entries) (look a stage v (hash v)) (fun p => p.source = v)
      (fun p => p.entry.offset) := by
  have slots := indexed.placed.slots
  rw [List.map_append,List.nodup_append] at slots
  obtain ⟨first,second,disjoint⟩ := slots
  have seen : ∀ p ∈ published ++ stage.entries, look a stage v (hash v) p.slot =
      if p.source = v then .hit p.entry.offset else .miss := by
    intro p member
    have entry := indexed.entry p member
    rw [look]
    rcases List.mem_append.mp member with old | new
    · have stored : ∀ k < p.source.bytes.length, a.payload (p.entry.offset + k) = p.source.byte k := by
        intro k below
        have := length_le_capacity p.source
        exact holds.payload p old k (by omega)
      have answers := equal_iff v entry stored
      rw [holds.slots,find_slot first old]
      simp only [Option.map_some,answers]
    · have unpublished : published.find? (fun q => q.slot = p.slot) = none := by
        refine find_free.mpr fun q inside same => ?_
        exact disjoint _ (List.mem_map_of_mem inside) _ (List.mem_map_of_mem new) same
      have answers := equal_iff v entry fun k _ => rfl
      rw [holds.slots,unpublished,find_slot second new]
      simp only [Option.map_none,answers]
  refine ⟨fun p member same => ?_,fun p member other => ?_,fun i _ vacant => ?_⟩
  · rw [seen p member,if_pos same]
  · rw [seen p member,if_neg other]
  · have unpublished : published.find? (fun q => q.slot = i) = none :=
      find_free.mpr fun p inside => vacant p (List.mem_append_left _ inside)
    have unstaged : stage.entries.find? (fun q => q.slot = i) = none :=
      find_free.mpr fun p inside => vacant p (List.mem_append_right _ inside)
    rw [look,holds.slots,unpublished,unstaged]
    rfl

/-- A new value behind the others, in the free slot that its search ended in. -/
theorem Indexed.append {entries : List Pending} (indexed : Indexed hash entries) {p : Pending} {d : Nat}
    (entry : p.entry = ⟨hash p.source,total entries,p.source.bytes.length,p.source.kind⟩)
    (new : ∀ q ∈ entries, q.source ≠ p.source) (reached : p.slot = ((hash p.source).toNat + d) % InternSlots)
    (occupied : ∀ e < d, ∃ b ∈ entries, b.slot = ((hash p.source).toNat + e) % InternSlots)
    (free : ∀ q ∈ entries, q.slot ≠ p.slot) : Indexed hash (entries ++ [p]) where
  placed := indexed.placed.append (by decide) reached occupied free
  entry q member := by
    rcases List.mem_append.mp member with old | last
    · exact indexed.entry q old
    · rw [List.mem_singleton.mp last,entry]
  values := by
    rw [List.map_append]
    refine List.nodup_append.mpr ⟨indexed.values,by simp,?_⟩
    intro v old v' last
    obtain ⟨q,member,rfl⟩ := List.mem_map.mp old
    rw [List.mem_singleton.mp last]
    exact new q member
  apart := by
    refine List.pairwise_append.mpr ⟨indexed.apart,by simp,?_⟩
    intro q member r last
    rw [List.mem_singleton.mp last,entry]
    exact indexed.inside q member
  inside q member := by
    rw [total_append]
    rcases List.mem_append.mp member with old | last
    · have := indexed.inside q old
      omega
    · rw [List.mem_singleton.mp last,entry]
      simp [total]
  aligned q member := by
    rcases List.mem_append.mp member with old | last
    · exact indexed.aligned q old
    · rw [List.mem_singleton.mp last,entry]
      exact total_aligned entries

/-- The stage of a batch over the published entries. -/
structure Staged (hash : Value → UInt64) (published : List Pending) (stage : Stage) : Prop where
  indexed : Indexed hash (published ++ stage.entries)
  bytes : stage.bytes = total stage.entries
  values : (published ++ stage.entries).length ≤ MaxValues
  room : total (published ++ stage.entries) ≤ PayloadBytes
  valid : ∀ p ∈ stage.entries, p.source.Valid = true

/-- Where a value lies. -/
def At (entries : List Pending) (v : Value) (offset : Nat) : Prop :=
  ∃ p ∈ entries, p.source = v ∧ p.entry.offset = offset

/-- The probe loop ends, and an accepted value has an address. -/
theorem Staged.value (holds : Holds a published) (staged : Staged hash published stage) (key : StableOwner)
    (value : Option Value) :
    (∃ refusal, stageValue hash a stage key value = .error refusal ∧ refusal ≠ .endless) ∨
      ∃ stage' v offset, stageValue hash a stage key value = .ok stage' ∧ value = some v ∧
        Staged hash published stage' ∧ (∃ more, stage'.entries = stage.entries ++ more) ∧
        stage'.outputs = stage.outputs ++ [offset] ∧ At (published ++ stage'.entries) v offset := by
  rw [stageValue.eq_def]
  cases value with
  | none => exact .inl ⟨.invalid,rfl,by simp⟩
  | some v =>
    simp only
    split
    next => exact .inl ⟨.invalid,rfl,by simp⟩
    next valid =>
      have enough : (published ++ stage.entries).length < InternSlots :=
        Nat.lt_of_le_of_lt staged.values (by decide)
      rcases staged.indexed.placed.search (look_reads holds staged.indexed v) enough
        (hash v).toNat (fun p _ same => by rw [home,same]) with
        ⟨p,member,same,found⟩ | ⟨d,found,new,free,occupied⟩
      · rw [found]
        exact .inr ⟨_,v,p.entry.offset,rfl,rfl,⟨staged.indexed,staged.bytes,staged.values,staged.room,staged.valid⟩,
          ⟨[],by simp⟩,rfl,p,member,same,rfl⟩
      · rw [found]
        simp only
        split
        next => exact .inl ⟨_,rfl,by simp⟩
        next counted =>
          split
          next => exact .inl ⟨_,rfl,by simp⟩
          next fits =>
            have bytes : a.metrics.bytes + stage.bytes = total (published ++ stage.entries) := by
              rw [holds.bytes,staged.bytes,total_append]
            have values := staged.values
            have room := staged.room
            rw [holds.values] at counted
            rw [List.length_append] at values
            refine .inr ⟨_,v,_,rfl,rfl,⟨?_,?_,?_,?_,?_⟩,⟨_,rfl⟩,rfl,?_⟩
            · simp only [← List.append_assoc]
              exact staged.indexed.append (by simp only [bytes]) new rfl occupied free
            · simp [staged.bytes,total]
            · simp only [List.length_append,List.length_singleton]
              omega
            · simp only [← List.append_assoc,total_append] at room ⊢
              simp only [total,List.map_cons,List.map_nil,List.sum_cons,List.sum_nil] at room bytes ⊢
              rw [List.map_append,List.sum_append] at bytes
              omega
            · intro p member
              rcases List.mem_append.mp member with old | last
              · exact staged.valid p old
              · rw [List.mem_singleton.mp last]
                simpa using valid
            · exact ⟨_,List.mem_append_right _ (List.mem_append_right _ (List.mem_singleton_self _)),rfl,rfl⟩

end S2Script.EngineCopyArena
