import S2Script.EntityVisibility

/-! Host and shim agree about every live entity: the shim's mask is what the plugins' rules
merge to. Every operation keeps this, and so a snapshot hides exactly what a rule or a plugin's
answer hides. -/
namespace S2Script.EntityVisibility

/-- The rules at an index merge to this one. -/
structure Merges (rules : FoldTable Int TransmitRule) (index : Int) (merged : TransmitRule) : Prop where
  held : ∃ owner rule, rules.get owner index = some rule
  serial : ∀ owner rule, rules.get owner index = some rule → rule.serial = merged.serial
  mask : ∀ slot, merged.mask.getLsbD slot = true ↔
    ∀ owner rule, rules.get owner index = some rule → rule.mask.getLsbD slot = true

theorem mask_andFold (slot : Nat) (rule other : TransmitRule) :
    (AndFold.andFold rule other).mask.getLsbD slot = true ↔
      rule.mask.getLsbD slot = true ∧ other.mask.getLsbD slot = true := by
  simp [AndFold.andFold]

theorem serial_andFold (serial : Int) (rule other : TransmitRule) (_ : rule.serial = serial)
    (same : other.serial = serial) : (AndFold.andFold rule other).serial = serial := same

theorem TransmitRule.eq_of_bits {rule other : TransmitRule} (serial : rule.serial = other.serial)
    (bits : ∀ slot, rule.mask.getLsbD slot = true ↔ other.mask.getLsbD slot = true) : rule = other := by
  cases rule
  cases other
  obtain rfl : _ = _ := serial
  refine congrArg _ (BitVec.eq_of_getLsbD_eq fun slot _ => ?_)
  exact Bool.eq_iff_iff.mpr (bits slot)

namespace Merges

variable {rules : FoldTable Int TransmitRule} {index : Int} {merged other : TransmitRule}

theorem unique (here : Merges rules index merged) (there : Merges rules index other) : merged = other := by
  obtain ⟨owner,rule,held⟩ := here.held
  refine TransmitRule.eq_of_bits ?_ fun slot => (here.mask slot).trans (there.mask slot).symm
  exact (here.serial owner rule held).symm.trans (there.serial owner rule held)

theorem congr {later : FoldTable Int TransmitRule} (same : ∀ owner, later.get owner index = rules.get owner index) :
    Merges later index merged ↔ Merges rules index merged := by
  constructor
  · rintro ⟨held,serial,mask⟩
    simp only [same] at held serial mask
    exact ⟨held,serial,mask⟩
  · rintro ⟨held,serial,mask⟩
    simp only [← same] at held serial mask
    exact ⟨held,serial,mask⟩

end Merges

/-- Where all rules are for one serial, what the table computes is the merge. -/
theorem merged_eq_some_iff {rules : FoldTable Int TransmitRule} {index serial : Int}
    (oneSerial : ∀ owner rule, rules.get owner index = some rule → rule.serial = serial) (merged : TransmitRule) :
    rules.merged index = some merged ↔ Merges rules index merged := by
  have merges {found : TransmitRule} (folded : rules.merged index = some found) : Merges rules index found := by
    have common : found.serial = serial := FoldTable.merged_of_all (serial_andFold serial) folded oneSerial
    refine ⟨?_,fun owner rule here => (oneSerial owner rule here).trans common.symm,fun slot => ?_⟩
    · by_contra nobody
      push Not at nobody
      have empty : rules.merged index = none :=
        (FoldTable.merged_eq_none_iff rules index).mpr fun owner => Option.eq_none_iff_forall_ne_some.mpr (nobody owner)
      rw [folded] at empty
      contradiction
    · exact @FoldTable.merged_all_iff _ _ _ _ (fun rule : TransmitRule => rule.mask.getLsbD slot = true) (mask_andFold slot)
        _ _ _ folded
  refine ⟨merges,fun here => ?_⟩
  cases folded : rules.merged index with
  | none =>
    obtain ⟨owner,rule,held⟩ := here.held
    rw [(FoldTable.merged_eq_none_iff rules index).mp folded owner] at held
    contradiction
  | some found => rw [(merges folded).unique here]

namespace Shim

variable {shim : Shim} {resolves : Int → Int → Bool} {index serial : Int}

/-- What the shim asks before it takes a mask. -/
structure Takes (shim : Shim) (resolves : Int → Int → Bool) (index serial : Int) : Prop where
  installed : shim.hookInstalled = true
  usable : shim.layoutState ≠ .failed
  index_nonneg : 0 ≤ index
  index_lt : index < maxEdicts
  serial_nonneg : 0 ≤ serial
  resolved : resolves index serial = true
  room : (∃ entry, shim.transmitTable.lookup index = some entry) ∨ Table.size shim.transmitTable < transmitTableCap

def withTable (shim : Shim) (table : Table Int TransmitRule) : Shim := { shim with transmitTable := table }

theorem transmitSet_taken (takes : shim.Takes resolves index serial) (mask : BitVec 64) :
    shim.transmitSet resolves index serial mask =
      (shim.withTable (shim.transmitTable.insert index ⟨serial,mask⟩),true) := by
  have room : ((shim.transmitTable.lookup index).isNone && decide (transmitTableCap ≤ Table.size shim.transmitTable)) = false := by
    rcases takes.room with ⟨entry,here⟩ | room
    · simp [here]
    · simp [Nat.not_le.mpr room]
  simp [transmitSet,takes.installed,takes.usable,Int.not_lt.mpr takes.index_nonneg,
    Int.not_lt.mpr takes.serial_nonneg,Int.not_le.mpr takes.index_lt,takes.resolved,room,withTable]

theorem takes_of_transmitSet {mask : BitVec 64} (taken : (shim.transmitSet resolves index serial mask).2 = true) :
    shim.Takes resolves index serial := by
  unfold transmitSet at taken
  split_ifs at taken with hook negative edict gone full
  simp only [Bool.or_eq_true,Bool.not_eq_true',decide_eq_true_eq,not_or] at hook negative
  simp only [Bool.and_eq_true,Option.isNone_iff_eq_none,decide_eq_true_eq,not_and_or] at full
  refine ⟨by simpa using hook.1,hook.2,?_,?_,?_,by simpa using gone,?_⟩
  · exact Int.not_lt.mp negative.1
  · exact Int.not_le.mp edict
  · exact Int.not_lt.mp negative.2
  · exact full.imp Option.ne_none_iff_exists'.mp Nat.not_le.mp

theorem transmitSet_refused {mask : BitVec 64} (refused : (shim.transmitSet resolves index serial mask).2 = false) :
    (shim.transmitSet resolves index serial mask).1 = shim := by
  unfold transmitSet at refused ⊢
  split_ifs at refused ⊢ <;> rfl

end Shim

namespace System

variable {system : System} {gone : Int → Int → Prop}

def withTable (system : System) (table : Table Int TransmitRule) : System :=
  { system with shim := system.shim.withTable table }

section

variable (system : System) (table : Table Int TransmitRule)

@[simp] theorem withTable_rules : (system.withTable table).rules = system.rules := rfl

@[simp] theorem withTable_resolves : (system.withTable table).resolves = system.resolves := rfl

@[simp] theorem withTable_transmitTable : (system.withTable table).shim.transmitTable = table := rfl

@[simp] theorem withTable_layoutState : (system.withTable table).shim.layoutState = system.shim.layoutState := rfl

@[simp] theorem withTable_hookInstalled : (system.withTable table).shim.hookInstalled = system.shim.hookInstalled := rfl

@[simp] theorem withTable_engineOps : (system.withTable table).engineOps = system.engineOps := rfl

end

/-- The shim's entry for a live entity is what its rules merge to. -/
def Settled (system : System) (index : Int) : Prop :=
  ∀ rule, system.resolves index rule.serial = true →
    (system.shim.transmitTable.lookup index = some rule ↔ Merges system.rules index rule)

/-- The pair named a networkable entity once. -/
def Known (gone : Int → Int → Prop) (system : System) (index serial : Int) : Prop :=
  0 ≤ index ∧ index < maxEdicts ∧ (system.resolves index serial = true ∨ gone index serial)

/-- What every run keeps of the rules, and of the entries of a shim that may still apply them. -/
structure Invariant (gone : Int → Int → Prop) (system : System) : Prop where
  oneSerial : ∀ index owner other rule found, system.rules.get owner index = some rule →
    system.rules.get other index = some found → found.serial = rule.serial
  taken : ∀ owner index rule, system.rules.get owner index = some rule →
    system.engineOps = true ∧ system.shim.hookInstalled = true ∧ 0 ≤ rule.serial
  known : ∀ owner index rule, system.rules.get owner index = some rule → system.Known gone index rule.serial
  entries : ∀ index entry, system.shim.transmitTable.lookup index = some entry → system.Known gone index entry.serial
  settled : system.shim.layoutState ≠ .failed → ∀ index, system.Settled index

theorem load_invariant (engineOps hookInstalled : Bool) (trackedSignon : Nat → Nat) (resolves : Int → Int → Bool) :
    (load engineOps hookInstalled trackedSignon resolves).Invariant fun _ _ => False where
  oneSerial := by simp [load]
  taken := by simp [load]
  known := by simp [load]
  entries := by simp [load]
  settled := by
    intro _ index rule _
    constructor
    · simp [load]
    · rintro ⟨⟨owner,found,held⟩,_,_⟩
      simp [load] at held

/-- Some rules of an index have left, and the shim still shows what they merged to. -/
structure Leaving (system : System) (index : Int) (before : TransmitRule) : Prop where
  running : system.engineOps = true
  installed : system.shim.hookInstalled = true
  index_nonneg : 0 ≤ index
  index_lt : index < maxEdicts
  serial_nonneg : 0 ≤ before.serial
  left : ∀ owner rule, system.rules.get owner index = some rule → rule.serial = before.serial
  shown : system.shim.layoutState ≠ .failed → ∀ rule, system.resolves index rule.serial = true →
    (system.shim.transmitTable.lookup index = some rule ↔ rule = before)

/-- Pushing an index rewrites no other entry, and settles the index. -/
theorem push_spec {index : Int} {before : TransmitRule} (leaving : system.Leaving index before) :
    ∃ table, system.recomputeAndPush index = system.withTable table ∧
      (∀ other, other ≠ index → table.lookup other = system.shim.transmitTable.lookup other) ∧
      (∀ entry, table.lookup index = some entry →
        system.shim.transmitTable.lookup index = some entry ∨ system.resolves index entry.serial = true) ∧
      (system.shim.layoutState ≠ .failed → (system.withTable table).Settled index) := by
  have running : ¬(!system.engineOps) = true := by simp [leaving.running]
  simp only [recomputeAndPush,if_neg running]
  cases folded : system.rules.merged index with
  | none =>
    refine ⟨AList.erase index system.shim.transmitTable,rfl,?_,?_,?_⟩
    · intro other different
      rw [Table.lookup_erase_eq,if_neg different]
    · intro entry here
      simp at here
    · intro _ rule _
      have absent := (FoldTable.merged_eq_none_iff system.rules index).mp folded
      refine ⟨fun here => by simp at here,?_⟩
      rintro ⟨⟨owner,found,held⟩,_,_⟩
      rw [withTable_rules,absent owner] at held
      contradiction
  | some merged =>
    have merges := (merged_eq_some_iff leaving.left merged).mp folded
    have serial : merged.serial = before.serial := by
      obtain ⟨owner,rule,held⟩ := merges.held
      exact (merges.serial owner rule held).symm.trans (leaving.left owner rule held)
    dsimp only
    cases pushed : (system.shim.transmitSet system.resolves index merged.serial merged.mask).2 with
    | false =>
      rw [Shim.transmitSet_refused pushed]
      refine ⟨system.shim.transmitTable,rfl,fun _ _ => rfl,fun _ here => .inl here,fun usable rule live => ?_⟩
      -- The entity is gone, or the shim would have taken the mask.
      have dead : system.resolves index before.serial = false := by
        by_contra alive
        have alive : system.resolves index before.serial = true := by simpa using alive
        have takes : system.shim.Takes system.resolves index merged.serial :=
          ⟨leaving.installed,usable,leaving.index_nonneg,leaving.index_lt,serial ▸ leaving.serial_nonneg,serial ▸ alive,
            .inl ⟨before,(leaving.shown usable before alive).mpr rfl⟩⟩
        rw [Shim.transmitSet_taken takes] at pushed
        contradiction
      have other : rule.serial ≠ before.serial := by
        rintro same
        rw [withTable_resolves,same,dead] at live
        contradiction
      constructor
      · intro here
        exact absurd (congrArg TransmitRule.serial ((leaving.shown usable rule live).mp here)) other
      · intro found
        exact absurd ((found.unique merges ▸ serial) : rule.serial = before.serial) other
    | true =>
      have takes := Shim.takes_of_transmitSet pushed
      rw [Shim.transmitSet_taken takes]
      refine ⟨system.shim.transmitTable.insert index merged,rfl,?_,?_,?_⟩
      · intro other different
        rw [Table.lookup_insert_eq,if_neg different]
      · intro entry here
        rw [AList.lookup_insert] at here
        exact .inr (Option.some.inj here ▸ takes.resolved)
      · intro _ rule _
        simp only [withTable_transmitTable,AList.lookup_insert,Option.some.injEq]
        constructor
        · rintro rfl
          exact merges
        · exact fun found => merges.unique found

theorem Settled.frame {table : Table Int TransmitRule} {index : Int} (settled : system.Settled index)
    (same : table.lookup index = system.shim.transmitTable.lookup index) : (system.withTable table).Settled index := by
  intro rule live
  rw [withTable_transmitTable,same]
  exact settled rule live

theorem Leaving.frame {table : Table Int TransmitRule} {index : Int} {before : TransmitRule}
    (leaving : system.Leaving index before)
    (same : table.lookup index = system.shim.transmitTable.lookup index) :
    (system.withTable table).Leaving index before where
  running := leaving.running
  installed := leaving.installed
  index_nonneg := leaving.index_nonneg
  index_lt := leaving.index_lt
  serial_nonneg := leaving.serial_nonneg
  left := leaving.left
  shown := by
    intro usable rule live
    rw [withTable_transmitTable,same]
    exact leaving.shown usable rule live

/-- Pushing every index that lost rules settles them all. -/
theorem pushes_spec {indices : List Int} (nodup : indices.Nodup)
    (leaving : ∀ index ∈ indices, ∃ before, system.Leaving index before)
    (entries : ∀ index entry, system.shim.transmitTable.lookup index = some entry → system.Known gone index entry.serial)
    (settled : system.shim.layoutState ≠ .failed → ∀ index ∉ indices, system.Settled index) :
    ∃ table, indices.foldl recomputeAndPush system = system.withTable table ∧
      (∀ index entry, table.lookup index = some entry → system.Known gone index entry.serial) ∧
      (system.shim.layoutState ≠ .failed → ∀ index, (system.withTable table).Settled index) := by
  induction indices generalizing system with
  | nil => exact ⟨system.shim.transmitTable,rfl,entries,fun usable index => settled usable index (List.not_mem_nil)⟩
  | cons index rest ih =>
    obtain ⟨before,first⟩ := leaving index List.mem_cons_self
    obtain ⟨table,pushed,frame,fresh,done⟩ := push_spec first
    obtain ⟨notLater,nodup⟩ := List.nodup_cons.mp nodup
    rw [List.foldl_cons,pushed]
    have apart {other : Int} (member : other ∈ rest) : other ≠ index := fun same => notLater (same ▸ member)
    have pending : ∀ other ∈ rest, ∃ old, (system.withTable table).Leaving other old := by
      intro other member
      obtain ⟨old,leaves⟩ := leaving other (List.mem_cons_of_mem _ member)
      exact ⟨old,leaves.frame (frame other (apart member))⟩
    have known : ∀ other entry, table.lookup other = some entry → system.Known gone other entry.serial := by
      intro other entry here
      by_cases same : other = index
      · subst same
        rcases fresh entry here with old | live
        · exact entries other entry old
        · exact ⟨first.index_nonneg,first.index_lt,.inl live⟩
      · exact entries other entry ((frame other same).symm.trans here)
    refine ih nodup pending known fun usable other absent => ?_
    by_cases same : other = index
    · exact same ▸ done usable
    · refine (settled usable other ?_).frame (frame other same)
      simpa [same] using absent

namespace Invariant

/-- Where some rules of an index leave, the shim shows what they merged to before. -/
theorem leaving (invariant : system.Invariant gone) {rules : FoldTable Int TransmitRule} {owner : String} {index : Int}
    {rule : TransmitRule} (held : system.rules.get owner index = some rule)
    (fewer : ∀ other found, rules.get other index = some found → system.rules.get other index = some found) :
    ∃ before, ({ system with rules := rules } : System).Leaving index before := by
  obtain ⟨running,installed,nonneg⟩ := invariant.taken owner index rule held
  obtain ⟨index_nonneg,index_lt,_⟩ := invariant.known owner index rule held
  have one := fun other found => invariant.oneSerial index owner other rule found held
  cases folded : system.rules.merged index with
  | none =>
    rw [(FoldTable.merged_eq_none_iff system.rules index).mp folded owner] at held
    contradiction
  | some before =>
    have merges := (merged_eq_some_iff one before).mp folded
    have serial : rule.serial = before.serial := merges.serial owner rule held
    refine ⟨before,running,installed,index_nonneg,index_lt,serial ▸ nonneg,?_,?_⟩
    · intro other found here
      exact (one other found (fewer other found here)).trans serial
    · intro usable found live
      refine (invariant.settled usable index found live).trans ⟨fun there => there.unique merges,?_⟩
      rintro rfl
      exact merges

/-- Dropping rules, and pushing every index that lost one. -/
theorem drop (invariant : system.Invariant gone) {rules : FoldTable Int TransmitRule} {indices : List Int}
    (nodup : indices.Nodup)
    (fewer : ∀ owner index rule, rules.get owner index = some rule → system.rules.get owner index = some rule)
    (kept : ∀ index ∉ indices, ∀ owner, rules.get owner index = system.rules.get owner index)
    (lost : ∀ index ∈ indices, ∃ owner rule, system.rules.get owner index = some rule) :
    (indices.foldl recomputeAndPush { system with rules := rules }).Invariant gone := by
  have leaving : ∀ index ∈ indices, ∃ before, ({ system with rules := rules } : System).Leaving index before := by
    intro index member
    obtain ⟨owner,rule,held⟩ := lost index member
    exact invariant.leaving held fun other found => fewer other index found
  have others : system.shim.layoutState ≠ .failed → ∀ index ∉ indices, ({ system with rules := rules } : System).Settled index := by
    intro usable index absent rule live
    exact (invariant.settled usable index rule live).trans (Merges.congr (kept index absent)).symm
  obtain ⟨table,run,known,settled⟩ := pushes_spec nodup leaving invariant.entries others
  rw [run]
  exact {
    oneSerial := fun index owner other rule found here there =>
      invariant.oneSerial index owner other rule found (fewer _ _ _ here) (fewer _ _ _ there)
    taken := fun owner index rule here => invariant.taken owner index rule (fewer _ _ _ here)
    known := fun owner index rule here => invariant.known owner index rule (fewer _ _ _ here)
    entries := known
    settled := settled }

theorem transmitReset (invariant : system.Invariant gone) (owner : String) (index serial : Int) :
    (system.transmitReset owner index serial).1.Invariant gone := by
  unfold System.transmitReset
  split
  · rename_i matched
    obtain ⟨rule,held,_⟩ := Option.map_eq_some_iff.mp matched
    refine @drop _ _ invariant _ [index] (List.nodup_singleton index) ?_ ?_ ?_
    · intro other found rule here
      rw [FoldTable.get_remove] at here
      split at here
      · contradiction
      · exact here
    · intro found absent other
      rw [FoldTable.get_remove,if_neg fun same => absent (by simp [same.2])]
    · intro found member
      obtain rfl : found = index := by simpa using member
      exact ⟨owner,rule,held⟩
  · exact invariant

theorem removeOwner (invariant : system.Invariant gone) (owner : String) :
    (system.removeOwner owner).Invariant gone := by
  refine @drop _ _ invariant _ _ (FoldTable.removeOwner_nodup system.rules owner) ?_ ?_ ?_
  · intro other found rule here
    rw [FoldTable.get_removeOwner] at here
    split at here
    · contradiction
    · exact here
  · intro found absent other
    rw [FoldTable.get_removeOwner]
    split
    · rename_i same
      rw [FoldTable.mem_removeOwner] at absent
      push Not at absent
      exact (Option.eq_none_iff_forall_ne_some.mpr (same ▸ absent)).symm
    · rfl
  · intro found member
    exact ⟨owner,(FoldTable.mem_removeOwner system.rules owner found).mp member⟩

/-- The rules after a set that was taken: the caller's new one, and the others' for this serial. -/
theorem get_evict_insert (rules : FoldTable Int TransmitRule) (owner other : String) (index found serial : Int)
    (mask : BitVec 64) :
    ((rules.evictAt index fun rule => rule.serial ≠ serial).insert owner index ⟨serial,mask⟩).get other found =
      if found = index then
        if other = owner then some ⟨serial,mask⟩ else (rules.get other index).filter fun rule => rule.serial = serial
      else rules.get other found := by
  rw [FoldTable.get_insert,FoldTable.get_evictAt]
  by_cases same : found = index
  · by_cases caller : other = owner
    · simp [same,caller]
    · simp [same,caller]
  · simp [same]

theorem get_evict_insert_at {rules : FoldTable Int TransmitRule} {owner other : String} {index serial : Int}
    {mask : BitVec 64} {rule : TransmitRule} :
    ((rules.evictAt index fun rule => rule.serial ≠ serial).insert owner index ⟨serial,mask⟩).get other index = some rule ↔
      other = owner ∧ rule = ⟨serial,mask⟩ ∨
        other ≠ owner ∧ rules.get other index = some rule ∧ rule.serial = serial := by
  rw [get_evict_insert,if_pos rfl]
  by_cases caller : other = owner
  · simp [caller,eq_comm]
  · simp [caller,Option.filter_eq_some_iff]

/-- The candidate that is pushed is what the rules merge to once it is kept. -/
theorem foldExcept_merges (rules : FoldTable Int TransmitRule) (owner : String) (index serial : Int) (mask : BitVec 64) :
    Merges ((rules.evictAt index fun rule => rule.serial ≠ serial).insert owner index ⟨serial,mask⟩) index
      ⟨serial,(rules.foldExcept owner index (⟨serial,mask⟩ : TransmitRule) fun rule => rule.serial = serial).mask⟩ where
  held := ⟨owner,_,get_evict_insert_at.mpr (.inl ⟨rfl,rfl⟩)⟩
  serial := by
    intro other rule here
    rcases get_evict_insert_at.mp here with ⟨_,rfl⟩ | ⟨_,_,same⟩
    · rfl
    · exact same
  mask := by
    intro slot
    refine (@FoldTable.foldExcept_all_iff _ _ _ _ (fun rule : TransmitRule => rule.mask.getLsbD slot = true)
      (mask_andFold slot) rules owner index _ _).trans ?_
    simp only [get_evict_insert_at,decide_eq_true_eq]
    constructor
    · rintro ⟨mine,others⟩ other rule (⟨_,rfl⟩ | ⟨different,here,same⟩)
      · exact mine
      · exact others other rule different here same
    · intro all
      refine ⟨all owner _ (.inl ⟨rfl,rfl⟩),fun other rule different here same => ?_⟩
      exact all other rule (.inr ⟨different,here,same⟩)

theorem transmitSet (invariant : system.Invariant gone) (owner : String) (index serial : Int) (viewers : List Int) :
    (system.transmitSet owner index serial viewers).1.Invariant gone := by
  unfold System.transmitSet
  cases viewerMask viewers with
  | none => exact invariant
  | some mask =>
    dsimp only
    split
    · exact invariant
    · rename_i running
      have running : system.engineOps = true := by simpa using running
      split
      · rename_i refused
        rw [Shim.transmitSet_refused (by simpa using refused)]
        exact invariant
      · rename_i pushed
        have takes := Shim.takes_of_transmitSet (by simpa using pushed)
        rw [Shim.transmitSet_taken takes]
        have live : system.Known gone index serial := ⟨takes.index_nonneg,takes.index_lt,.inl takes.resolved⟩
        have merges := foldExcept_merges system.rules owner index serial mask
        refine ⟨?_,?_,?_,?_,?_⟩
        · intro found first second rule other here there
          by_cases same : found = index
          · subst same
            exact (merges.serial _ _ there).trans (merges.serial _ _ here).symm
          · rw [get_evict_insert,if_neg same] at here there
            exact invariant.oneSerial found first second rule other here there
        · intro other found rule here
          by_cases same : found = index
          · subst same
            have serial := merges.serial _ _ here
            exact ⟨running,takes.installed,serial ▸ takes.serial_nonneg⟩
          · rw [get_evict_insert,if_neg same] at here
            exact invariant.taken other found rule here
        · intro other found rule here
          by_cases same : found = index
          · subst same
            have serial := merges.serial _ _ here
            exact serial ▸ live
          · rw [get_evict_insert,if_neg same] at here
            exact invariant.known other found rule here
        · intro found entry here
          rcases Table.lookup_insert_cases here with ⟨rfl,rfl⟩ | ⟨_,here⟩
          · exact live
          · exact invariant.entries found entry here
        · intro usable found rule alive
          by_cases same : found = index
          · subst same
            refine ⟨fun here => ?_,fun there => ?_⟩
            · obtain rfl := Option.some.inj ((AList.lookup_insert _).symm.trans here)
              exact merges
            · rw [there.unique merges]
              exact AList.lookup_insert _
          · refine (iff_of_eq (congrArg (· = some rule) (AList.lookup_insert_ne same))).trans ?_
            refine (invariant.settled usable found rule alive).trans (Merges.congr fun other => ?_).symm
            rw [get_evict_insert,if_neg same]

/-- The entities of the engine change; a serial that once stood for one does not come back. -/
theorem world (invariant : system.Invariant gone) {resolves : Int → Int → Bool}
    (never : ∀ index serial, gone index serial → resolves index serial = false) :
    ({ system with resolves := resolves } : System).Invariant fun index serial => gone index serial ∨
      system.resolves index serial = true ∧ resolves index serial = false := by
  have known {index serial : Int} (before : system.Known gone index serial) :
      ({ system with resolves := resolves } : System).Known (fun index serial => gone index serial ∨
        system.resolves index serial = true ∧ resolves index serial = false) index serial := by
    obtain ⟨nonneg,lt,live | dead⟩ := before
    · cases still : resolves index serial with
      | true => exact ⟨nonneg,lt,.inl still⟩
      | false => exact ⟨nonneg,lt,.inr (.inr ⟨live,still⟩)⟩
    · exact ⟨nonneg,lt,.inr (.inl dead)⟩
  have lived {index serial : Int} (before : system.Known gone index serial) (live : resolves index serial = true) :
      system.resolves index serial = true := by
    rcases before.2.2 with alive | dead
    · exact alive
    · rw [never index serial dead] at live
      contradiction
  refine ⟨invariant.oneSerial,invariant.taken,fun owner index rule here => known (invariant.known owner index rule here),
    fun index entry here => known (invariant.entries index entry here),fun usable index rule live => ?_⟩
  constructor
  · intro here
    exact (invariant.settled usable index rule (lived (invariant.entries index rule here) live)).mp here
  · intro merges
    obtain ⟨owner,found,held⟩ := merges.held
    have before := merges.serial owner found held ▸ invariant.known owner index found held
    exact (invariant.settled usable index rule (lived before live)).mpr merges

end Invariant

end System

end S2Script.EntityVisibility
