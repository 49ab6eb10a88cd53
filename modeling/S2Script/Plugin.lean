import S2Script.Liveness

/-! The plugin registry with its ledgers. A ledger keeps one acquisition in two places,
the sequence map that teardown walks and a stack per resource that release pops. -/
namespace S2Script.Plugin

open Liveness

/-- A ledgered resource that must be torn down when a plugin unloads. -/
inductive Resource where
  | hook (id : Nat)
  | functionBinding (id : Nat)
  | functionSubscription (id : Nat)
  | functionAdapter (id : Nat)
  | timer (id : Nat)
  | job (id : Nat)
  | interface (name : String)
  | eventSub (id : Nat)
  | interfaceWatch (id : Nat)
  | interfaceAttachment (id : Nat)
  | import (name : String)
  | dbConn (handle : Nat)
  | wsConn (id : Nat)
  | netConn (id : Nat)
  | remoteDbConn (handle : Nat)
deriving DecidableEq, Repr

/-- `active` is an ordered map, its pairs ascending by sequence. -/
structure PluginLedger where
  nextSequence : Nat
  active : List (Nat × Resource)
  byResource : Resource → Option (List Nat)

namespace PluginLedger

def new : PluginLedger := ⟨0,[],fun _ => none⟩

/-- Insertion into the ordered map; an equal key is overwritten. -/
def insertActive (sequence : Nat) (resource : Resource) :
    List (Nat × Resource) → List (Nat × Resource)
  | [] => [(sequence,resource)]
  | entry :: rest =>
    if sequence < entry.1 then (sequence,resource) :: entry :: rest
    else if sequence = entry.1 then (sequence,resource) :: rest
    else entry :: insertActive sequence resource rest

def record (ledger : PluginLedger) (resource : Resource) : PluginLedger where
  nextSequence := ledger.nextSequence + 1
  active := insertActive ledger.nextSequence resource ledger.active
  byResource := Function.update ledger.byResource resource
    (some ((ledger.byResource resource).getD [] ++ [ledger.nextSequence]))

/-- The stack's top goes, the stack with it when it was the last one, and the map's entry. -/
def release (ledger : PluginLedger) (resource : Resource) : PluginLedger × Bool :=
  match ledger.byResource resource with
  | none => (ledger,false)
  | some sequences =>
    match sequences.getLast? with
    | none => (ledger,false)
    | some sequence =>
      let rest := sequences.dropLast
      ({ ledger with
          active := ledger.active.filter (fun entry => entry.1 ≠ sequence)
          byResource := Function.update ledger.byResource resource
            (if rest.isEmpty then none else some rest) },
        ledger.active.any (fun entry => entry.1 = sequence))

def len (ledger : PluginLedger) : Nat := ledger.active.length

/-- Last acquired, first torn down. -/
def teardownOrder (ledger : PluginLedger) : List Resource :=
  (ledger.active.map Prod.snd).reverse

end PluginLedger

/-- What a ledger is for: the acquisitions still held, oldest first. -/
def releaseRecent (resource : Resource) (held : List Resource) : List Resource :=
  (held.reverse.erase resource).reverse

/-- The sequences at which `resource` is held. -/
def sequencesOf (resource : Resource) (active : List (Nat × Resource)) : List Nat :=
  (active.filter (fun entry => entry.2 = resource)).map Prod.fst

namespace PluginLedger

/-- Both indexes list the same acquisitions, in the order they were made. -/
structure Exact (ledger : PluginLedger) (held : List Resource) : Prop where
  holds : ledger.active.map Prod.snd = held
  ascending : (ledger.active.map Prod.fst).Pairwise (· < ·)
  bounded : ∀ entry ∈ ledger.active, entry.1 < ledger.nextSequence
  indexed : ∀ resource, ledger.byResource resource =
    if resource ∈ held then some (sequencesOf resource ledger.active) else none

theorem Exact.new : new.Exact [] := ⟨rfl,.nil,by simp [PluginLedger.new],fun _ => rfl⟩

theorem insertActive_fresh {sequence : Nat} (resource : Resource) {active : List (Nat × Resource)}
    (fresh : ∀ entry ∈ active, entry.1 < sequence) :
    insertActive sequence resource active = active ++ [(sequence,resource)] := by
  induction active with
  | nil => rfl
  | cons entry rest previous =>
    have older := fresh entry List.mem_cons_self
    have above : ¬sequence < entry.1 := by omega
    have apart : sequence ≠ entry.1 := by omega
    simp [insertActive,above,apart,previous fun later member => fresh later (.tail _ member)]

theorem sequencesOf_eq_nil {resource : Resource} {active : List (Nat × Resource)}
    (absent : resource ∉ active.map Prod.snd) : sequencesOf resource active = [] := by
  simp only [sequencesOf,List.map_eq_nil_iff,List.filter_eq_nil_iff,decide_eq_true_eq]
  rintro entry member rfl
  exact absent (List.mem_map_of_mem member)

theorem Exact.record {ledger : PluginLedger} {held : List Resource} (exact : ledger.Exact held)
    (resource : Resource) : (ledger.record resource).Exact (held ++ [resource]) := by
  have appended : (ledger.record resource).active =
      ledger.active ++ [(ledger.nextSequence,resource)] :=
    insertActive_fresh resource exact.bounded
  refine ⟨?_,?_,?_,?_⟩
  · simp [appended,exact.holds]
  · simp only [appended,List.map_append,List.map_cons,List.map_nil,List.pairwise_append]
    refine ⟨exact.ascending,.cons (by simp) .nil,?_⟩
    intro old member sequence last
    obtain ⟨entry,inside,rfl⟩ := List.mem_map.mp member
    obtain rfl := List.mem_singleton.mp last
    exact exact.bounded entry inside
  · intro entry member
    simp only [appended,List.mem_append,List.mem_singleton] at member
    simp only [PluginLedger.record]
    rcases member with old | rfl
    · have := exact.bounded entry old
      omega
    · simp
  · intro other
    simp only [appended]
    by_cases same : other = resource
    · subst same
      by_cases known : other ∈ held
      · simp [PluginLedger.record,exact.indexed other,known,sequencesOf]
      · have empty := sequencesOf_eq_nil (exact.holds ▸ known)
        simp only [sequencesOf] at empty
        simp [PluginLedger.record,exact.indexed other,known,sequencesOf,empty]
    · have apart : resource ≠ other := fun equal => same equal.symm
      simp [PluginLedger.record,same,exact.indexed other,sequencesOf,apart]

/-- The most recent acquisition of a held resource. -/
theorem split_recent {resource : Resource} {active : List (Nat × Resource)}
    (held : resource ∈ active.map Prod.snd) :
    ∃ older sequence newer, active = older ++ (sequence,resource) :: newer ∧
      resource ∉ newer.map Prod.snd := by
  induction active with
  | nil => simp at held
  | cons entry rest previous =>
    by_cases again : resource ∈ rest.map Prod.snd
    · obtain ⟨older,sequence,newer,rfl,last⟩ := previous again
      exact ⟨entry :: older,sequence,newer,rfl,last⟩
    · have own : entry.2 = resource := by
        rcases List.mem_cons.mp held with own | later
        · exact own.symm
        · exact (again later).elim
      exact ⟨[],entry.1,rest,by simp [← own],again⟩

theorem releaseRecent_split {resource : Resource} (older newer : List Resource)
    (last : resource ∉ newer) :
    releaseRecent resource (older ++ resource :: newer) = older ++ newer := by
  have unseen : resource ∉ newer.reverse := by simpa using last
  simp [releaseRecent,List.erase_append_right _ unseen]

theorem releaseRecent_absent {resource : Resource} {held : List Resource}
    (absent : resource ∉ held) : releaseRecent resource held = held := by
  simp [releaseRecent,List.erase_of_not_mem,absent]

/-- Sequences are distinct, so filtering one out removes one acquisition. -/
theorem filter_split {older newer : List (Nat × Resource)} {sequence : Nat} {resource : Resource}
    (ascending : ((older ++ (sequence,resource) :: newer).map Prod.fst).Pairwise (· < ·)) :
    (older ++ (sequence,resource) :: newer).filter (fun entry => entry.1 ≠ sequence) =
      older ++ newer := by
  simp only [List.map_append,List.map_cons,List.pairwise_append,List.pairwise_cons] at ascending
  obtain ⟨_,⟨above,_⟩,below⟩ := ascending
  have before : older.filter (fun entry => entry.1 ≠ sequence) = older := by
    apply List.filter_eq_self.mpr
    intro entry member
    have := below entry.1 (List.mem_map_of_mem member) sequence List.mem_cons_self
    simp only [ne_eq,decide_eq_true_eq]
    omega
  have after : newer.filter (fun entry => entry.1 ≠ sequence) = newer := by
    apply List.filter_eq_self.mpr
    intro entry member
    have := above entry.1 (List.mem_map_of_mem member)
    simp only [ne_eq,decide_eq_true_eq]
    omega
  rw [List.filter_append,before,List.filter_cons_of_neg (by simp),after]

theorem sequencesOf_split {older newer : List (Nat × Resource)} {sequence : Nat}
    {resource : Resource} (last : resource ∉ newer.map Prod.snd) :
    sequencesOf resource (older ++ (sequence,resource) :: newer) =
      sequencesOf resource older ++ [sequence] := by
  have none := sequencesOf_eq_nil last
  simp only [sequencesOf] at none
  simp [sequencesOf,none]

theorem sequencesOf_other {older newer : List (Nat × Resource)} {sequence : Nat}
    {resource other : Resource} (apart : resource ≠ other) :
    sequencesOf other (older ++ (sequence,resource) :: newer) =
      sequencesOf other (older ++ newer) := by
  simp [sequencesOf,apart]

theorem sequencesOf_isEmpty (resource : Resource) (active : List (Nat × Resource)) :
    (sequencesOf resource active).isEmpty = true ↔ resource ∉ active.map Prod.snd := by
  constructor
  · intro empty member
    obtain ⟨entry,inside,rfl⟩ := List.mem_map.mp member
    simp only [sequencesOf,List.isEmpty_iff,List.map_eq_nil_iff,List.filter_eq_nil_iff,
      decide_eq_true_eq] at empty
    exact empty entry inside rfl
  · intro absent
    simp [sequencesOf_eq_nil absent]

theorem Exact.release_absent {ledger : PluginLedger} {held : List Resource}
    (exact : ledger.Exact held) {resource : Resource} (absent : resource ∉ held) :
    ledger.release resource = (ledger,false) := by
  simp [PluginLedger.release,exact.indexed resource,absent]

theorem Exact.release {ledger : PluginLedger} {held : List Resource} (exact : ledger.Exact held)
    (resource : Resource) :
    (ledger.release resource).1.Exact (releaseRecent resource held) ∧
      (ledger.release resource).2 = decide (resource ∈ held) := by
  by_cases known : resource ∈ held
  · obtain ⟨older,sequence,newer,split,last⟩ := split_recent (exact.holds ▸ known)
    have ascending := split ▸ exact.ascending
    have stack : ledger.byResource resource =
        some (sequencesOf resource older ++ [sequence]) := by
      simp [exact.indexed resource,known,split,sequencesOf_split last]
    have active : (ledger.release resource).1.active = older ++ newer := by
      simp only [PluginLedger.release,stack,List.getLast?_append,List.getLast?_singleton,
        Option.some_or]
      rw [split]
      exact filter_split ascending
    have remaining : releaseRecent resource held = (older ++ newer).map Prod.snd := by
      rw [← exact.holds,split,List.map_append,List.map_cons,List.map_append]
      exact releaseRecent_split _ _ last
    have sublist : (older ++ newer).Sublist ledger.active := by
      simp [split]
    refine ⟨⟨?_,?_,?_,?_⟩,?_⟩
    · rw [active,remaining]
    · rw [active]
      exact exact.ascending.sublist (sublist.map _)
    · intro entry member
      have bound := exact.bounded entry (sublist.subset (active ▸ member))
      simpa [PluginLedger.release,stack] using bound
    · intro other
      rw [active,remaining]
      by_cases same : other = resource
      · subst same
        have emptied := sequencesOf_isEmpty other older
        have newest : sequencesOf other (older ++ newer) = sequencesOf other older := by
          have none := sequencesOf_eq_nil last
          simp only [sequencesOf] at none
          simp [sequencesOf,none]
        by_cases more : other ∈ older.map Prod.snd
        · have filled : (sequencesOf other older).isEmpty = false := by
            simpa using fun empty => emptied.mp empty more
          have present : other ∈ (older ++ newer).map Prod.snd := by
            rw [List.map_append]
            exact List.mem_append_left _ more
          rw [if_pos present]
          simp [PluginLedger.release,stack,filled,newest]
        · have gone : other ∉ (older ++ newer).map Prod.snd := by
            rw [List.map_append,List.mem_append]
            exact fun either => either.elim more last
          rw [if_neg gone]
          simp [PluginLedger.release,stack,emptied.mpr more]
      · have apart : resource ≠ other := fun equal => same equal.symm
        have kept : other ∈ held ↔ other ∈ (older ++ newer).map Prod.snd := by
          rw [← exact.holds,split]
          simp [same]
        have rest := exact.indexed other
        rw [split,sequencesOf_other apart] at rest
        simp only [kept] at rest
        simpa [PluginLedger.release,stack,same] using rest
    · have found : ledger.active.any (fun entry => entry.1 = sequence) = true := by
        simp [split]
      simp [PluginLedger.release,stack,known,found]
  · rw [exact.release_absent known,releaseRecent_absent known]
    exact ⟨exact,by simp [known]⟩

theorem Exact.teardownOrder {ledger : PluginLedger} {held : List Resource}
    (exact : ledger.Exact held) : ledger.teardownOrder = held.reverse := by
  rw [PluginLedger.teardownOrder,exact.holds]

end PluginLedger

/-- The registry of `Liveness`, each entry with its plugin's ledger. -/
structure Registry where
  table : LiveTable String PluginLedger
  slots : List (String × Nat)
  slotIndex : String → Option Nat

namespace Registry

def new : Registry := ⟨LiveTable.new 1,[],fun _ => none⟩

/-- Inserting an id that is there is a reload: a fresh generation and an empty ledger. -/
def insert (registry : Registry) (id : String) : Registry × Nat :=
  let (table,generation) := registry.table.insert id .new
  let (slots,slotIndex,slot) := match registry.slotIndex id with
    | some slot => (registry.slots,registry.slotIndex,slot)
    | none =>
      let slot := registry.slots.length
      (registry.slots ++ [(id,0)],Function.update registry.slotIndex id (some slot),slot)
  (⟨table,slots.modify slot (fun entry => (entry.1,generation)),slotIndex⟩,generation)

/-- Answers the entry, whose ledger the caller walks for teardown. -/
def remove (registry : Registry) (id : String) : Registry × Option (Nat × PluginLedger) :=
  let slots := match registry.slotIndex id with
    | some slot => registry.slots.modify slot (fun entry => (entry.1,0))
    | none => registry.slots
  ({ registry with slots, table := registry.table.remove id },registry.table.entries id)

def isLive (registry : Registry) (id : String) (generation : Nat) : Bool :=
  registry.table.isLive id generation

/-- `ledger_mut` followed by a write through it. -/
def setLedger (registry : Registry) (id : String) (generation : Nat) (ledger : PluginLedger) :
    Registry :=
  { registry with
    table := { registry.table with
      entries := Function.update registry.table.entries id (some (generation,ledger)) } }

/-- Recorded only against the exact live generation that acquired the resource. -/
def record (registry : Registry) (id : String) (generation : Nat) (resource : Resource) :
    Registry × Bool :=
  match registry.table.entries id with
  | none => (registry,false)
  | some (live,ledger) =>
    if live ≠ generation then (registry,false)
    else (registry.setLedger id live (ledger.record resource),true)

def release (registry : Registry) (id : String) (generation : Nat) (resource : Resource) :
    Registry × Bool :=
  match registry.table.entries id with
  | none => (registry,false)
  | some (live,ledger) =>
    if live = generation then
      (registry.setLedger id live (ledger.release resource).1,(ledger.release resource).2)
    else (registry,false)

def activeResourceCount (registry : Registry) (id : String) (generation : Nat) : Option Nat :=
  match registry.table.entries id with
  | some (live,ledger) => if live = generation then some ledger.len else none
  | none => none

def slotOf (registry : Registry) (id : String) : Option Nat := registry.slotIndex id

def slotId (registry : Registry) (slot : Nat) : Option String :=
  (registry.slots[slot]?).map Prod.fst

def liveAt (registry : Registry) (slot generation : Nat) : Option String :=
  match registry.slots[slot]? with
  | none => none
  | some (id,live) => if generation ≠ 0 ∧ live = generation then some id else none

def generationOf (registry : Registry) (id : String) : Option Nat := registry.table.idOf id

/-- The same registry without its ledgers. -/
def forget (registry : Registry) : Liveness.Registry where
  table := ⟨fun id => (registry.table.entries id).map (fun entry => (entry.1,())),
    registry.table.nextId⟩
  slots := registry.slots
  slotIndex := registry.slotIndex

@[simp] theorem forget_idOf (registry : Registry) (id : String) :
    registry.forget.table.idOf id = registry.table.idOf id := by
  simp [forget,LiveTable.idOf,Function.comp_def]

theorem forget_insert (registry : Registry) (id : String) :
    (registry.insert id).1.forget = (registry.forget.insert id).1 := by
  have entries : (fun key => (Function.update registry.table.entries id
        (some (registry.table.nextId,PluginLedger.new)) key).map (fun entry => (entry.1,()))) =
      Function.update (fun key => (registry.table.entries key).map (fun entry => (entry.1,())))
        id (some (registry.table.nextId,())) := by
    funext key
    by_cases same : key = id <;> simp [same]
  cases found : registry.slotIndex id <;>
    simp [forget,insert,Liveness.Registry.insert,LiveTable.insert,found,entries]

theorem forget_remove (registry : Registry) (id : String) :
    (registry.remove id).1.forget = registry.forget.remove id := by
  have entries : (fun key => (Function.update registry.table.entries id none key).map
        (fun entry => (entry.1,()))) =
      Function.update (fun key => (registry.table.entries key).map (fun entry => (entry.1,())))
        id none := by
    funext key
    by_cases same : key = id <;> simp [same]
  cases found : registry.slotIndex id <;>
    simp [forget,remove,Liveness.Registry.remove,LiveTable.remove,found,entries]

/-- Writing through a ledger moves no generation and no slot. -/
theorem forget_setLedger {registry : Registry} {id : String} {live : Nat} {old : PluginLedger}
    (entry : registry.table.entries id = some (live,old)) (ledger : PluginLedger) :
    (registry.setLedger id live ledger).forget = registry.forget := by
  have entries : (fun key => (Function.update registry.table.entries id
        (some (live,ledger)) key).map (fun entry => (entry.1,()))) =
      fun key => (registry.table.entries key).map (fun entry => (entry.1,())) := by
    funext key
    by_cases same : key = id <;> simp [same,entry]
  simp [forget,setLedger,entries]

end Registry

inductive Op where
  | insert (id : String)
  | remove (id : String)
  | record (id : String) (generation : Nat) (resource : Resource)
  | release (id : String) (generation : Nat) (resource : Resource)

def advance (registry : Registry) : Op → Registry
  | .insert id => (registry.insert id).1
  | .remove id => (registry.remove id).1
  | .record id generation resource => (registry.record id generation resource).1
  | .release id generation resource => (registry.release id generation resource).1

def execute (ops : List Op) (registry : Registry) : Registry := ops.foldl advance registry

/-- The registry's purpose: per live plugin, the acquisitions it still holds. -/
abbrev Acquisitions := LiveTable String (List Resource)

namespace Acquisitions

def new : Acquisitions := LiveTable.new 1

def amend (acquired : Acquisitions) (id : String) (generation : Nat)
    (change : List Resource → List Resource) : Acquisitions :=
  match acquired.entries id with
  | some (live,held) =>
    if live = generation then
      { acquired with entries := Function.update acquired.entries id (some (live,change held)) }
    else acquired
  | none => acquired

def advance (acquired : Acquisitions) : Op → Acquisitions
  | .insert id => (acquired.insert id []).1
  | .remove id => LiveTable.remove acquired id
  | .record id generation resource => acquired.amend id generation (· ++ [resource])
  | .release id generation resource => acquired.amend id generation (releaseRecent resource)

def execute (acquired : Acquisitions) (ops : List Op) : Acquisitions := ops.foldl advance acquired

end Acquisitions

/-- An entry and what its plugin holds. -/
def Keeps (entry : Nat × PluginLedger) (acquired : Nat × List Resource) : Prop :=
  entry.1 = acquired.1 ∧ entry.2.Exact acquired.2

/-- The registry against its purpose. -/
structure Refines (registry : Registry) (acquired : Acquisitions) : Prop where
  coherent : registry.forget.Coherent
  minted : registry.table.Minted
  distinct : registry.table.Distinct
  nextId : registry.table.nextId = acquired.nextId
  ledgers : ∀ id, Option.Rel Keeps (registry.table.entries id) (acquired.entries id)

theorem new_refines : Refines .new .new where
  coherent := Liveness.Registry.new_coherent
  minted := .new
  distinct := LiveTable.Distinct.new 1
  nextId := rfl
  ledgers := fun _ => .none

namespace Registry

theorem insert_table (registry : Registry) (id : String) :
    (registry.insert id).1.table = (registry.table.insert id .new).1 := rfl

theorem remove_table (registry : Registry) (id : String) :
    (registry.remove id).1.table = registry.table.remove id := rfl

theorem setLedger_idOf {registry : Registry} {id : String} {live : Nat} {old : PluginLedger}
    (entry : registry.table.entries id = some (live,old)) (ledger : PluginLedger) (key : String) :
    (registry.setLedger id live ledger).table.idOf key = registry.table.idOf key := by
  by_cases same : key = id <;> simp [setLedger,LiveTable.idOf,same,entry]

/-- What an operation other than inserting and removing can do: write one live ledger. -/
theorem record_cases (registry : Registry) (id : String) (generation : Nat) (resource : Resource) :
    (∃ ledger, registry.table.entries id = some (generation,ledger) ∧
      registry.record id generation resource =
        (registry.setLedger id generation (ledger.record resource),true)) ∨
    registry.table.idOf id ≠ some generation ∧
      registry.record id generation resource = (registry,false) := by
  cases entry : registry.table.entries id with
  | none => exact .inr ⟨by simp [LiveTable.idOf,entry],by simp [record,entry]⟩
  | some held =>
    obtain ⟨live,ledger⟩ := held
    by_cases same : live = generation
    · subst same
      exact .inl ⟨ledger,rfl,by simp [record,entry]⟩
    · exact .inr ⟨by simp [LiveTable.idOf,entry,same],by simp [record,entry,same]⟩

theorem release_cases (registry : Registry) (id : String) (generation : Nat)
    (resource : Resource) :
    (∃ ledger, registry.table.entries id = some (generation,ledger) ∧
      registry.release id generation resource =
        (registry.setLedger id generation (ledger.release resource).1,
          (ledger.release resource).2)) ∨
    registry.table.idOf id ≠ some generation ∧
      registry.release id generation resource = (registry,false) := by
  cases entry : registry.table.entries id with
  | none => exact .inr ⟨by simp [LiveTable.idOf,entry],by simp [release,entry]⟩
  | some held =>
    obtain ⟨live,ledger⟩ := held
    by_cases same : live = generation
    · subst same
      exact .inl ⟨ledger,rfl,by simp [release,entry]⟩
    · exact .inr ⟨by simp [LiveTable.idOf,entry,same],by simp [release,entry,same]⟩

end Registry

theorem advance_changes (registry : Registry) (op : Op) :
    registry.table.Changes (advance registry op).table := by
  have written {id : String} {live : Nat} {old : PluginLedger}
      (entry : registry.table.entries id = some (live,old)) (ledger : PluginLedger) :
      registry.table.Changes (registry.setLedger id live ledger).table :=
    .single (.keeps rfl fun key => .inr (Registry.setLedger_idOf entry ledger key))
  cases op with
  | insert id => exact .single (.mints id PluginLedger.new)
  | remove id =>
    apply Relation.ReflTransGen.single
    apply LiveTable.Change.keeps
    · rfl
    · intro key
      by_cases same : key = id <;> simp [advance,Registry.remove_table,LiveTable.idOf_remove,same]
  | record id generation resource =>
    rcases registry.record_cases id generation resource with ⟨ledger,entry,done⟩ | ⟨_,done⟩
    · simpa [advance,done] using written entry (ledger.record resource)
    · simp only [advance,done]
      exact .refl
  | release id generation resource =>
    rcases registry.release_cases id generation resource with ⟨ledger,entry,done⟩ | ⟨_,done⟩
    · simpa [advance,done] using written entry (ledger.release resource).1
    · simp only [advance,done]
      exact .refl

theorem advance_coherent {registry : Registry} (coherent : registry.forget.Coherent) (op : Op) :
    (advance registry op).forget.Coherent := by
  cases op with
  | insert id =>
    rw [advance,Registry.forget_insert]
    exact coherent.insert id
  | remove id =>
    rw [advance,Registry.forget_remove]
    exact coherent.remove id
  | record id generation resource =>
    rcases registry.record_cases id generation resource with ⟨ledger,entry,done⟩ | ⟨_,done⟩
    · simpa [advance,done,Registry.forget_setLedger entry] using coherent
    · simpa [advance,done] using coherent
  | release id generation resource =>
    rcases registry.release_cases id generation resource with ⟨ledger,entry,done⟩ | ⟨_,done⟩
    · simpa [advance,done,Registry.forget_setLedger entry] using coherent
    · simpa [advance,done] using coherent

theorem Refines.entry {registry : Registry} {acquired : Acquisitions}
    (refines : Refines registry acquired) {id : String} {generation : Nat} {ledger : PluginLedger}
    (entry : registry.table.entries id = some (generation,ledger)) :
    ∃ held, acquired.entries id = some (generation,held) ∧ ledger.Exact held := by
  have related := refines.ledgers id
  rw [entry] at related
  cases spec : acquired.entries id with
  | none => simp [spec] at related
  | some kept =>
    rw [spec] at related
    cases related with
    | some keeps =>
      obtain ⟨live,held⟩ := kept
      obtain ⟨rfl,exact⟩ := keeps
      exact ⟨held,rfl,exact⟩

/-- A generation that is not live here is not live in the specification. -/
theorem Refines.amend_stale {registry : Registry} {acquired : Acquisitions}
    (refines : Refines registry acquired) {id : String} {generation : Nat}
    (stale : registry.table.idOf id ≠ some generation) (change : List Resource → List Resource) :
    acquired.amend id generation change = acquired := by
  have related := refines.ledgers id
  cases spec : acquired.entries id with
  | none => simp [Acquisitions.amend,spec]
  | some kept =>
    have other : kept.1 ≠ generation := by
      rintro rfl
      cases entry : registry.table.entries id with
      | none => simp [entry,spec] at related
      | some held =>
        rw [entry,spec] at related
        cases related with
        | some keeps => exact stale (by simp [LiveTable.idOf,entry,keeps.1])
    simp [Acquisitions.amend,spec,other]

/-- Writing one live ledger matches amending one acquisition list. -/
theorem Refines.ledgers_amend {registry : Registry} {acquired : Acquisitions}
    (refines : Refines registry acquired) {id : String} {generation : Nat} {held : List Resource}
    (spec : acquired.entries id = some (generation,held)) {ledger : PluginLedger}
    {change : List Resource → List Resource} (exact : ledger.Exact (change held)) (key : String) :
    Option.Rel Keeps ((registry.setLedger id generation ledger).table.entries key)
      ((acquired.amend id generation change).entries key) := by
  by_cases same : key = id
  · subst same
    simpa [Registry.setLedger,Acquisitions.amend,spec] using Option.Rel.some ⟨rfl,exact⟩
  · simpa [Registry.setLedger,Acquisitions.amend,spec,same] using refines.ledgers key

theorem amend_nextId (acquired : Acquisitions) (id : String) (generation : Nat)
    (change : List Resource → List Resource) :
    (acquired.amend id generation change).nextId = acquired.nextId := by
  unfold Acquisitions.amend
  split
  · split <;> rfl
  · rfl

theorem advance_ledgers {registry : Registry} {acquired : Acquisitions}
    (refines : Refines registry acquired) (op : Op) (key : String) :
    Option.Rel Keeps ((advance registry op).table.entries key)
      ((acquired.advance op).entries key) := by
  cases op with
  | insert id =>
    by_cases same : key = id
    · simpa [advance,Acquisitions.advance,Registry.insert_table,LiveTable.insert,same,
        refines.nextId] using Option.Rel.some ⟨rfl,PluginLedger.Exact.new⟩
    · simpa [advance,Acquisitions.advance,Registry.insert_table,LiveTable.insert,same]
        using refines.ledgers key
  | remove id =>
    by_cases same : key = id
    · simp [advance,Acquisitions.advance,Registry.remove_table,LiveTable.remove,same]
    · simpa [advance,Acquisitions.advance,Registry.remove_table,LiveTable.remove,same]
        using refines.ledgers key
  | record id generation resource =>
    rcases registry.record_cases id generation resource with ⟨ledger,entry,done⟩ | ⟨stale,done⟩
    · obtain ⟨held,spec,exact⟩ := refines.entry entry
      simpa [advance,Acquisitions.advance,done] using
        refines.ledgers_amend spec (exact.record resource) key
    · simpa [advance,Acquisitions.advance,done,refines.amend_stale stale]
        using refines.ledgers key
  | release id generation resource =>
    rcases registry.release_cases id generation resource with ⟨ledger,entry,done⟩ | ⟨stale,done⟩
    · obtain ⟨held,spec,exact⟩ := refines.entry entry
      simpa [advance,Acquisitions.advance,done] using
        refines.ledgers_amend spec (exact.release resource).1 key
    · simpa [advance,Acquisitions.advance,done,refines.amend_stale stale]
        using refines.ledgers key

theorem advance_nextId {registry : Registry} {acquired : Acquisitions}
    (nextId : registry.table.nextId = acquired.nextId) (op : Op) :
    (advance registry op).table.nextId = (acquired.advance op).nextId := by
  cases op with
  | insert id => simp [advance,Acquisitions.advance,Registry.insert_table,LiveTable.insert,nextId]
  | remove id => simpa [advance,Acquisitions.advance,Registry.remove_table,LiveTable.remove]
  | record id generation resource =>
    rcases registry.record_cases id generation resource with ⟨ledger,entry,done⟩ | ⟨_,done⟩ <;>
      simpa [advance,Acquisitions.advance,done,amend_nextId,Registry.setLedger] using nextId
  | release id generation resource =>
    rcases registry.release_cases id generation resource with ⟨ledger,entry,done⟩ | ⟨_,done⟩ <;>
      simpa [advance,Acquisitions.advance,done,amend_nextId,Registry.setLedger] using nextId

theorem advance_refines {registry : Registry} {acquired : Acquisitions}
    (refines : Refines registry acquired) (op : Op) :
    Refines (advance registry op) (acquired.advance op) where
  coherent := advance_coherent refines.coherent op
  minted := refines.minted.evolves (LiveTable.Changes.evolves (advance_changes registry op))
  distinct := LiveTable.Changes.distinct (advance_changes registry op) refines.minted
    refines.distinct
  nextId := advance_nextId refines.nextId op
  ledgers := advance_ledgers refines op

theorem execute_refines (ops : List Op) {registry : Registry} {acquired : Acquisitions}
    (refines : Refines registry acquired) :
    Refines (execute ops registry) (acquired.execute ops) := by
  induction ops generalizing registry acquired with
  | nil => exact refines
  | cons op ops previous => exact previous (advance_refines refines op)

theorem execute_changes (ops : List Op) (registry : Registry) :
    registry.table.Changes (execute ops registry).table := by
  induction ops generalizing registry with
  | nil => exact .refl
  | cons op ops previous => exact (advance_changes registry op).trans (previous _)

theorem advance_slot {registry : Registry} {id : String} {slot : Nat}
    (found : registry.slotIndex id = some slot) (op : Op) :
    (advance registry op).slotIndex id = some slot := by
  cases op with
  | insert key =>
    cases known : registry.slotIndex key with
    | none =>
      have apart : id ≠ key := by
        rintro rfl
        simp [known] at found
      simpa [advance,Registry.insert,known,apart] using found
    | some own => simpa [advance,Registry.insert,known] using found
  | remove key => exact found
  | record key generation resource =>
    rcases registry.record_cases key generation resource with ⟨ledger,entry,done⟩ | ⟨_,done⟩ <;>
      simpa [advance,done,Registry.setLedger] using found
  | release key generation resource =>
    rcases registry.release_cases key generation resource with ⟨ledger,entry,done⟩ | ⟨_,done⟩ <;>
      simpa [advance,done,Registry.setLedger] using found

theorem execute_slot (ops : List Op) {registry : Registry} {id : String} {slot : Nat}
    (found : registry.slotIndex id = some slot) :
    (execute ops registry).slotIndex id = some slot := by
  induction ops generalizing registry with
  | nil => exact found
  | cons op ops previous => exact previous (advance_slot found op)

namespace Refines

variable {registry : Registry} {acquired : Acquisitions} (refines : Refines registry acquired)
include refines

/-- A slot answers with the id it was assigned to. -/
theorem liveAt_eq_some_iff {id : String} {slot : Nat} (found : registry.slotOf id = some slot)
    (generation : Nat) :
    registry.liveAt slot generation = some id ↔ registry.isLive id generation = true := by
  have asked := refines.coherent.liveAt_slot found generation
  have entry := refines.coherent.indexed found
  have same : registry.isLive id generation = registry.forget.isLive id generation := by
    simp [Registry.isLive,Liveness.Registry.isLive,LiveTable.isLive]
  rw [same,← asked]
  replace entry : registry.slots[slot]? = some (id,(registry.forget.table.idOf id).getD 0) := entry
  simp only [Registry.liveAt,Liveness.Registry.liveAt,Registry.forget,entry]
  split <;> simp

theorem generation_one_id {later : List Op} {id other : String} {generation : Nat}
    (held : registry.isLive id generation = true)
    (again : (execute later registry).isLive other generation = true) : id = other := by
  simp only [Registry.isLive,LiveTable.isLive,beq_iff_eq] at held again
  rcases (LiveTable.Changes.evolves (execute_changes later registry)).live again with old | fresh
  · exact refines.distinct held old
  · have := (refines.minted.minted held).2
    omega

omit refines in
theorem stale_changes_nothing {id : String} {generation : Nat}
    (stale : registry.isLive id generation = false) (resource : Resource) :
    registry.record id generation resource = (registry,false) ∧
      registry.release id generation resource = (registry,false) := by
  have dead : registry.table.idOf id ≠ some generation := by
    simpa [Registry.isLive,LiveTable.isLive] using stale
  have entry (ledger : PluginLedger) : registry.table.entries id ≠ some (generation,ledger) := by
    intro held
    exact dead (by simp [LiveTable.idOf,held])
  constructor
  · rcases registry.record_cases id generation resource with ⟨ledger,held,_⟩ | ⟨_,done⟩
    · exact (entry ledger held).elim
    · exact done
  · rcases registry.release_cases id generation resource with ⟨ledger,held,_⟩ | ⟨_,done⟩
    · exact (entry ledger held).elim
    · exact done

theorem ledger_exact {id : String} {generation : Nat} {ledger : PluginLedger}
    (entry : registry.table.entries id = some (generation,ledger)) :
    ∃ held, acquired.entries id = some (generation,held) ∧
      ledger.teardownOrder = held.reverse ∧
      ∀ resource, (registry.release id generation resource).2 = decide (resource ∈ held) := by
  obtain ⟨held,spec,exact⟩ := refines.entry entry
  refine ⟨held,spec,exact.teardownOrder,?_⟩
  intro resource
  simpa [Registry.release,entry] using (exact.release resource).2

end Refines

end S2Script.Plugin
