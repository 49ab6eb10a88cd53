import S2Script.Multiplexer

/-! The keyed subscription store over `Descriptor`. Channel liveness, the reverse
map of caller ids and the per-channel subscriptions are three redundant books;
`Holds` ties them to one list and every operation is followed on that list. -/
namespace S2Script

open Multiplexer

/-- `H` is the handler type. The generation is folded into the stored handler, and
`ids` maps a caller's id to its channel, its descriptor id and its owner. -/
structure Channels (H : Type) where
  byName : Std.HashMap String (Descriptor (Nat × H))
  ids : Std.HashMap Nat (String × Nat × String)
  version : Nat

namespace Channels

variable {H : Type}

def new : Host (Channels H) := do
  let version ← nextVersion
  pure ⟨∅,∅,version⟩

/-- `entry(name).or_insert_with(|| Descriptor::new(name))`. -/
def entry (byName : Std.HashMap String (Descriptor (Nat × H))) (name : String) :
    Host (Descriptor (Nat × H)) :=
  match byName[name]? with
  | some d => pure d
  | none => Descriptor.new name

def subscribe (c : Channels H) (name : String) (id : Nat) (owner : String) (generation : Nat)
    (handler : H) : Host (Channels H × Bool) := do
  let version ← nextVersion
  let desc ← entry c.byName name
  let first := decide (desc.enabledCount = 0)
  let (desc,subId,_) ← desc.subscribe .normal .pre owner (generation,handler)
  pure (⟨c.byName.insert name desc,c.ids.insert id (name,subId,owner),version⟩,first)

def snapshot (c : Channels H) (name : String) : List (String × Nat × H) :=
  match c.byName[name]? with
  | none => []
  | some d => (d.snapshot .pre).map (fun row => (row.2.2.1,row.2.2.2.1,row.2.2.2.2))

/-- The `iter_mut` loop of `remove_by_owner`, over the map's entries in its own order. -/
def removeOwnerFrom (owner : String) : List (String × Descriptor (Nat × H)) →
    Std.HashMap String (Descriptor (Nat × H)) → List String →
    Host (Std.HashMap String (Descriptor (Nat × H)) × List String)
  | [], byName, emptied => pure (byName,emptied)
  | (name,desc) :: rest, byName, emptied => do
    let before := desc.enabledCount
    let (desc,_) ← desc.removeByOwner owner
    removeOwnerFrom owner rest (byName.insert name desc)
      (if 0 < before ∧ desc.enabledCount = 0 then emptied ++ [name] else emptied)

def removeByOwner (c : Channels H) (owner : String) : Host (Channels H × List String) := do
  let version ← nextVersion
  let (byName,emptied) ← removeOwnerFrom owner c.byName.toList c.byName []
  let ids := c.ids.filter (fun _ row => row.2.2 != owner)
  pure (⟨emptied.foldl (fun m name => m.erase name) byName,ids,version⟩,emptied)

def removeIds : List Nat → Channels H → List String → Host (Channels H × List String)
  | [], c, emptied => pure (c,emptied)
  | id :: rest, c, emptied =>
    match c.ids[id]? with
    | none => removeIds rest c emptied
    | some (name,subId,_) =>
      let c := { c with ids := c.ids.erase id }
      match c.byName[name]? with
      | none => removeIds rest c emptied
      | some desc => do
        let before := desc.enabledCount
        let (desc,_) ← desc.unsubscribe subId
        if 0 < before ∧ desc.enabledCount = 0 then
          removeIds rest { c with byName := c.byName.erase name } (emptied ++ [name])
        else removeIds rest { c with byName := c.byName.insert name desc } emptied

def removeByIds (c : Channels H) (ids : List Nat) : Host (Channels H × List String) := do
  let version ← nextVersion
  removeIds ids { c with version } []

def removeByOwnerOn (c : Channels H) (name owner : String) : Host (Channels H × Bool) := do
  let version ← nextVersion
  match c.byName[name]? with
  | none => pure ({ c with version },false)
  | some desc =>
    let before := desc.enabledCount
    let (desc,_) ← desc.removeByOwner owner
    let nowEmpty := decide (0 < before ∧ desc.enabledCount = 0)
    let ids := c.ids.filter (fun _ row => row.1 != name || row.2.2 != owner)
    let byName := if nowEmpty then c.byName.erase name else c.byName.insert name desc
    pure (⟨byName,ids,version⟩,nowEmpty)

def removeByName (c : Channels H) (name : String) : Host (Channels H) := do
  let version ← nextVersion
  pure ⟨c.byName.erase name,c.ids.filter (fun _ row => row.1 != name),version⟩

/-- Re-subscribe a snapshot on `dest`, remembering which id each old id became. -/
def moveOnto : List (Nat × Priority × String × Nat × H) → Descriptor (Nat × H) →
    List (Nat × Nat) → Host (Descriptor (Nat × H) × List (Nat × Nat))
  | [], dest, remap => pure (dest,remap)
  | (oldId,priority,owner,handler) :: rest, dest, remap => do
    let (dest,newId,_) ← dest.subscribe priority .pre owner handler
    moveOnto rest dest (remap ++ [(oldId,newId)])

/-- One reverse-map entry after a rename, following its old id through `remap`. -/
def rekey (source target : String) (remap : List (Nat × Nat)) (row : String × Nat × String) :
    String × Nat × String :=
  if row.1 = source then
    match remap.find? (fun pair => pair.1 == row.2.1) with
    | some pair => (target,pair.2,row.2.2)
    | none => row
  else row

def rename (c : Channels H) (source target : String) : Host (Channels H) := do
  let version ← nextVersion
  if source = target then pure { c with version }
  else match c.byName[source]? with
    | none => pure { c with version }
    | some src =>
      let byName := c.byName.erase source
      let dest ← entry byName target
      let (dest,remap) ← moveOnto (src.snapshot .pre) dest []
      let ids := c.ids.map (fun _ row => rekey source target remap row)
      pure ⟨byName.insert target dest,ids.filter (fun _ row => row.1 != source),version⟩

def hasSubscribers (c : Channels H) (name : String) : Bool :=
  match c.byName[name]? with
  | none => false
  | some d => decide (0 < d.enabledCount)

/-- One subscription as the flat list keeps it. -/
structure Entry (H : Type) where
  id : Nat
  name : String
  owner : String
  generation : Nat
  handler : H

inductive Op (H : Type) where
  | subscribe (name : String) (id : Nat) (owner : String) (generation : Nat) (handler : H)
  | removeByOwner (owner : String)
  | removeByIds (ids : List Nat)
  | removeByOwnerOn (name owner : String)
  | removeByName (name : String)
  | rename (source target : String)

/-- What an operation tells its caller. -/
inductive Report where
  | first (first : Bool)
  | emptied (names : List String)
  | nowEmpty (empty : Bool)
  | done

def perform (c : Channels H) : Op H → Host (Channels H × Report)
  | .subscribe name id owner generation handler => do
    let (c,first) ← c.subscribe name id owner generation handler
    pure (c,.first first)
  | .removeByOwner owner => do
    let (c,names) ← c.removeByOwner owner
    pure (c,.emptied names)
  | .removeByIds ids => do
    let (c,names) ← c.removeByIds ids
    pure (c,.emptied names)
  | .removeByOwnerOn name owner => do
    let (c,empty) ← c.removeByOwnerOn name owner
    pure (c,.nowEmpty empty)
  | .removeByName name => do
    let c ← c.removeByName name
    pure (c,.done)
  | .rename source target => do
    let c ← c.rename source target
    pure (c,.done)

def execute : List (Op H) → Channels H → Host (Channels H × List Report)
  | [], c => pure (c,[])
  | op :: ops, c => do
    let (c,report) ← c.perform op
    let (c,reports) ← execute ops c
    pure (c,report :: reports)

/-- The abstract store: a flat list of entries. -/
def flat (entries : List (Entry H)) : Op H → List (Entry H)
  | .subscribe name id owner generation handler => entries ++ [⟨id,name,owner,generation,handler⟩]
  | .removeByOwner owner => entries.filter (·.owner != owner)
  | .removeByIds ids => entries.filter (fun e => !ids.contains e.id)
  | .removeByOwnerOn name owner => entries.filter (fun e => e.name != name || e.owner != owner)
  | .removeByName name => entries.filter (·.name != name)
  | .rename source target => entries.filter (·.name != source) ++
      (entries.filter (·.name == source)).map (fun e => { e with name := target })

/-- An entry together with the descriptor id its channel gave it. -/
structure Row (H : Type) extends Entry H where
  sub : Nat

def Row.subscription (r : Row H) : Subscription (Nat × H) :=
  ⟨r.sub,.normal,.pre,r.owner,(r.generation,r.handler),true,0⟩

def Row.index (r : Row H) : String × Nat × String := (r.name,r.sub,r.owner)

/-- The row as `rename` re-subscribes it. -/
def Row.moved (r : Row H) (target : String) (sub : Nat) : Row H := ⟨{ r.toEntry with name := target },sub⟩

def onChannel (rows : List (Row H)) (name : String) : List (Row H) := rows.filter (·.name == name)

/-- A descriptor that stores exactly these rows, all enabled at one priority. -/
structure Stores (d : Descriptor (Nat × H)) (rows : List (Row H)) : Prop where
  subs : d.subs = rows.map Row.subscription
  count : d.enabledCount = rows.length
  fresh : ∀ r ∈ rows, r.sub < d.nextId

/-- The three books of a store agree with one list of rows. -/
structure Holds (c : Channels H) (rows : List (Row H)) : Prop where
  stored : ∀ name d, c.byName[name]? = some d → Stores d (onChannel rows name) ∧ onChannel rows name ≠ []
  absent : ∀ name, c.byName[name]? = none → onChannel rows name = []
  index : ∀ id, c.ids[id]? = (rows.find? (·.id == id)).map Row.index
  distinct : rows.Pairwise (fun r s => r.id ≠ s.id)
  separate : rows.Pairwise (fun r s => r.name = s.name → r.sub ≠ s.sub)

variable {d : Descriptor (Nat × H)} {c : Channels H} {rows : List (Row H)}

theorem countP_subscription (rows : List (Row H)) :
    (rows.map Row.subscription).countP (·.enabled) = rows.length := by
  simp [List.countP_map,List.countP_eq_length,Row.subscription]

theorem Stores.snapshot (stores : Stores d rows) :
    d.snapshot .pre = rows.map (fun r => (r.sub,Priority.normal,r.owner,r.generation,r.handler)) := by
  rw [Descriptor.snapshot,stores.subs,List.filter_eq_self.mpr (by simp [Row.subscription]),List.map_map]
  rfl

theorem Stores.removeByOwner (stores : Stores d rows) (owner : String) (clock : Nat) :
    ∃ d' change, (d.removeByOwner owner).run clock = some ((d',change),clock + 1) ∧
      Stores d' (rows.filter (·.owner != owner)) := by
  have kept : d.subs.filter (fun s => s.owner != owner) =
      (rows.filter (·.owner != owner)).map Row.subscription := by
    rw [stores.subs,List.filter_map]; rfl
  refine ⟨_,_,rfl,kept,?_,fun r member => stores.fresh r (List.mem_of_mem_filter member)⟩
  simp only [kept,countP_subscription]

theorem Stores.subscribe (stores : Stores d rows) (owner : String) (generation : Nat) (handler : H)
    (id clock : Nat) (name : String) :
    ∃ d' change, (d.subscribe .normal .pre owner (generation,handler)).run clock =
        some ((d',d.nextId,change),clock + 1) ∧
      Stores d' (rows ++ [⟨⟨id,name,owner,generation,handler⟩,d.nextId⟩]) := by
  have last : d.subs.findIdx (fun s => decide (Priority.normal < s.priority)) = d.subs.length := by
    apply List.findIdx_eq_length_of_false
    rw [stores.subs]
    simp [Row.subscription]
  refine ⟨_,_,rfl,?_,?_,?_⟩
  · show d.subs.insertIdx (d.subs.findIdx _) _ = _
    rw [last,List.insertIdx_length_self,stores.subs,List.map_append]; rfl
  · simp [stores.count]
  · intro r member
    rcases List.mem_append.mp member with member | member
    · exact Nat.lt_succ_of_lt (stores.fresh r member)
    · rw [List.mem_singleton.mp member]; exact Nat.lt_succ_self _

/-- Unsubscribing the descriptor id of one row drops that row and no other. -/
theorem Stores.unsubscribe (stores : Stores d rows) (r : Row H) (member : r ∈ rows)
    (separate : rows.Pairwise (fun r s => r.sub ≠ s.sub)) (clock : Nat) :
    ∃ d' change, (d.unsubscribe r.sub).run clock = some ((d',change),clock + 1) ∧
      Stores d' (rows.filter (·.sub != r.sub)) := by
  obtain ⟨early,late,rfl⟩ := List.append_of_mem member
  obtain ⟨_,after,before⟩ := List.pairwise_append.mp separate
  have earlier : ∀ s ∈ early, s.sub ≠ r.sub := fun s hs => before s hs r (by simp)
  have later : ∀ s ∈ late, s.sub ≠ r.sub := fun s hs => (List.rel_of_pairwise_cons after hs).symm
  have kept : (early ++ r :: late).filter (·.sub != r.sub) = early ++ late := by
    rw [List.filter_append,List.filter_cons_of_neg (by simp),
      List.filter_eq_self.mpr (by simpa using earlier),List.filter_eq_self.mpr (by simpa using later)]
  have absent : ∀ s ∈ early.map Row.subscription, ¬ (s.id == r.sub) = true := by
    intro s hs
    obtain ⟨e,he,rfl⟩ := List.mem_map.mp hs
    simpa [Row.subscription] using earlier e he
  have found : d.subs.find? (·.id == r.sub) = some r.subscription := by
    rw [stores.subs,List.map_append,List.find?_append,List.find?_eq_none.mpr absent]
    simp [Row.subscription]
  have erased : d.subs.eraseP (·.id == r.sub) = (early ++ late).map Row.subscription := by
    rw [stores.subs,List.map_append,List.map_cons,List.eraseP_append_right _ absent,
      List.eraseP_cons_of_pos (by simp [Row.subscription]),List.map_append]
  have positive : 0 < d.enabledCount := by
    rw [stores.count,List.length_append,List.length_cons]; omega
  refine ⟨{ d with version := clock + 1, subs := d.subs.eraseP (·.id == r.sub), enabledCount := d.enabledCount - 1 },
    if d.enabledCount - 1 = 0 then .remove else .none,?_,?_,?_,?_⟩
  · simp only [Descriptor.unsubscribe,StateT.run_bind,Descriptor.nextVersion_run,found,
      Option.bind_eq_bind,Option.bind_some,Row.subscription,if_true]
    exact Descriptor.decEnabled_run
      { d with version := clock + 1, subs := d.subs.eraseP (·.id == r.sub) } positive _
  · rw [kept]; exact erased
  · rw [kept]; simp [stores.count]
  · intro s hs
    exact stores.fresh s (List.mem_of_mem_filter hs)

theorem onChannel_filter (rows : List (Row H)) (keep : Row H → Bool) (name : String) :
    onChannel (rows.filter keep) name = (onChannel rows name).filter keep := by
  simp only [onChannel,List.filter_filter]
  congr 1; funext r; exact Bool.and_comm _ _

theorem mem_onChannel : r ∈ onChannel rows name ↔ r ∈ rows ∧ r.name = name := by
  simp [onChannel]

theorem onChannel_eq_nil : onChannel rows name = [] ↔ ∀ r ∈ rows, r.name ≠ name := by
  simp [onChannel,List.filter_eq_nil_iff]

/-- With one row per id, looking an id up commutes with filtering. -/
theorem find?_filter (distinct : rows.Pairwise (fun r s => r.id ≠ s.id)) (keep : Row H → Bool) (id : Nat) :
    (rows.filter keep).find? (·.id == id) = (rows.find? (·.id == id)).filter keep := by
  induction rows with
  | nil => rfl
  | cons r rows ih =>
    obtain ⟨others,distinct⟩ := List.pairwise_cons.mp distinct
    by_cases same : r.id = id
    · have absent : rows.find? (·.id == id) = none := by
        apply List.find?_eq_none.mpr
        intro s member
        simpa [← same] using (others s member).symm
      cases kept : keep r
      · simp [kept,same,ih distinct,absent,Option.filter]
      · simp [kept,same,Option.filter]
    · cases kept : keep r <;> simp [kept,same,ih distinct]

theorem Holds.subs_separate (holds : Holds c rows) (name : String) :
    (onChannel rows name).Pairwise (fun r s => r.sub ≠ s.sub) := by
  apply (holds.separate.filter (·.name == name)).imp_of_mem
  intro r s hr hs differ
  have nr := (mem_onChannel.mp hr).2
  have ns := (mem_onChannel.mp hs).2
  exact differ (nr.trans ns.symm)

/-- Two rows of one channel with one descriptor id are one row. -/
theorem Holds.sub_injective (holds : Holds c rows) (hr : r ∈ rows) (hs : s ∈ rows)
    (name : r.name = s.name) (sub : r.sub = s.sub) : r = s := by
  have symmetric : Std.Symm (fun r s : Row H => r.name = s.name → r.sub ≠ s.sub) :=
    ⟨fun _ _ differ name => (differ name.symm).symm⟩
  by_contra differ
  exact holds.separate.forall hr hs differ name sub

/-- Dropping rows, given the channel map and the index that result. -/
theorem Holds.keep (holds : Holds c rows) (keep : Row H → Bool) {c' : Channels H}
    (stored : ∀ name d, c'.byName[name]? = some d →
      Stores d ((onChannel rows name).filter keep) ∧ (onChannel rows name).filter keep ≠ [])
    (absent : ∀ name, c'.byName[name]? = none → (onChannel rows name).filter keep = [])
    (index : ∀ id, c'.ids[id]? = ((rows.find? (·.id == id)).filter keep).map Row.index) :
    Holds c' (rows.filter keep) := by
  refine ⟨?_,?_,?_,holds.distinct.filter _,holds.separate.filter _⟩
  · intro name d found
    rw [onChannel_filter]; exact stored name d found
  · intro name missing
    rw [onChannel_filter]; exact absent name missing
  · intro id
    rw [find?_filter holds.distinct]; exact index id

/-- Filtering the index by a test that reads the same off an index entry as off its row. -/
theorem Holds.index_filter (holds : Holds c rows) {keep : Row H → Bool} {test : String × Nat × String → Bool}
    (agree : ∀ r, test r.index = keep r) (id : Nat) : (c.ids.filter (fun _ row => test row))[id]? =
      ((rows.find? (·.id == id)).filter keep).map Row.index := by
  rw [Std.HashMap.getElem?_filter',holds.index]
  cases rows.find? (·.id == id) with
  | none => rfl
  | some r =>
    simp only [Option.map_some,Option.filter,agree r]
    cases keep r <;> rfl

theorem Holds.index_erase (holds : Holds c rows) (gone id : Nat) : (c.ids.erase gone)[id]? =
    ((rows.find? (·.id == id)).filter (·.id != gone)).map Row.index := by
  rw [Std.HashMap.getElem?_erase,holds.index]
  cases found : rows.find? (·.id == id) with
  | none => simp
  | some r =>
    have same : r.id = id := by simpa using List.find?_some found
    by_cases gone' : gone = id
    · simp [Option.filter,same,gone']
    · simp [Option.filter,same,gone',Ne.symm gone']

theorem Holds.entry (holds : Holds c rows) (name : String) (clock : Nat) :
    ∃ d clock', (entry c.byName name).run clock = some (d,clock') ∧ Stores d (onChannel rows name) := by
  cases found : c.byName[name]? with
  | some d => exact ⟨d,clock,by simp [Channels.entry,found],(holds.stored name d found).1⟩
  | none =>
    refine ⟨⟨name,[],1,0,clock + 1⟩,clock + 1,by simp [Channels.entry,found,Descriptor.new_run],?_⟩
    rw [holds.absent name found]
    exact ⟨rfl,rfl,by simp⟩

theorem onChannel_append (rows more : List (Row H)) (name : String) :
    onChannel (rows ++ more) name = onChannel rows name ++ onChannel more name := by
  simp [onChannel]

theorem Holds.subscribe (holds : Holds c rows) (name : String) (id : Nat) (owner : String)
    (generation : Nat) (handler : H) (unused : ∀ r ∈ rows, r.id ≠ id) (clock : Nat) :
    ∃ c' sub clock', (c.subscribe name id owner generation handler).run clock =
        some ((c',decide (onChannel rows name = [])),clock') ∧
      Holds c' (rows ++ [⟨⟨id,name,owner,generation,handler⟩,sub⟩]) := by
  obtain ⟨d,clock₁,entered,stores⟩ := holds.entry name (clock + 1)
  obtain ⟨d',change,subscribed,stores'⟩ := stores.subscribe owner generation handler id clock₁ name
  have first : decide (d.enabledCount = 0) = decide (onChannel rows name = []) := by
    rw [stores.count]; simp
  refine ⟨⟨c.byName.insert name d',c.ids.insert id (name,d.nextId,owner),clock + 1⟩,d.nextId,clock₁ + 1,
    by simp [Channels.subscribe,entered,subscribed,first],?_,?_,?_,?_,?_⟩
  · intro other e found
    rw [Std.HashMap.getElem?_insert] at found
    rw [onChannel_append]
    by_cases same : name = other
    · subst other
      simp only [beq_self_eq_true,if_true,Option.some.injEq] at found
      subst e
      exact ⟨by simpa [onChannel] using stores',by simp [onChannel]⟩
    · simp only [beq_iff_eq,same,if_false] at found
      simpa [onChannel,same] using holds.stored other e found
  · intro other missing
    rw [Std.HashMap.getElem?_insert] at missing
    by_cases same : name = other
    · simp [same] at missing
    · simp only [beq_iff_eq,same,if_false] at missing
      simpa [onChannel,same] using holds.absent other missing
  · intro key
    rw [Std.HashMap.getElem?_insert,List.find?_append,holds.index]
    by_cases same : id = key
    · have absent : rows.find? (·.id == key) = none :=
        List.find?_eq_none.mpr fun r member => by simpa [← same] using unused r member
      simp [same,absent,Row.index]
    · simp [same]
  · refine List.pairwise_append.mpr ⟨holds.distinct,by simp,?_⟩
    intro r member s hs
    simpa [List.mem_singleton.mp hs] using unused r member
  · refine List.pairwise_append.mpr ⟨holds.separate,by simp,?_⟩
    intro r member s hs sameName
    rw [List.mem_singleton.mp hs] at sameName ⊢
    exact Nat.ne_of_lt (stores.fresh r (mem_onChannel.mpr ⟨member,sameName⟩))

/-- The names a loop reports: channels whose rows all go. -/
def emptiedBy (rows : List (Row H)) (keep : Row H → Bool) (name : String) : Bool :=
  !(onChannel rows name).isEmpty && ((onChannel rows name).filter keep).isEmpty

theorem Stores.reports (before : Stores d rows) (after : Stores d' (rows.filter keep)) :
    (0 < d.enabledCount ∧ d'.enabledCount = 0) ↔ (!rows.isEmpty && (rows.filter keep).isEmpty) = true := by
  rw [before.count,after.count]
  simp [List.length_pos_iff]

theorem removeOwnerFrom_run (owner : String) (entries : List (String × Descriptor (Nat × H)))
    (byName : Std.HashMap String (Descriptor (Nat × H))) (emptied : List String) (clock : Nat)
    (names : (entries.map Prod.fst).Nodup)
    (stored : ∀ entry ∈ entries, Stores entry.2 (onChannel rows entry.1)) :
    ∃ byName' clock', (removeOwnerFrom owner entries byName emptied).run clock =
        some ((byName',emptied ++ (entries.map Prod.fst).filter (emptiedBy rows (·.owner != owner))),clock') ∧
      (∀ name ∈ entries.map Prod.fst, ∃ d, byName'[name]? = some d ∧
        Stores d ((onChannel rows name).filter (·.owner != owner))) ∧
      ∀ name, name ∉ entries.map Prod.fst → byName'[name]? = byName[name]? := by
  induction entries generalizing byName emptied clock with
  | nil => exact ⟨byName,clock,by simp [removeOwnerFrom],by simp,fun _ _ => rfl⟩
  | cons entry entries ih =>
    obtain ⟨name,d⟩ := entry
    simp only [List.map_cons,List.nodup_cons] at names
    have before := stored (name,d) (by simp)
    obtain ⟨d',change,removed,after⟩ := before.removeByOwner owner clock
    obtain ⟨byName',clock',run,touched,kept⟩ := ih (byName.insert name d')
      (if 0 < d.enabledCount ∧ d'.enabledCount = 0 then emptied ++ [name] else emptied) (clock + 1) names.2
      (fun entry member => stored entry (List.mem_cons_of_mem _ member))
    refine ⟨byName',clock',?_,?_,?_⟩
    · simp only [removeOwnerFrom,StateT.run_bind,removed,Option.bind_eq_bind,Option.bind_some,run]
      simp only [before.reports after,List.map_cons,List.filter_cons,emptiedBy]
      split <;> simp_all
    · intro other member
      rcases List.mem_cons.mp member with rfl | member
      · exact ⟨d',by rw [kept _ names.1]; simp,after⟩
      · exact touched other member
    · intro other member
      simp only [List.map_cons,List.mem_cons,not_or] at member
      rw [kept other member.2,Std.HashMap.getElem?_insert]
      simp [Ne.symm member.1]

theorem getElem?_foldl_erase (names : List String) (byName : Std.HashMap String (Descriptor (Nat × H)))
    (name : String) : (names.foldl (fun m name => m.erase name) byName)[name]? =
      if name ∈ names then none else byName[name]? := by
  induction names generalizing byName with
  | nil => simp
  | cons first names ih =>
    rw [List.foldl_cons,ih,Std.HashMap.getElem?_erase]
    by_cases same : first = name
    · simp [same]
    · simp [same,Ne.symm same]

theorem Holds.mem_iff (holds : Holds c rows) (name : String) : name ∈ c.byName ↔ onChannel rows name ≠ [] := by
  rw [Std.HashMap.mem_iff_isSome_getElem?]
  cases found : c.byName[name]? with
  | none => simp [holds.absent name found]
  | some d => simp [(holds.stored name d found).2]

/-- What an emptying report has to say about the rows before and after. -/
structure Reports (names : List String) (before after : List (Row H)) : Prop where
  once : names.Nodup
  exact : ∀ name, name ∈ names ↔ onChannel before name ≠ [] ∧ onChannel after name = []

theorem Holds.removeByOwner (holds : Holds c rows) (owner : String) (clock : Nat) :
    ∃ c' names clock', (c.removeByOwner owner).run clock = some ((c',names),clock') ∧
      Holds c' (rows.filter (·.owner != owner)) ∧ Reports names rows (rows.filter (·.owner != owner)) := by
  have keys : c.byName.toList.map Prod.fst = c.byName.keys := Std.HashMap.map_fst_toList_eq_keys
  have names : (c.byName.toList.map Prod.fst).Nodup := by
    rw [keys]; exact c.byName.nodup_keys
  have present : ∀ name, name ∈ c.byName.toList.map Prod.fst ↔ onChannel rows name ≠ [] := by
    intro name
    rw [keys,Std.HashMap.mem_keys]; exact holds.mem_iff name
  obtain ⟨byName,clock',run,touched,kept⟩ := removeOwnerFrom_run owner c.byName.toList c.byName [] (clock + 1)
    names (fun entry member => (holds.stored entry.1 entry.2
      (Std.HashMap.mem_toList_iff_getElem?_eq_some.mp member)).1)
  have reported : ∀ name, name ∈ (c.byName.toList.map Prod.fst).filter (emptiedBy rows (·.owner != owner)) ↔
      onChannel rows name ≠ [] ∧ (onChannel rows name).filter (·.owner != owner) = [] := by
    intro name
    rw [List.mem_filter,present,emptiedBy]
    simp
  have once := names.filter (emptiedBy rows (·.owner != owner))
  rw [List.nil_append] at run
  generalize (c.byName.toList.map Prod.fst).filter (emptiedBy rows (·.owner != owner)) = emptied
    at run reported once
  refine ⟨⟨emptied.foldl (fun m name => m.erase name) byName,c.ids.filter (fun _ row => row.2.2 != owner),clock + 1⟩,
    emptied,clock',by simp [Channels.removeByOwner,run],?_,once,?_⟩
  · refine holds.keep (·.owner != owner) ?_ ?_ (holds.index_filter fun _ => rfl)
    · intro name d found
      rw [getElem?_foldl_erase] at found
      split at found
      · cases found
      next reportless =>
        rw [reported] at reportless
        by_cases member : onChannel rows name = []
        · rw [kept name (by rw [present]; simpa using member)] at found
          exact absurd member (holds.stored name d found).2
        · obtain ⟨e,foundE,stores⟩ := touched name ((present name).mpr member)
          rw [found] at foundE
          cases foundE
          exact ⟨stores,fun empty => reportless ⟨member,empty⟩⟩
    · intro name missing
      rw [getElem?_foldl_erase] at missing
      split at missing
      next closed => exact ((reported name).mp closed).2
      next =>
        by_cases member : onChannel rows name = []
        · simp [member]
        · obtain ⟨e,foundE,_⟩ := touched name ((present name).mpr member)
          rw [missing] at foundE; cases foundE
  · intro name
    rw [reported,onChannel_filter]

theorem Reports.trans {first second : List String} {before middle after : List (Row H)}
    (left : Reports first before middle) (right : Reports second middle after)
    (shrink : ∀ name, onChannel before name = [] → onChannel middle name = [])
    (shrink' : ∀ name, onChannel middle name = [] → onChannel after name = []) :
    Reports (first ++ second) before after := by
  refine ⟨List.nodup_append.mpr ⟨left.once,right.once,?_⟩,?_⟩
  · rintro name hl _ hr rfl
    exact ((right.exact name).mp hr).1 ((left.exact name).mp hl).2
  · intro name
    rw [List.mem_append,left.exact,right.exact]
    have := shrink name
    have := shrink' name
    tauto

/-- Dropping rows of one channel only: the descriptor goes with its last row. -/
theorem Holds.dropOn (holds : Holds c rows) (c' : Channels H) (keep : Row H → Bool) {name : String}
    (found : c.byName[name]? = some d) (elsewhere : ∀ r ∈ rows, r.name ≠ name → keep r = true)
    (stores : Stores d' ((onChannel rows name).filter keep))
    (byName : c'.byName = if 0 < d.enabledCount ∧ d'.enabledCount = 0 then c.byName.erase name
      else c.byName.insert name d')
    (index : ∀ id, c'.ids[id]? = ((rows.find? (·.id == id)).filter keep).map Row.index) :
    Holds c' (rows.filter keep) ∧
      Reports (if 0 < d.enabledCount ∧ d'.enabledCount = 0 then [name] else []) rows (rows.filter keep) := by
  obtain ⟨before,occupied⟩ := holds.stored name d found
  have untouched : ∀ other, name ≠ other → (onChannel rows other).filter keep = onChannel rows other := by
    intro other differ
    apply List.filter_eq_self.mpr
    intro r member
    obtain ⟨member,onOther⟩ := mem_onChannel.mp member
    exact elsewhere r member fun same => differ (same.symm.trans onOther)
  have emptied : (0 < d.enabledCount ∧ d'.enabledCount = 0) ↔ (onChannel rows name).filter keep = [] := by
    rw [before.reports stores]; simp [occupied]
  have lookup : ∀ other, c'.byName[other]? = if name = other then
      (if (onChannel rows name).filter keep = [] then none else some d') else c.byName[other]? := by
    intro other
    rw [byName]
    simp only [emptied]
    split <;> simp [Std.HashMap.getElem?_erase,Std.HashMap.getElem?_insert]
  refine ⟨holds.keep keep ?_ ?_ index,?_,?_⟩
  · intro other e foundE
    rw [lookup] at foundE
    split at foundE
    next same =>
      subst same
      split at foundE
      · cases foundE
      next stays => cases foundE; exact ⟨stores,stays⟩
    next differ =>
      rw [untouched other differ]; exact holds.stored other e foundE
  · intro other missing
    rw [lookup] at missing
    split at missing
    next same =>
      subst same
      split at missing
      next gone => exact gone
      · cases missing
    next differ =>
      rw [untouched other differ]; exact holds.absent other missing
  · split <;> simp
  · intro other
    rw [onChannel_filter]
    by_cases same : name = other
    · subst same
      simp only [emptied]
      split <;> simp_all
    · rw [untouched other same]
      split <;> simp [Ne.symm same]

theorem Holds.removeByOwnerOn (holds : Holds c rows) (name owner : String) (clock : Nat) :
    ∃ c' nowEmpty clock', (c.removeByOwnerOn name owner).run clock = some ((c',nowEmpty),clock') ∧
      Holds c' (rows.filter (fun r => r.name != name || r.owner != owner)) ∧
      Reports (if nowEmpty then [name] else []) rows (rows.filter (fun r => r.name != name || r.owner != owner)) := by
  cases found : c.byName[name]? with
  | none =>
    have all : rows.filter (fun r => r.name != name || r.owner != owner) = rows := by
      apply List.filter_eq_self.mpr
      intro r member
      simp [onChannel_eq_nil.mp (holds.absent name found) r member]
    rw [all]
    refine ⟨{ c with version := clock + 1 },false,clock + 1,by simp [Channels.removeByOwnerOn,found],
      ⟨holds.stored,holds.absent,holds.index,holds.distinct,holds.separate⟩,by simp,?_⟩
    intro other
    simp
  | some d =>
    obtain ⟨d',change,removed,after⟩ := (holds.stored name d found).1.removeByOwner owner (clock + 1)
    have onName : (onChannel rows name).filter (·.owner != owner) =
        (onChannel rows name).filter (fun r => r.name != name || r.owner != owner) := by
      apply List.filter_congr
      intro r member
      simp [(mem_onChannel.mp member).2]
    rw [onName] at after
    obtain ⟨holds',reports⟩ := holds.dropOn
      ⟨if 0 < d.enabledCount ∧ d'.enabledCount = 0 then c.byName.erase name else c.byName.insert name d',
        c.ids.filter (fun _ row => row.1 != name || row.2.2 != owner),clock + 1⟩
      (fun r => r.name != name || r.owner != owner) found
      (fun r _ differ => by simp [differ]) after rfl (holds.index_filter fun _ => rfl)
    refine ⟨_,decide (0 < d.enabledCount ∧ d'.enabledCount = 0),clock + 2,?_,holds',by simpa using reports⟩
    simp [Channels.removeByOwnerOn,found,removed]

/-- With one row per id, an id's row is found by membership alone. -/
theorem find?_eq_some_iff (distinct : rows.Pairwise (fun r s => r.id ≠ s.id)) (id : Nat) (r : Row H) :
    rows.find? (·.id == id) = some r ↔ r ∈ rows ∧ r.id = id := by
  constructor
  · intro found
    exact ⟨List.mem_of_find?_eq_some found,by simpa using List.find?_some found⟩
  · rintro ⟨member,rfl⟩
    have symmetric : Std.Symm (fun r s : Row H => r.id ≠ s.id) := ⟨fun _ _ differ => differ.symm⟩
    obtain ⟨s,found⟩ : ∃ s, rows.find? (·.id == r.id) = some s :=
      Option.isSome_iff_exists.mp (List.find?_isSome.mpr ⟨r,member,by simp⟩)
    have same : s.id = r.id := by simpa using List.find?_some found
    by_contra differ
    have : s ≠ r := fun h => differ (h ▸ found)
    exact distinct.forall (List.mem_of_find?_eq_some found) member this same

theorem filter_contains_cons (rows : List (Row H)) (id : Nat) (ids : List Nat) :
    rows.filter (fun r => !(id :: ids).contains r.id) =
      (rows.filter (·.id != id)).filter (fun r => !ids.contains r.id) := by
  rw [List.filter_filter]
  congr 1; funext r
  cases contained : ids.contains r.id <;> by_cases same : r.id = id <;> simp_all

theorem onChannel_filter_eq_nil (keep : Row H → Bool) (name : String) (empty : onChannel rows name = []) :
    onChannel (rows.filter keep) name = [] := by
  rw [onChannel_filter,empty]; rfl

theorem Holds.removeIds (holds : Holds c rows) (ids : List Nat) (emptied : List String) (clock : Nat) :
    ∃ c' names clock', (Channels.removeIds ids c emptied).run clock = some ((c',emptied ++ names),clock') ∧
      Holds c' (rows.filter (fun r => !ids.contains r.id)) ∧
      Reports names rows (rows.filter (fun r => !ids.contains r.id)) := by
  induction ids generalizing c rows emptied clock with
  | nil =>
    refine ⟨c,[],clock,by simp [Channels.removeIds],by simpa using holds,by simp,?_⟩
    intro name
    simp
  | cons id ids ih =>
    rw [filter_contains_cons]
    cases found : rows.find? (·.id == id) with
    | none =>
      have unknown : c.ids[id]? = none := by rw [holds.index,found]; rfl
      have all : rows.filter (·.id != id) = rows := by
        apply List.filter_eq_self.mpr
        intro r member
        simpa using List.find?_eq_none.mp found r member
      rw [all]
      obtain ⟨c',names,clock',run,rest⟩ := ih holds emptied clock
      exact ⟨c',names,clock',by simpa [Channels.removeIds,unknown] using run,rest⟩
    | some r =>
      obtain ⟨member,rfl⟩ := (find?_eq_some_iff holds.distinct id r).mp found
      have known : c.ids[r.id]? = some (r.name,r.sub,r.owner) := by rw [holds.index,found]; rfl
      have onName : r ∈ onChannel rows r.name := mem_onChannel.mpr ⟨member,rfl⟩
      obtain ⟨d,foundD⟩ : ∃ d, c.byName[r.name]? = some d := by
        cases missing : c.byName[r.name]? with
        | none => simp [holds.absent _ missing] at onName
        | some d => exact ⟨d,rfl⟩
      obtain ⟨d',change,removed,after⟩ := (holds.stored r.name d foundD).1.unsubscribe r onName
        (holds.subs_separate r.name) clock
      have differ : ∀ s ∈ rows, s ≠ r → s.id ≠ r.id := by
        intro s hs other id
        have := (find?_eq_some_iff holds.distinct r.id s).mpr ⟨hs,id⟩
        rw [found] at this
        exact other (Option.some.inj this).symm
      have bySub : (onChannel rows r.name).filter (·.sub != r.sub) = (onChannel rows r.name).filter (·.id != r.id) := by
        apply List.filter_congr
        intro s hs
        obtain ⟨hs,name⟩ := mem_onChannel.mp hs
        by_cases same : s = r
        · simp [same]
        · have subs : s.sub ≠ r.sub := fun sub => same (holds.sub_injective hs member name sub)
          rw [bne_iff_ne.mpr subs,bne_iff_ne.mpr (differ s hs same)]
      rw [bySub] at after
      have elsewhere : ∀ s ∈ rows, s.name ≠ r.name → (s.id != r.id) = true := by
        intro s hs name
        simpa using differ s hs fun same => name (by rw [same])
      obtain ⟨holds',reports⟩ := holds.dropOn
        ⟨if 0 < d.enabledCount ∧ d'.enabledCount = 0 then c.byName.erase r.name else c.byName.insert r.name d',
          c.ids.erase r.id,c.version⟩
        (·.id != r.id) foundD elsewhere after rfl (holds.index_erase r.id)
      obtain ⟨c',names,clock',run,holds'',reports'⟩ := ih holds'
        (emptied ++ if 0 < d.enabledCount ∧ d'.enabledCount = 0 then [r.name] else []) (clock + 1)
      refine ⟨c',_ ++ names,clock',?_,holds'',reports.trans reports'
        (fun name => onChannel_filter_eq_nil _ name) (fun name => onChannel_filter_eq_nil _ name)⟩
      rw [← List.append_assoc,← run]
      simp only [Channels.removeIds,known,foundD,StateT.run_bind,removed,Option.bind_eq_bind,Option.bind_some]
      split
      · rfl
      · rw [List.append_nil]

theorem Holds.removeByIds (holds : Holds c rows) (ids : List Nat) (clock : Nat) :
    ∃ c' names clock', (c.removeByIds ids).run clock = some ((c',names),clock') ∧
      Holds c' (rows.filter (fun r => !ids.contains r.id)) ∧
      Reports names rows (rows.filter (fun r => !ids.contains r.id)) := by
  have bumped : Holds { c with version := clock + 1 } rows :=
    ⟨holds.stored,holds.absent,holds.index,holds.distinct,holds.separate⟩
  obtain ⟨c',names,clock',run,rest⟩ := bumped.removeIds ids [] (clock + 1)
  exact ⟨c',names,clock',by simpa [Channels.removeByIds] using run,rest⟩

theorem Holds.removeByName (holds : Holds c rows) (name : String) (clock : Nat) :
    ∃ c' clock', (c.removeByName name).run clock = some (c',clock') ∧ Holds c' (rows.filter (·.name != name)) := by
  have kept : ∀ other, name ≠ other → (onChannel rows other).filter (·.name != name) = onChannel rows other := by
    intro other differ
    apply List.filter_eq_self.mpr
    intro r member
    simpa [(mem_onChannel.mp member).2] using Ne.symm differ
  have gone : (onChannel rows name).filter (·.name != name) = [] := by
    apply List.filter_eq_nil_iff.mpr
    intro r member
    simp [(mem_onChannel.mp member).2]
  refine ⟨⟨c.byName.erase name,c.ids.filter (fun _ row => row.1 != name),clock + 1⟩,clock + 1,
    by simp [Channels.removeByName],holds.keep (·.name != name) ?_ ?_ (holds.index_filter fun _ => rfl)⟩
  · intro other d found
    rw [Std.HashMap.getElem?_erase] at found
    by_cases same : name = other
    · simp [same] at found
    · simp only [beq_iff_eq,same,if_false] at found
      rw [kept other same]; exact holds.stored other d found
  · intro other missing
    rw [Std.HashMap.getElem?_erase] at missing
    by_cases same : name = other
    · rw [← same]; exact gone
    · simp only [beq_iff_eq,same,if_false] at missing
      rw [kept other same]; exact holds.absent other missing

/-- Re-subscribing rows gives each a fresh descriptor id; the pairs are what `remap` records. -/
theorem moveOnto_run (target : String) (moving : List (Row H)) {dest : Descriptor (Nat × H)}
    {there : List (Row H)} (stores : Stores dest there) (separate : there.Pairwise (fun r s => r.sub ≠ s.sub))
    (remap : List (Nat × Nat)) (clock : Nat) :
    ∃ dest' clock', ∃ pairs : List (Row H × Row H),
      (moveOnto (moving.map (fun r => (r.sub,Priority.normal,r.owner,r.generation,r.handler))) dest remap).run clock =
        some ((dest',remap ++ pairs.map (fun pair => (pair.1.sub,pair.2.sub))),clock') ∧
      pairs.map Prod.fst = moving ∧
      (∀ pair ∈ pairs, pair.2 = pair.1.moved target pair.2.sub) ∧
      Stores dest' (there ++ pairs.map Prod.snd) ∧
      (there ++ pairs.map Prod.snd).Pairwise (fun r s => r.sub ≠ s.sub) := by
  induction moving generalizing dest there remap clock with
  | nil => exact ⟨dest,clock,[],by simp [moveOnto],rfl,by simp,by simpa using stores,by simpa using separate⟩
  | cons r moving ih =>
    obtain ⟨dest₁,change,subscribed,stores₁⟩ := stores.subscribe r.owner r.generation r.handler r.id clock target
    have separate₁ : (there ++ [r.moved target dest.nextId]).Pairwise (fun r s => r.sub ≠ s.sub) := by
      refine List.pairwise_append.mpr ⟨separate,by simp,?_⟩
      intro s member t ht
      rw [List.mem_singleton.mp ht]
      exact Nat.ne_of_lt (stores.fresh s member)
    obtain ⟨dest',clock',pairs,run,moved,renamed,stores',separate'⟩ := ih stores₁ separate₁
      (remap ++ [(r.sub,dest.nextId)]) (clock + 1)
    refine ⟨dest',clock',(r,r.moved target dest.nextId) :: pairs,?_,?_,?_,?_,?_⟩
    · simp only [List.map_cons,moveOnto,StateT.run_bind,subscribed,Option.bind_eq_bind,Option.bind_some,run]
      simp [Row.moved]
    · simp [moved]
    · intro pair member
      rcases List.mem_cons.mp member with rfl | member
      · rfl
      · exact renamed pair member
    · simpa [Row.moved] using stores'
    · simpa [Row.moved] using separate'

theorem find?_pair (pairs : List (Row H × Row H)) (pair : Row H × Row H) (member : pair ∈ pairs)
    (separate : (pairs.map Prod.fst).Pairwise (fun r s => r.sub ≠ s.sub)) :
    (pairs.map (fun pair => (pair.1.sub,pair.2.sub))).find? (fun entry => entry.1 == pair.1.sub) =
      some (pair.1.sub,pair.2.sub) := by
  obtain ⟨early,late,rfl⟩ := List.append_of_mem member
  rw [List.map_append,List.map_cons] at separate
  have before : ∀ other ∈ early, other.1.sub ≠ pair.1.sub := fun other ho =>
    (List.pairwise_append.mp separate).2.2 other.1 (List.mem_map_of_mem ho) pair.1 (by simp)
  rw [List.map_append,List.map_cons,List.find?_append,List.find?_eq_none.mpr]
  · simp
  · intro entry he
    obtain ⟨other,ho,rfl⟩ := List.mem_map.mp he
    simpa using before other ho

theorem onChannel_leaving (rows : List (Row H)) (source name : String) :
    onChannel (rows.filter (·.name != source)) name = if name = source then [] else onChannel rows name := by
  rw [onChannel_filter]
  split
  next same =>
    apply List.filter_eq_nil_iff.mpr
    intro r member
    simp [(mem_onChannel.mp member).2,same]
  next differ =>
    apply List.filter_eq_self.mpr
    intro r member
    simpa [(mem_onChannel.mp member).2] using differ

theorem onChannel_onChannel (rows : List (Row H)) (source name : String) :
    onChannel (onChannel rows source) name = if name = source then onChannel rows name else [] := by
  split
  next same =>
    rw [same]; simp [onChannel]
  next differ =>
    apply onChannel_eq_nil.mpr
    intro r member
    rw [(mem_onChannel.mp member).2]; exact Ne.symm differ

theorem leaving_perm (rows : List (Row H)) (source : String) :
    (rows.filter (·.name != source) ++ onChannel rows source).Perm rows := by
  have := List.filter_append_perm (fun r : Row H => r.name != source) rows
  simpa [onChannel,bne] using this

/-- The books do not see how channels are interleaved, only the order within each. -/
theorem Holds.reorder (holds : Holds c rows) {rows' : List (Row H)} (perm : rows'.Perm rows)
    (channels : ∀ name, onChannel rows' name = onChannel rows name) : Holds c rows' := by
  have distinct : rows'.Pairwise (fun r s => r.id ≠ s.id) :=
    (perm.pairwise_iff fun differ => differ.symm).mpr holds.distinct
  have separate : rows'.Pairwise (fun r s => r.name = s.name → r.sub ≠ s.sub) :=
    (perm.pairwise_iff fun differ name => (differ name.symm).symm).mpr holds.separate
  refine ⟨?_,?_,?_,distinct,separate⟩
  · intro name d found
    rw [channels]; exact holds.stored name d found
  · intro name missing
    rw [channels]; exact holds.absent name missing
  · intro id
    rw [holds.index]
    congr 1
    ext r
    rw [find?_eq_some_iff distinct,find?_eq_some_iff holds.distinct,perm.mem_iff]

theorem Holds.moveOnto (holds : Holds c rows) {source target : String} (differ : source ≠ target)
    {pairs : List (Row H × Row H)} (firsts : pairs.map Prod.fst = onChannel rows source)
    (occupied : onChannel rows source ≠ []) (renamed : ∀ pair ∈ pairs, pair.2 = pair.1.moved target pair.2.sub)
    {dest : Descriptor (Nat × H)} (stores : Stores dest (onChannel rows target ++ pairs.map Prod.snd))
    (separate : (onChannel rows target ++ pairs.map Prod.snd).Pairwise (fun r s => r.sub ≠ s.sub)) (version : Nat) :
    Holds ⟨(c.byName.erase source).insert target dest,
      (c.ids.map (fun _ row => rekey source target (pairs.map fun pair => (pair.1.sub,pair.2.sub)) row)).filter
        (fun _ row => row.1 != source),version⟩
      (rows.filter (·.name != source) ++ pairs.map Prod.snd) := by
  have onTarget : ∀ r ∈ pairs.map Prod.snd, r.name = target := by
    intro r member
    obtain ⟨pair,hp,rfl⟩ := List.mem_map.mp member
    rw [renamed pair hp]; rfl
  have arrived : ∀ name, onChannel (pairs.map Prod.snd) name = if name = target then pairs.map Prod.snd else [] := by
    intro name
    split
    next same => exact List.filter_eq_self.mpr fun r member => by simp [onTarget r member,same]
    next away => exact onChannel_eq_nil.mpr fun r member => by rw [onTarget r member]; exact Ne.symm away
  have ids : (rows.filter (·.name != source) ++ pairs.map Prod.snd).map (·.id) =
      (rows.filter (·.name != source) ++ onChannel rows source).map (·.id) := by
    rw [List.map_append,List.map_append,← firsts,List.map_map,List.map_map]
    congr 1
    apply List.map_congr_left
    intro pair member
    rw [Function.comp_apply,renamed pair member]; rfl
  have distinct : (rows.filter (·.name != source) ++ pairs.map Prod.snd).Pairwise (fun r s => r.id ≠ s.id) := by
    rw [← List.pairwise_map (f := fun r : Row H => r.id) (R := fun a b => a ≠ b),ids,List.pairwise_map]
    exact ((leaving_perm rows source).pairwise_iff fun differ => differ.symm).mpr holds.distinct
  refine ⟨?_,?_,?_,distinct,?_⟩
  · intro name d found
    rw [onChannel_append,onChannel_leaving,arrived]
    simp only [Std.HashMap.getElem?_insert,Std.HashMap.getElem?_erase,beq_iff_eq] at found
    by_cases here : target = name
    · subst here
      simp only [if_true,Option.some.injEq] at found
      subst found
      have nonempty : pairs ≠ [] := by
        rintro rfl
        exact occupied firsts.symm
      simpa [Ne.symm differ,nonempty] using stores
    · by_cases there : source = name
      · simp [here,there] at found
      · simp only [here,there,if_false] at found
        simpa [Ne.symm here,Ne.symm there] using holds.stored name d found
  · intro name missing
    rw [onChannel_append,onChannel_leaving,arrived]
    simp only [Std.HashMap.getElem?_insert,Std.HashMap.getElem?_erase,beq_iff_eq] at missing
    by_cases here : target = name
    · simp [here] at missing
    · by_cases there : source = name
      · simp [← there,differ]
      · simp only [here,there,if_false] at missing
        simpa [Ne.symm here,Ne.symm there] using holds.absent name missing
  · intro id
    rw [Std.HashMap.getElem?_filter',Std.HashMap.getElem?_map,holds.index]
    cases found : rows.find? (·.id == id) with
    | none =>
      have absent : id ∉ rows.map (·.id) := by
        simpa using List.find?_eq_none.mp found
      rw [← ((leaving_perm rows source).map _).mem_iff,← ids] at absent
      rw [List.find?_eq_none.mpr]
      · rfl
      · intro r member same
        exact absent (List.mem_map.mpr ⟨r,member,by simpa using same⟩)
    | some r =>
      obtain ⟨member,rfl⟩ := (find?_eq_some_iff holds.distinct id r).mp found
      by_cases leaves : r.name = source
      · have onSource : r ∈ pairs.map Prod.fst := firsts ▸ mem_onChannel.mpr ⟨member,leaves⟩
        obtain ⟨pair,hp,rfl⟩ := List.mem_map.mp onSource
        have remapped := find?_pair pairs pair hp (firsts ▸ holds.subs_separate source)
        have keyed : rekey source target (pairs.map fun pair => (pair.1.sub,pair.2.sub)) pair.1.index =
            pair.2.index := by
          simp only [rekey,Row.index,leaves,if_true,remapped]
          rw [renamed pair hp]; rfl
        have away : pair.2.index.1 ≠ source := by
          rw [renamed pair hp]; exact Ne.symm differ
        have same : pair.2.id = pair.1.id := by rw [renamed pair hp]; rfl
        rw [(find?_eq_some_iff distinct pair.1.id pair.2).mpr
          ⟨List.mem_append_right _ (List.mem_map_of_mem hp),same⟩]
        simp only [Option.map_some,keyed,Option.filter,bne_iff_ne.mpr away,if_true]
      · rw [(find?_eq_some_iff distinct r.id r).mpr
          ⟨List.mem_append_left _ (List.mem_filter.mpr ⟨member,by simpa using leaves⟩),rfl⟩]
        simp [rekey,Row.index,leaves,Option.filter]
  · refine List.pairwise_append.mpr ⟨holds.separate.filter _,?_,?_⟩
    · exact List.Pairwise.imp (fun {r s} differ (_ : r.name = s.name) => differ) (List.pairwise_append.mp separate).2.1
    · intro r hr s hs name
      apply (List.pairwise_append.mp separate).2.2 r _ s hs
      rw [onTarget s hs] at name
      exact mem_onChannel.mpr ⟨List.mem_of_mem_filter hr,name⟩

theorem Holds.rename (holds : Holds c rows) (source target : String) (clock : Nat) :
    ∃ c' rows' clock', (c.rename source target).run clock = some (c',clock') ∧ Holds c' rows' ∧
      rows'.map Row.toEntry = (rows.filter (·.name != source)).map Row.toEntry ++
        (onChannel rows source).map (fun r => { r.toEntry with name := target }) := by
  have bumped : Holds { c with version := clock + 1 } rows :=
    ⟨holds.stored,holds.absent,holds.index,holds.distinct,holds.separate⟩
  by_cases same : source = target
  · refine ⟨{ c with version := clock + 1 },rows.filter (·.name != source) ++ onChannel rows source,clock + 1,
      by simp [Channels.rename,same],bumped.reorder (leaving_perm rows source) ?_,?_⟩
    · intro name
      rw [onChannel_append,onChannel_leaving,onChannel_onChannel]
      split <;> simp
    · rw [List.map_append]
      congr 1
      apply List.map_congr_left
      intro r member
      simp [← same,← (mem_onChannel.mp member).2]
  cases found : c.byName[source]? with
  | none =>
    have nobody := onChannel_eq_nil.mp (holds.absent source found)
    refine ⟨{ c with version := clock + 1 },rows,clock + 1,by simp [Channels.rename,same,found],bumped,?_⟩
    rw [holds.absent source found,List.filter_eq_self.mpr (by simpa using nobody)]
    simp
  | some src =>
    obtain ⟨leaving,occupied⟩ := holds.stored source src found
    obtain ⟨dest,clock₁,entered,there⟩ := holds.entry target (clock + 1)
    have entered' : (Channels.entry (c.byName.erase source) target).run (clock + 1) = some (dest,clock₁) := by
      rw [← entered,Channels.entry,Channels.entry,Std.HashMap.getElem?_erase]
      simp [same]
    obtain ⟨dest',clock',pairs,moved,firsts,renamed,stores,separate⟩ := moveOnto_run target (onChannel rows source)
      there (holds.subs_separate target) [] clock₁
    rw [← leaving.snapshot,List.nil_append] at moved
    refine ⟨_,_,clock',?_,holds.moveOnto same firsts occupied renamed stores separate (clock + 1),?_⟩
    · simp [Channels.rename,same,found,entered',moved]
    · rw [List.map_append,← firsts,List.map_map,List.map_map]
      congr 1
      apply List.map_congr_left
      intro pair member
      rw [Function.comp_apply,renamed pair member]; rfl

/-- The caller ids a run mints, in order. -/
def minted : List (Op H) → List Nat
  | [] => []
  | .subscribe _ id _ _ _ :: ops => id :: minted ops
  | _ :: ops => minted ops

/-- The names are, each once, the channels that went from non-empty to empty. -/
def Emptied (before after : List (Entry H)) (names : List String) : Prop :=
  names.Nodup ∧ ∀ name, name ∈ names ↔
    before.filter (·.name == name) ≠ [] ∧ after.filter (·.name == name) = []

/-- What an operation must report, given the list before and after it. -/
def Answers (before after : List (Entry H)) : Op H → Report → Prop
  | .subscribe name _ _ _ _, .first first => first = true ↔ before.filter (·.name == name) = []
  | .removeByOwner _, .emptied names => Emptied before after names
  | .removeByIds _, .emptied names => Emptied before after names
  | .removeByOwnerOn name _, .nowEmpty empty => Emptied before after (if empty then [name] else [])
  | .removeByName _, .done => True
  | .rename _ _, .done => True
  | _, _ => False

def AnswersAll : List (Entry H) → List (Op H) → List Report → Prop
  | _, [], [] => True
  | entries, op :: ops, report :: reports =>
    Answers entries (flat entries op) op report ∧ AnswersAll (flat entries op) ops reports
  | _, _, _ => False

/-- A store read back as the flat list: snapshots, the reverse map and the live descriptors. -/
structure Refines (c : Channels H) (entries : List (Entry H)) : Prop where
  snapshot : ∀ name, c.snapshot name =
    (entries.filter (·.name == name)).map (fun e => (e.owner,e.generation,e.handler))
  ids : ∀ id name owner, (∃ sub, c.ids[id]? = some (name,sub,owner)) ↔
    ∃ e ∈ entries, e.id = id ∧ e.name = name ∧ e.owner = owner
  occupied : ∀ (name : String) (d : Descriptor (Nat × H)), c.byName[name]? = some d → d.subs ≠ []

theorem filter_toEntry (rows : List (Row H)) (name : String) :
    (rows.map Row.toEntry).filter (·.name == name) = (onChannel rows name).map Row.toEntry := by
  rw [onChannel,List.filter_map]; rfl

theorem Reports.emptied {before after : List (Row H)} (reports : Reports names before after) :
    Emptied (before.map Row.toEntry) (after.map Row.toEntry) names := by
  refine ⟨reports.once,fun name => ?_⟩
  rw [filter_toEntry,filter_toEntry,reports.exact]
  simp

theorem Holds.refines (holds : Holds c rows) : Refines c (rows.map Row.toEntry) := by
  refine ⟨?_,?_,?_⟩
  · intro name
    rw [filter_toEntry,Channels.snapshot]
    cases found : c.byName[name]? with
    | none => simp [holds.absent name found]
    | some d => simp [(holds.stored name d found).1.snapshot]
  · intro id name owner
    rw [holds.index]
    constructor
    · rintro ⟨sub,found⟩
      obtain ⟨r,found,index⟩ := Option.map_eq_some_iff.mp found
      obtain ⟨member,id⟩ := (find?_eq_some_iff holds.distinct _ _).mp found
      simp only [Row.index,Prod.mk.injEq] at index
      exact ⟨r.toEntry,List.mem_map_of_mem member,id,index.1,index.2.2⟩
    · rintro ⟨e,member,rfl,rfl,rfl⟩
      obtain ⟨r,hr,rfl⟩ := List.mem_map.mp member
      exact ⟨r.sub,by rw [(find?_eq_some_iff holds.distinct _ _).mpr ⟨hr,rfl⟩]; rfl⟩
  · intro name d found
    obtain ⟨stores,occupied⟩ := holds.stored name d found
    rw [stores.subs]; simpa using occupied

theorem perform_sound (holds : Holds c rows) (op : Op H) (unused : ∀ id ∈ minted [op], ∀ r ∈ rows, r.id ≠ id)
    (clock : Nat) :
    ∃ c' report rows' clock', (c.perform op).run clock = some ((c',report),clock') ∧ Holds c' rows' ∧
      rows'.map Row.toEntry = flat (rows.map Row.toEntry) op ∧
      Answers (rows.map Row.toEntry) (flat (rows.map Row.toEntry) op) op report := by
  cases op with
  | subscribe name id owner generation handler =>
    obtain ⟨c',sub,clock',run,holds'⟩ := holds.subscribe name id owner generation handler
      (unused id (by simp [minted])) clock
    refine ⟨c',.first (decide (onChannel rows name = [])),_,clock',by simp [perform,run],holds',by simp [flat],?_⟩
    rw [Answers,filter_toEntry]
    simp
  | removeByOwner owner =>
    obtain ⟨c',names,clock',run,holds',reports⟩ := holds.removeByOwner owner clock
    have after : (rows.filter (·.owner != owner)).map Row.toEntry =
        flat (rows.map Row.toEntry) (.removeByOwner owner) := by
      rw [flat,List.filter_map]; rfl
    exact ⟨c',.emptied names,_,clock',by simp [perform,run],holds',after,after ▸ reports.emptied⟩
  | removeByIds ids =>
    obtain ⟨c',names,clock',run,holds',reports⟩ := holds.removeByIds ids clock
    have after : (rows.filter (fun r => !ids.contains r.id)).map Row.toEntry =
        flat (rows.map Row.toEntry) (.removeByIds ids) := by
      rw [flat,List.filter_map]; rfl
    exact ⟨c',.emptied names,_,clock',by simp [perform,run],holds',after,after ▸ reports.emptied⟩
  | removeByOwnerOn name owner =>
    obtain ⟨c',empty,clock',run,holds',reports⟩ := holds.removeByOwnerOn name owner clock
    have after : (rows.filter (fun r => r.name != name || r.owner != owner)).map Row.toEntry =
        flat (rows.map Row.toEntry) (.removeByOwnerOn name owner) := by
      rw [flat,List.filter_map]; rfl
    exact ⟨c',.nowEmpty empty,_,clock',by simp [perform,run],holds',after,after ▸ reports.emptied⟩
  | removeByName name =>
    obtain ⟨c',clock',run,holds'⟩ := holds.removeByName name clock
    refine ⟨c',.done,_,clock',by simp [perform,run],holds',?_,trivial⟩
    rw [flat,List.filter_map]; rfl
  | rename source target =>
    obtain ⟨c',rows',clock',run,holds',entries⟩ := holds.rename source target clock
    refine ⟨c',.done,rows',clock',by simp [perform,run],holds',?_,trivial⟩
    rw [entries,flat,filter_toEntry,List.filter_map,List.map_map]; rfl

/-- No operation invents a caller id. -/
theorem flat_ids (entries : List (Entry H)) (op : Op H) (e : Entry H) (member : e ∈ flat entries op) :
    e.id ∈ minted [op] ∨ ∃ old ∈ entries, old.id = e.id := by
  cases op with
  | subscribe name id owner generation handler =>
    rcases List.mem_append.mp member with member | member
    · exact .inr ⟨e,member,rfl⟩
    · rw [List.mem_singleton.mp member]; exact .inl (by simp [minted])
  | rename source target =>
    rcases List.mem_append.mp member with member | member
    · exact .inr ⟨e,List.mem_of_mem_filter member,rfl⟩
    · obtain ⟨old,hold,rfl⟩ := List.mem_map.mp member
      exact .inr ⟨old,List.mem_of_mem_filter hold,rfl⟩
  | removeByOwner _ => exact .inr ⟨e,List.mem_of_mem_filter member,rfl⟩
  | removeByIds _ => exact .inr ⟨e,List.mem_of_mem_filter member,rfl⟩
  | removeByOwnerOn _ _ => exact .inr ⟨e,List.mem_of_mem_filter member,rfl⟩
  | removeByName _ => exact .inr ⟨e,List.mem_of_mem_filter member,rfl⟩

theorem minted_cons (op : Op H) (ops : List (Op H)) : minted (op :: ops) = minted [op] ++ minted ops := by
  cases op <;> simp [minted]

theorem execute_refines (ops : List (Op H)) (holds : Holds c rows) (distinct : (minted ops).Nodup)
    (unused : ∀ id ∈ minted ops, ∀ r ∈ rows, r.id ≠ id) (clock : Nat) :
    ∃ c' reports clock', (execute ops c).run clock = some ((c',reports),clock') ∧
      Refines c' (ops.foldl flat (rows.map Row.toEntry)) ∧ AnswersAll (rows.map Row.toEntry) ops reports := by
  induction ops generalizing c rows clock with
  | nil => exact ⟨c,[],clock,rfl,holds.refines,trivial⟩
  | cons op ops ih =>
    rw [minted_cons] at distinct unused
    obtain ⟨c₁,report,rows₁,clock₁,run₁,holds₁,entries,answers⟩ := perform_sound holds op
      (fun id member => unused id (List.mem_append_left _ member)) clock
    obtain ⟨_,rest,apart⟩ := List.nodup_append.mp distinct
    have unused₁ : ∀ id ∈ minted ops, ∀ r ∈ rows₁, r.id ≠ id := by
      rintro id member r hr rfl
      have hr : r.toEntry ∈ flat (rows.map Row.toEntry) op := entries ▸ List.mem_map_of_mem hr
      rcases flat_ids _ op _ hr with new | ⟨old,hold,same⟩
      · exact apart _ new _ member rfl
      · obtain ⟨s,hs,rfl⟩ := List.mem_map.mp hold
        exact unused r.id (List.mem_append_right _ member) s hs same
    obtain ⟨c',reports,clock',run,refines,answersAll⟩ := ih holds₁ rest unused₁ clock₁
    refine ⟨c',report :: reports,clock',by simp [execute,run₁,run],?_,answers,?_⟩
    · rw [List.foldl_cons,← entries]; exact refines
    · rw [← entries]; exact answersAll

theorem new_holds (clock : Nat) : ∃ c, (new : Host (Channels H)).run clock = some (c,clock + 1) ∧ Holds c [] :=
  ⟨⟨∅,∅,clock + 1⟩,by simp [new],by simp,by simp [onChannel],by simp,.nil,.nil⟩

/-- Every run of the store with distinct caller ids never panics, is read back as the flat
list, and reports the first subscriber and the emptied channels exactly. -/
theorem refines_flat_list (ops : List (Op H)) (distinct : (minted ops).Nodup) (clock : Nat) :
    ∃ c reports clock', (new >>= execute ops).run clock = some ((c,reports),clock') ∧
      Refines c (ops.foldl flat []) ∧ AnswersAll [] ops reports := by
  obtain ⟨c₀,created,holds⟩ := new_holds (H := H) clock
  obtain ⟨c,reports,clock',run,refines,answers⟩ := execute_refines ops holds distinct (by simp) (clock + 1)
  exact ⟨c,reports,clock',by simp [created,run],refines,answers⟩

/-- Two plugins on one channel, a rename onto a taken name, and the removals that follow. -/
theorem refines_flat_list_renamed :
    let ops : List (Op Nat) := [.subscribe "a" 1 "p" 0 10,.subscribe "b" 2 "q" 0 20,.rename "a" "b",
      .removeByIds [2],.removeByOwner "p"]
    (minted ops).Nodup ∧ ∃ c reports clock', (new >>= execute ops).run 0 = some ((c,reports),clock') ∧
      Refines c (ops.foldl flat []) ∧ AnswersAll [] ops reports :=
  ⟨by decide,refines_flat_list _ (by decide) 0⟩

end Channels
end S2Script
