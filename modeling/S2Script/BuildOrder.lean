import S2Script.LoaderOrder

/-! The order in which the SDK builds a workspace: its own loop over the dependency graph, which takes
the plugins in the order the host's loop loads them. -/
namespace S2Script.BuildOrder

open Loader (BatchEntry dependencyEdges emitReady releaseConsumers)

structure GraphNode where
  id : String
  dependsOn : List String
  publishes : List String
deriving DecidableEq, Repr

section Sorting

/-- The UTF-16 code units of a character. -/
def codeUnits (c : Char) : List Nat :=
  if c.toNat < 0x10000 then [c.toNat]
  else [0xd800 + (c.toNat - 0x10000) / 0x400,0xdc00 + (c.toNat - 0x10000) % 0x400]

/-- Strings compare by their code units. -/
def notAfter (a b : String) : Prop := a.toList.flatMap codeUnits ≤ b.toList.flatMap codeUnits

instance : DecidableRel notAfter := fun a b =>
  inferInstanceAs (Decidable (a.toList.flatMap codeUnits ≤ b.toList.flatMap codeUnits))

/-- `Array.prototype.sort` of strings. -/
def sort (ids : List String) : List String := ids.insertionSort notAfter

end Sorting

section Graph

/-- `producerOf`: the last publisher of an interface is set over the others. -/
def producerOf (batch : List GraphNode) : String → Option String :=
  batch.foldl (fun m node => node.publishes.foldl (fun m iface => Function.update m iface (some node.id)) m) fun _ => none

/-- The keys of a map in the order they were first set. -/
def setKey (keys : List String) (id : String) : List String := if id ∈ keys then keys else keys ++ [id]

/-- `consumersOf`, where a producer without a list has none, and `indegree`. -/
structure Degrees where
  consumersOf : String → List String
  indegree : String → Int

/-- An edge from a producer to a node that depends on it. -/
def Degrees.push (g : Degrees) (producer id : String) : Degrees where
  consumersOf := Function.update g.consumersOf producer (g.consumersOf producer ++ [id])
  indegree := Function.update g.indegree id (g.indegree id + 1)

/-- One dependency of a node. A plugin that depends on its own interface has no edge. -/
def addDependency (producer : String → Option String) (id : String) (g : Degrees) (dep : String) : Degrees :=
  match producer dep with
  | none => g
  | some p => if p = id then g else g.push p id

def degrees (batch : List GraphNode) : Degrees :=
  batch.foldl (fun g node => node.dependsOn.foldl (addDependency (producerOf batch) node.id) g) ⟨fun _ => [],fun _ => 0⟩

end Graph

section Loop

/-- The ready list while the consumers of a node are counted down. -/
structure Ready where
  ready : List String
  indegree : String → Int
  grew : Bool

def release (r : Ready) (c : String) : Ready :=
  let d := r.indegree c - 1
  { ready := if d = 0 then r.ready ++ [c] else r.ready
    indegree := Function.update r.indegree c (max 0 d)
    grew := r.grew || d = 0 }

/-- The loop; `none` if it is not done after so many rounds. -/
def emit (consumersOf : String → List String) : Nat → List String → (String → Int) → Option (List String)
  | _,[],_ => some []
  | 0,_ :: _,_ => none
  | fuel + 1,next :: ready,indegree =>
    if consumersOf next = [] then (emit consumersOf fuel ready indegree).map (next :: ·)
    else
      let r := (consumersOf next).foldl release ⟨ready,indegree,false⟩
      (emit consumersOf fuel (if r.grew then sort r.ready else r.ready) r.indegree).map (next :: ·)

/-- The order, and the ids that a warning names. -/
structure Order where
  order : List String
  warned : Option (List String)
deriving DecidableEq, Repr

/-- `topoOrder`; as many rounds as there are nodes are enough. -/
def topoOrder (batch : List GraphNode) : Option Order :=
  let g := degrees batch
  let keys := (batch.map GraphNode.id).foldl setKey []
  (emit g.consumersOf batch.length (sort (keys.filter fun id => g.indegree id = 0)) g.indegree).map fun order =>
    if order.length ≠ batch.length then
      let remaining := sort ((batch.map GraphNode.id).filter (· ∉ order))
      ⟨order ++ remaining,some remaining⟩
    else ⟨order,none⟩

end Loop

section Ascii

def Ascii (id : String) : Prop := ∀ c ∈ id.toList, c.toNat < 128

theorem codeUnits_ascii {id : String} (ascii : Ascii id) : id.toList.flatMap codeUnits = id.toList.map Char.toNat := by
  have single : ∀ letters : List Char, (∀ c ∈ letters, c.toNat < 128) →
      letters.flatMap codeUnits = letters.map Char.toNat := by
    intro letters
    induction letters with
    | nil => intro _; rfl
    | cons c rest ih =>
      intro ascii
      have small : c.toNat < 0x10000 := Nat.lt_trans (ascii c List.mem_cons_self) (by decide)
      have later := ih fun d member => ascii d (List.mem_cons_of_mem c member)
      simp only [List.flatMap_cons,codeUnits,if_pos small,List.map_cons,later,List.singleton_append]
  exact single id.toList ascii

/-- Code units order ASCII ids as bytes do. -/
theorem notAfter_iff {a b : String} (asciiA : Ascii a) (asciiB : Ascii b) : notAfter a b ↔ a ≤ b := by
  have grows : ∀ {x y : List Char}, x < y → x.map Char.toNat < y.map Char.toNat := List.map_lt fun _ _ less => less
  simp only [notAfter,codeUnits_ascii asciiA,codeUnits_ascii asciiB,String.le_iff_toList_le]
  constructor
  · intro units
    by_contra after
    exact absurd (grows (not_le.mp after)) (not_lt.mpr units)
  · intro before
    rcases lt_or_eq_of_le before with less | same
    · exact le_of_lt (grows less)
    · exact le_of_eq (congrArg _ same)

theorem sort_ascii {ids : List String} (ascii : ∀ id ∈ ids, Ascii id) : sort ids = ids.insertionSort (· ≤ ·) := by
  have same := List.map_insertionSort notAfter (· ≤ ·) id ids fun a inA b inB => notAfter_iff (ascii a inA) (ascii b inB)
  simpa only [sort,List.map_id] using same

end Ascii

section Edges

def GraphNode.entry (node : GraphNode) : BatchEntry := (node.id,node.dependsOn,node.publishes)

theorem publish_foldl (id : String) : ∀ (publishes : List String) (m : String → Option String) (iface : String),
    publishes.foldl (fun m iface => Function.update m iface (some id)) m iface =
      if iface ∈ publishes then some id else m iface
  | [],_,_ => rfl
  | published :: rest,m,iface => by
    simp only [List.foldl_cons,publish_foldl id rest,List.mem_cons]
    by_cases later : iface ∈ rest
    · simp only [later,or_true,if_true]
    · by_cases same : iface = published
      · subst same
        simp only [later,if_false,Function.update_self,or_false,if_true]
      · simp only [later,if_false,Function.update_of_ne same,same,or_self]

/-- Both sides know the same producer of an interface. -/
theorem producerOf_eq (batch : List GraphNode) (iface : String) :
    producerOf batch iface = Loader.lastPublisher (batch.map GraphNode.entry) iface := by
  have any : ∀ (batch : List GraphNode) (m : String → Option String),
      batch.foldl (fun m node => node.publishes.foldl (fun m iface => Function.update m iface (some node.id)) m) m iface =
        (Loader.lastPublisher (batch.map GraphNode.entry) iface).or (m iface) := by
    intro batch
    induction batch with
    | nil => intro m; rfl
    | cons node rest ih =>
      intro m
      have split : Loader.lastPublisher ((node :: rest).map GraphNode.entry) iface =
          (Loader.lastPublisher (rest.map GraphNode.entry) iface).or
            (if iface ∈ node.publishes then some node.id else none) := by
        simp only [Loader.lastPublisher,List.map_cons,List.reverse_cons,List.find?_append,Option.map_or]
        congr 1
        by_cases published : iface ∈ node.publishes <;> simp [GraphNode.entry,published]
      simp only [List.foldl_cons,ih,publish_foldl,split,Option.or_assoc]
      congr 1
      split <;> rfl
  simpa only [producerOf,Option.or_none] using any batch fun _ => none

theorem push_foldl : ∀ (edges : List (String × String)) (g : Degrees),
    edges.foldl (fun g edge => g.push edge.1 edge.2) g =
      ⟨fun p => g.consumersOf p ++ Loader.consumersOf edges p,
        fun v => g.indegree v + ((edges.filter (·.2 = v)).length : Nat)⟩
  | [],g => by simp [Loader.consumersOf]
  | edge :: rest,g => by
    refine (push_foldl rest (g.push edge.1 edge.2)).trans ?_
    simp only [Degrees.push,Degrees.mk.injEq]
    constructor
    · funext p
      by_cases same : edge.1 = p
      · subst same
        simp [Loader.consumersOf]
      · simp [Loader.consumersOf,same,Function.update_of_ne (Ne.symm same)]
    · funext v
      by_cases same : edge.2 = v
      · subst same
        simp
        omega
      · simp [same,Function.update_of_ne (Ne.symm same)]

/-- The edges into one plugin. -/
def edgesInto (rows : List BatchEntry) (id : String) (deps : List String) : List (String × String) :=
  deps.filterMap fun dep =>
    match rows.reverse.find? (fun entry => dep ∈ entry.2.2) with
    | some (producer,_) => if producer = id then none else some (producer,id)
    | none => none

theorem addDependency_foldl (batch : List GraphNode) (id : String) : ∀ (deps : List String) (g : Degrees),
    deps.foldl (addDependency (producerOf batch) id) g =
      (edgesInto (batch.map GraphNode.entry) id deps).foldl (fun g edge => g.push edge.1 edge.2) g
  | [],_ => rfl
  | dep :: rest,g => by
    simp only [List.foldl_cons,addDependency_foldl batch id rest,addDependency,producerOf_eq,Loader.lastPublisher,
      edgesInto,List.filterMap_cons]
    cases found : (batch.map GraphNode.entry).reverse.find? (fun entry => dep ∈ entry.2.2) with
    | none => rfl
    | some entry =>
      by_cases self : entry.1 = id
      · simp only [Option.map_some,self,if_true]
      · simp only [Option.map_some,if_neg self,List.foldl_cons]

/-- Both sides count the same edges. -/
theorem degrees_eq (batch : List GraphNode) :
    degrees batch = ⟨Loader.consumersOf (dependencyEdges (batch.map GraphNode.entry)),
      fun v => (((dependencyEdges (batch.map GraphNode.entry)).filter (·.2 = v)).length : Nat)⟩ := by
  have all : ∀ (nodes : List GraphNode) (g : Degrees),
      nodes.foldl (fun g node => node.dependsOn.foldl (addDependency (producerOf batch) node.id) g) g =
        ((nodes.map GraphNode.entry).flatMap fun entry => edgesInto (batch.map GraphNode.entry) entry.1 entry.2.1).foldl
          (fun g edge => g.push edge.1 edge.2) g := by
    intro nodes
    induction nodes with
    | nil => intro g; rfl
    | cons node rest ih =>
      intro g
      refine (ih _).trans ?_
      simp only [addDependency_foldl,List.map_cons,List.flatMap_cons,List.foldl_append]
      rfl
  refine (all batch _).trans ((push_foldl _ _).trans ?_)
  simp only [List.nil_append,zero_add]
  rfl

end Edges

section Simulation

/-- Counting consumers down one at a time readies those the host's release readies, while no count goes
below zero. -/
theorem release_foldl : ∀ (consumers : List String) (ready : List String) (indegree : String → Nat) (grew : Bool),
    (∀ v, consumers.count v ≤ indegree v) →
    consumers.foldl release ⟨ready,fun v => indegree v,grew⟩ =
      ⟨ready ++ (releaseConsumers consumers indegree).1,fun v => (releaseConsumers consumers indegree).2 v,
        grew || (releaseConsumers consumers indegree).1 ≠ []⟩
  | [],ready,indegree,grew,_ => by simp [releaseConsumers]
  | c :: rest,ready,indegree,grew,enough => by
    have own := enough c
    simp only [List.count_cons_self] at own
    have fewer : ∀ v, rest.count v ≤ Function.update indegree c (indegree c - 1) v := by
      intro v
      by_cases same : v = c
      · subst same
        simp only [Function.update_self]
        omega
      · have others := enough v
        simp only [List.count_cons_of_ne (Ne.symm same)] at others
        simpa only [Function.update_of_ne same] using others
    have step : release ⟨ready,fun v => indegree v,grew⟩ c =
        ⟨if indegree c - 1 = 0 then ready ++ [c] else ready,
          fun v => (Function.update indegree c (indegree c - 1) v : Nat),grew || decide (indegree c - 1 = 0)⟩ := by
      have zero : ((indegree c : Int) - 1 = 0) = (indegree c - 1 = 0) := propext (by omega)
      simp only [release,zero,Ready.mk.injEq,true_and,and_true]
      funext v
      by_cases same : v = c
      · subst same
        simp only [Function.update_self]
        omega
      · simp only [Function.update_of_ne same]
    simp only [List.foldl_cons,step,release_foldl rest _ _ _ fewer,releaseConsumers]
    split
    · next zero => simp [zero]
    · next more => simp [more]

/-- The SDK's loop is done where the host's is, with the same order. -/
theorem emit_eq {edges : List (String × String)} {vertices : List String} (ascii : ∀ id ∈ vertices, Ascii id)
    (inside : ∀ p c, (p,c) ∈ edges → c ∈ vertices ∧ p ≠ c) :
    ∀ (fuel : Nat) (taken ready : List String) (indegree : String → Nat),
      Loader.Rounds edges vertices taken ready indegree → (vertices.filter (· ∉ taken)).length ≤ fuel →
      emit (Loader.consumersOf edges) fuel ready (fun v => indegree v) = some (emitReady edges fuel ready indegree)
  | 0,_,[],_,_,_ => rfl
  | _ + 1,_,[],_,_,_ => rfl
  | 0,taken,next :: ready,indegree,rounds,few => by
    obtain ⟨inVertices,out,_⟩ := (rounds.waiting next).mp List.mem_cons_self
    have none := List.eq_nil_of_length_eq_zero (Nat.le_zero.mp few)
    exact absurd (decide_eq_true out) (List.filter_eq_nil_iff.mp none next inVertices)
  | fuel + 1,taken,next :: ready,indegree,rounds,few => by
    obtain ⟨inVertices,out,_⟩ := (rounds.waiting next).mp List.mem_cons_self
    have later := rounds.take inside
    have fewer := Loader.left_lt inVertices out
    have ih := emit_eq ascii inside fuel _ _ _ later (by omega)
    have ordered : ready.insertionSort (· ≤ ·) = ready := (List.pairwise_cons.mp rounds.sorted).2.insertionSort_eq
    have emitted : emitReady edges (fuel + 1) (next :: ready) indegree = next :: emitReady edges fuel
        ((ready ++ (releaseConsumers (Loader.consumersOf edges next) indegree).1).insertionSort (· ≤ ·))
        (releaseConsumers (Loader.consumersOf edges next) indegree).2 := rfl
    simp only [emit,emitted,release_foldl _ ready indegree false rounds.enough,Bool.false_or]
    cases consumers : Loader.consumersOf edges next with
    | nil =>
      simp only [consumers,releaseConsumers,List.append_nil,ordered] at ih
      simp only [if_true,ih,Option.map_some,releaseConsumers,List.append_nil,ordered]
    | cons c rest =>
      simp only [consumers] at ih later
      have sorted : (if decide ((releaseConsumers (c :: rest) indegree).1 ≠ []) = true then
          sort (ready ++ (releaseConsumers (c :: rest) indegree).1)
          else ready ++ (releaseConsumers (c :: rest) indegree).1) =
          (ready ++ (releaseConsumers (c :: rest) indegree).1).insertionSort (· ≤ ·) := by
        split
        · refine sort_ascii fun id member => ascii id ?_
          have inside := (List.perm_insertionSort (· ≤ ·) _).mem_iff.mpr member
          exact ((later.waiting id).mp inside).1
        · next none =>
          have none : (releaseConsumers (c :: rest) indegree).1 = [] := by simpa using none
          simp only [none,List.append_nil,ordered]
      simp only [reduceCtorEq,if_false,sorted,ih,Option.map_some]

end Simulation

section Agreement

/-- The host warns where its loop leaves plugins out. -/
def hostWarns (batch : List BatchEntry) : Prop := (Loader.emitted batch).length ≠ batch.length

theorem setKey_foldl : ∀ (ids keys : List String), (keys ++ ids).Nodup → ids.foldl setKey keys = keys ++ ids
  | [],keys,_ => (List.append_nil keys).symm
  | id :: rest,keys,distinct => by
    have fresh : id ∉ keys := fun old => (List.nodup_append.mp distinct).2.2 id old id List.mem_cons_self rfl
    have grouped : keys ++ id :: rest = keys ++ [id] ++ rest := by simp
    simp only [List.foldl_cons,setKey,if_neg fresh]
    exact (setKey_foldl rest (keys ++ [id]) (grouped ▸ distinct)).trans grouped.symm

/-- The SDK's loop emits what the host's emits. -/
theorem emit_batch (batch : List GraphNode) (distinct : (batch.map GraphNode.id).Nodup)
    (ascii : ∀ id ∈ batch.map GraphNode.id, Ascii id) :
    emit (degrees batch).consumersOf batch.length
        (sort (((batch.map GraphNode.id).foldl setKey []).filter fun id => (degrees batch).indegree id = 0))
        (degrees batch).indegree = some (Loader.emitted (batch.map GraphNode.entry)) := by
  have ids : (batch.map GraphNode.entry).map Prod.fst = batch.map GraphNode.id := by simp [GraphNode.entry]
  have distinct' : ((batch.map GraphNode.entry).map Prod.fst).Nodup := by simpa only [ids] using distinct
  have rounds := Loader.start_rounds distinct'
  have inside : ∀ p c, (p,c) ∈ dependencyEdges (batch.map GraphNode.entry) →
      c ∈ (batch.map GraphNode.entry).map Prod.fst ∧ p ≠ c := by
    intro p c member
    have needs := (Loader.mem_dependencyEdges _ p c).mp member
    obtain ⟨_,_,_,_,_,_,apart⟩ := id needs
    exact ⟨needs.consumer,apart⟩
  have few : (((batch.map GraphNode.entry).map Prod.fst).filter (· ∉ ([] : List String))).length ≤ batch.length :=
    (List.length_filter_le _ _).trans (by simp)
  have same := emit_eq (by simpa only [ids] using ascii) inside batch.length _ _ _ rounds few
  simp only [degrees_eq,setKey_foldl _ [] (by simpa using distinct),List.nil_append,Int.natCast_eq_zero]
  have sorted := sort_ascii fun id (member : id ∈ (batch.map GraphNode.id).filter fun id =>
    ((dependencyEdges (batch.map GraphNode.entry)).filter (·.2 = id)).length = 0) => ascii id (List.mem_of_mem_filter member)
  simp only [sorted]
  simp only [ids] at same
  refine same.trans ?_
  simp only [Loader.emitted,List.length_map,ids]

/-- Build order is load order, and both warn of the same cycles. -/
theorem build_order_is_load_order (batch : List GraphNode) (distinct : (batch.map GraphNode.id).Nodup)
    (ascii : ∀ node ∈ batch, Ascii node.id) :
    ∃ o, topoOrder batch = some o ∧ o.order = Loader.topoOrder (batch.map GraphNode.entry) ∧
      (o.warned ≠ none ↔ hostWarns (batch.map GraphNode.entry)) ∧
      ∀ ids, o.warned = some ids → ids = Loader.leftOut (batch.map GraphNode.entry) := by
  have ids : (batch.map GraphNode.entry).map Prod.fst = batch.map GraphNode.id := by simp [GraphNode.entry]
  have asciiIds : ∀ id ∈ batch.map GraphNode.id, Ascii id := by
    intro id member
    obtain ⟨node,inside,rfl⟩ := List.mem_map.mp member
    exact ascii node inside
  have left : sort ((batch.map GraphNode.id).filter (· ∉ Loader.emitted (batch.map GraphNode.entry))) =
      Loader.leftOut (batch.map GraphNode.entry) := by
    refine (sort_ascii fun id member => asciiIds id (List.mem_of_mem_filter member)).trans ?_
    simp only [Loader.leftOut,ids]
  have host : Loader.topoOrder (batch.map GraphNode.entry) =
      if (Loader.emitted (batch.map GraphNode.entry)).length ≠ (batch.map GraphNode.entry).length then
        Loader.emitted (batch.map GraphNode.entry) ++ Loader.leftOut (batch.map GraphNode.entry)
      else Loader.emitted (batch.map GraphNode.entry) := rfl
  simp only [topoOrder,emit_batch batch distinct asciiIds,Option.map_some,left,host,hostWarns,List.length_map]
  refine ⟨_,rfl,?_⟩
  split
  · next partly => exact ⟨rfl,by simp [partly],fun ids same => (Option.some.inj same).symm⟩
  · next whole => exact ⟨rfl,by simp [Decidable.not_not.mp whole],fun ids none => by cases none⟩

/-- Two plugins in a cycle behind one that publishes what it needs itself. -/
theorem cycle_warns :
    let batch : List GraphNode := [⟨"chat",["bans","bans"],["chat"]⟩,⟨"bans",["chat"],["bans"]⟩,⟨"base",["base"],["base"]⟩]
    topoOrder batch = some ⟨["base","bans","chat"],some ["bans","chat"]⟩ ∧
      Loader.topoOrder (batch.map GraphNode.entry) = ["base","bans","chat"] := by
  intro batch
  have ascii : ∀ node ∈ batch, Ascii node.id := by simp [batch,Ascii]
  obtain ⟨o,ordered,same,-,-⟩ := build_order_is_load_order batch (by decide) ascii
  have computed : topoOrder batch = some ⟨["base","bans","chat"],some ["bans","chat"]⟩ := by decide
  cases computed.symm.trans ordered
  exact ⟨computed,same.symm⟩

end Agreement

end S2Script.BuildOrder
