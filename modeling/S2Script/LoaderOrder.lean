import S2Script.GreedyOrder
import S2Script.LoaderFiles

/-! The load order of a batch: Kahn's loop takes the least plugin that waits for no other, so what
it leaves for the name order is exactly what a cycle holds back. -/
namespace S2Script.Loader

open GreedyOrder

section Edges

/-- The last row of the batch that publishes the interface. -/
def lastPublisher (batch : List BatchEntry) (iface : String) : Option String :=
  (batch.reverse.find? fun entry => iface ∈ entry.2.2).map Prod.fst

/-- The consumer has a hard dependency on what the producer, another plugin, publishes last. -/
def Needs (batch : List BatchEntry) (producer consumer : String) : Prop :=
  ∃ entry ∈ batch, entry.1 = consumer ∧ ∃ dep ∈ entry.2.1, lastPublisher batch dep = some producer ∧ producer ≠ consumer

theorem mem_dependencyEdges (batch : List BatchEntry) (producer consumer : String) :
    (producer,consumer) ∈ dependencyEdges batch ↔ Needs batch producer consumer := by
  have edge : ∀ (id dep : String), ((batch.reverse.find? fun entry => dep ∈ entry.2.2).bind fun found =>
      if found.1 = id then none else some (found.1,id)) = some (producer,consumer) ↔
        lastPublisher batch dep = some producer ∧ producer ≠ id ∧ id = consumer := by
    intro id dep
    rw [lastPublisher]
    cases batch.reverse.find? fun entry => dep ∈ entry.2.2 with
    | some found =>
      rw [Option.map_some,Option.bind_some]
      split
      · next same => simp only [reduceCtorEq,false_iff,same]; rintro ⟨⟨⟩,apart,_⟩; exact apart rfl
      · next apart =>
        simp only [Option.some.injEq,Prod.mk.injEq]
        constructor
        · rintro ⟨rfl,rfl⟩
          exact ⟨rfl,apart,rfl⟩
        · rintro ⟨rfl,_,rfl⟩
          exact ⟨rfl,rfl⟩
    | none => simp
  have edges : dependencyEdges batch = batch.flatMap fun entry => entry.2.1.filterMap fun dep =>
      (batch.reverse.find? fun other => dep ∈ other.2.2).bind fun found =>
        if found.1 = entry.1 then none else some (found.1,entry.1) := by
    refine congrArg (batch.flatMap ·) (funext fun entry => congrArg (entry.2.1.filterMap ·) (funext fun dep => ?_))
    cases batch.reverse.find? fun other => dep ∈ other.2.2 <;> rfl
  rw [edges,List.mem_flatMap]
  constructor
  · rintro ⟨⟨id,deps,publishes⟩,member,inside⟩
    obtain ⟨dep,listed,same⟩ := List.mem_filterMap.mp inside
    obtain ⟨last,apart,rfl⟩ := (edge id dep).mp same
    exact ⟨_,member,rfl,dep,listed,last,apart⟩
  · rintro ⟨⟨id,deps,publishes⟩,member,rfl,dep,listed,last,apart⟩
    exact ⟨_,member,List.mem_filterMap.mpr ⟨dep,listed,(edge id dep).mpr ⟨last,apart,rfl⟩⟩⟩

theorem lastPublisher_mem {batch : List BatchEntry} {iface producer : String} (last : lastPublisher batch iface = some producer) :
    ∃ entry ∈ batch, entry.1 = producer ∧ iface ∈ entry.2.2 := by
  obtain ⟨entry,found,same⟩ := Option.map_eq_some_iff.mp last
  have publishes := List.find?_some found
  exact ⟨entry,List.mem_reverse.mp (List.mem_of_find?_eq_some found),same,of_decide_eq_true publishes⟩

theorem Needs.producer {batch : List BatchEntry} {producer consumer : String} (needs : Needs batch producer consumer) :
    producer ∈ batch.map Prod.fst := by
  obtain ⟨_,_,_,dep,_,last,_⟩ := needs
  obtain ⟨entry,member,rfl,_⟩ := lastPublisher_mem last
  exact List.mem_map_of_mem member

theorem Needs.consumer {batch : List BatchEntry} {producer consumer : String} (needs : Needs batch producer consumer) :
    consumer ∈ batch.map Prod.fst := by
  obtain ⟨entry,member,rfl,_⟩ := needs
  exact List.mem_map_of_mem member

end Edges

section Loop

/-- The edges into a vertex whose source is not taken yet. -/
def openEdges (edges : List (String × String)) (taken : List String) (v : String) : Nat :=
  edges.countP fun edge => edge.2 = v ∧ edge.1 ∉ taken

def consumersOf (edges : List (String × String)) (producer : String) : List String :=
  (edges.filter (·.1 = producer)).map Prod.snd

theorem openEdges_zero {edges : List (String × String)} {taken : List String} {v : String} :
    openEdges edges taken v = 0 ↔ ∀ p, (p,v) ∈ edges → p ∈ taken := by
  rw [openEdges,List.countP_eq_zero]
  constructor
  · intro none p member
    by_contra out
    exact none (p,v) member (decide_eq_true ⟨rfl,out⟩)
  · rintro all ⟨p,c⟩ member found
    obtain ⟨rfl,out⟩ := of_decide_eq_true found
    exact out (all p member)

/-- Taking a vertex closes the edges to its consumers. -/
theorem openEdges_take (edges : List (String × String)) {taken : List String} {next : String} (fresh : next ∉ taken) (v : String) :
    openEdges edges taken v = openEdges edges (next :: taken) v + (consumersOf edges next).count v := by
  induction edges with
  | nil => rfl
  | cons edge rest ih =>
    obtain ⟨p,c⟩ := edge
    simp only [openEdges,consumersOf,List.countP_cons,List.filter_cons] at ih ⊢
    rw [ih]
    by_cases source : p = next
    · subst source
      by_cases target : c = v
      · simp [target,fresh]
        omega
      · simp [target]
    · by_cases target : c = v <;> by_cases old : p ∈ taken <;> simp [source,target,old]
      omega

theorem releaseConsumers_spec (consumers : List String) (indegree : String → Nat) (enough : ∀ v, consumers.count v ≤ indegree v) :
    (∀ v, (releaseConsumers consumers indegree).2 v = indegree v - consumers.count v) ∧
      (∀ v, v ∈ (releaseConsumers consumers indegree).1 ↔ v ∈ consumers ∧ indegree v = consumers.count v) ∧
      (releaseConsumers consumers indegree).1.Nodup := by
  induction consumers generalizing indegree with
  | nil => exact ⟨fun _ => rfl,fun _ => ⟨fun none => (nomatch none),fun none => nomatch none.1⟩,List.nodup_nil⟩
  | cons c rest ih =>
    have own := enough c
    rw [List.count_cons_self] at own
    have fewer : ∀ v, rest.count v ≤ Function.update indegree c (indegree c - 1) v := by
      intro v
      by_cases same : v = c
      · rw [same,Function.update_self]
        omega
      · rw [Function.update_of_ne same]
        have count := enough v
        rwa [List.count_cons_of_ne (Ne.symm same)] at count
    obtain ⟨left,zero,distinct⟩ := ih _ fewer
    have others : ∀ v, v ≠ c → Function.update indegree c (indegree c - 1) v = indegree v := fun v apart =>
      Function.update_of_ne apart _ _
    simp only [releaseConsumers]
    refine ⟨fun v => ?_,fun v => ?_,?_⟩
    · rw [left]
      by_cases same : v = c
      · rw [same,Function.update_self,List.count_cons_self]
        omega
      · rw [others v same,List.count_cons_of_ne (Ne.symm same)]
    · by_cases same : v = c
      · subst same
        have inRest := zero v
        rw [Function.update_self] at inRest
        rw [List.count_cons_self]
        split
        · simp only [List.mem_cons_self,true_and,true_iff]
          omega
        · rw [inRest]
          simp only [List.mem_cons_self,true_and]
          refine ⟨fun found => by omega,fun found => ⟨List.count_pos_iff.mp (by omega),by omega⟩⟩
      · have inRest := zero v
        rw [others v same] at inRest
        rw [List.count_cons_of_ne (Ne.symm same)]
        have cons : v ∈ c :: rest ↔ v ∈ rest := by simp [same]
        split <;> simp [same,inRest]
    · split
      · next none =>
        refine List.nodup_cons.mpr ⟨fun found => ?_,distinct⟩
        obtain ⟨inRest,exact⟩ := (zero c).mp found
        rw [Function.update_self,none] at exact
        exact absurd (List.count_pos_iff.mpr inRest) (by omega)
      · exact distinct

/-- Kahn's loop between two rounds: the indegrees count the open edges, and what is ready is what
waits for nothing, in order. -/
structure Rounds (edges : List (String × String)) (vertices taken ready : List String) (indegree : String → Nat) : Prop where
  counts : ∀ v, indegree v = openEdges edges taken v
  waiting : ∀ v, v ∈ ready ↔ v ∈ vertices ∧ Available (fun p c => (p,c) ∈ edges) taken v
  sorted : ready.Pairwise (· ≤ ·)
  distinct : ready.Nodup
  closed : ∀ v ∈ taken, ∀ p, (p,v) ∈ edges → p ∈ taken

variable {edges : List (String × String)} {vertices taken ready : List String} {indegree : String → Nat} {next : String}

/-- A round takes the first that is ready, and readies whom it alone held back. -/
theorem Rounds.take (rounds : Rounds edges vertices taken (next :: ready) indegree)
    (inside : ∀ p c, (p,c) ∈ edges → c ∈ vertices ∧ p ≠ c) :
    Rounds edges vertices (next :: taken)
      ((ready ++ (releaseConsumers (consumersOf edges next) indegree).1).insertionSort (· ≤ ·))
      (releaseConsumers (consumersOf edges next) indegree).2 := by
  obtain ⟨_,fresh,needs⟩ := (rounds.waiting next).mp List.mem_cons_self
  have split := openEdges_take edges fresh
  have enough : ∀ v, (consumersOf edges next).count v ≤ indegree v := by
    intro v
    rw [rounds.counts,split]
    omega
  obtain ⟨left,zero,distinct⟩ := releaseConsumers_spec (consumersOf edges next) indegree enough
  have consumer : ∀ v, v ∈ consumersOf edges next ↔ (next,v) ∈ edges := by
    intro v
    rw [consumersOf,List.mem_map]
    constructor
    · rintro ⟨⟨p,c⟩,member,rfl⟩
      obtain ⟨inEdges,same⟩ := List.mem_filter.mp member
      exact of_decide_eq_true same ▸ inEdges
    · exact fun member => ⟨_,List.mem_filter.mpr ⟨member,decide_eq_true rfl⟩,rfl⟩
  have old : ∀ v, v ∈ ready ↔ v ≠ next ∧ v ∈ vertices ∧ Available (fun p c => (p,c) ∈ edges) taken v := by
    intro v
    rw [← rounds.waiting,List.mem_cons]
    have apart := (List.nodup_cons.mp rounds.distinct).1
    constructor
    · exact fun member => ⟨fun same => apart (same ▸ member),.inr member⟩
    · exact fun found => found.2.resolve_left found.1
  have freed : ∀ v, v ∈ (releaseConsumers (consumersOf edges next) indegree).1 ↔
      (next,v) ∈ edges ∧ ∀ p, (p,v) ∈ edges → p ∈ next :: taken := by
    intro v
    rw [zero,consumer,rounds.counts,split,← openEdges_zero]
    exact and_congr_right fun _ => ⟨fun same => by omega,fun none => by omega⟩
  have members : ∀ v, v ∈ ready ++ (releaseConsumers (consumersOf edges next) indegree).1 ↔
      v ∈ vertices ∧ Available (fun p c => (p,c) ∈ edges) (next :: taken) v := by
    intro v
    rw [List.mem_append,old,freed]
    constructor
    · rintro (⟨apart,inVertices,out,all⟩ | ⟨held,all⟩)
      · exact ⟨inVertices,fun member => (List.mem_cons.mp member).elim apart out,fun p needed => List.mem_cons_of_mem next (all p needed)⟩
      · refine ⟨(inside next v held).1,fun member => ?_,all⟩
        rcases List.mem_cons.mp member with rfl | inTaken
        · exact (inside v v held).2 rfl
        · exact fresh (rounds.closed v inTaken next held)
    · rintro ⟨inVertices,out,all⟩
      rw [List.mem_cons,not_or] at out
      by_cases held : (next,v) ∈ edges
      · exact .inr ⟨held,all⟩
      · refine .inl ⟨out.1,inVertices,out.2,fun p needed => ?_⟩
        rcases List.mem_cons.mp (all p needed) with rfl | inTaken
        · exact absurd needed held
        · exact inTaken
  have perm := List.perm_insertionSort (· ≤ ·) (ready ++ (releaseConsumers (consumersOf edges next) indegree).1)
  refine ⟨fun v => ?_,fun v => perm.mem_iff.trans (members v),List.pairwise_insertionSort (· ≤ ·) _,?_,fun v member p needed => ?_⟩
  · rw [left,rounds.counts,split]
    omega
  · refine perm.nodup_iff.mpr (List.nodup_append'.mpr ⟨(List.nodup_cons.mp rounds.distinct).2,distinct,fun v inReady inFreed => ?_⟩)
    exact fresh (((old v).mp inReady).2.2.2 next ((freed v).mp inFreed).1)
  · rcases List.mem_cons.mp member with rfl | inTaken
    · exact List.mem_cons_of_mem _ (needs p needed)
    · exact List.mem_cons_of_mem _ (rounds.closed v inTaken p needed)

/-- A vertex that is taken leaves fewer. -/
theorem left_lt (inVertices : next ∈ vertices) (out : next ∉ taken) :
    (vertices.filter (· ∉ next :: taken)).length < (vertices.filter (· ∉ taken)).length := by
  have sub : (vertices.filter (· ∉ next :: taken)) = (vertices.filter (· ∉ taken)).filter (· ≠ next) := by
    rw [List.filter_filter]
    refine List.filter_congr fun v _ => ?_
    simp
  rw [sub,List.length_filter_lt_length_iff_exists]
  exact ⟨next,List.mem_filter.mpr ⟨inVertices,decide_eq_true out⟩,by simp⟩

/-- No vertex has more open edges from the next one than its count. -/
theorem Rounds.enough (rounds : Rounds edges vertices taken (next :: ready) indegree) (v : String) :
    (consumersOf edges next).count v ≤ indegree v := by
  obtain ⟨_,fresh,_⟩ := (rounds.waiting next).mp List.mem_cons_self
  rw [rounds.counts,openEdges_take edges fresh]
  omega

/-- The loop emits the greedy order. -/
theorem Rounds.greedy (rounds : Rounds edges vertices taken ready indegree)
    (inside : ∀ p c, (p,c) ∈ edges → c ∈ vertices ∧ p ≠ c) (fuel : Nat) (enough : (vertices.filter (· ∉ taken)).length ≤ fuel) :
    Greedy (fun p c => (p,c) ∈ edges) vertices taken (emitReady edges fuel ready indegree) := by
  induction fuel generalizing taken ready indegree with
  | zero =>
    intro v inVertices available
    have out := List.filter_eq_nil_iff.mp (List.eq_nil_of_length_eq_zero (Nat.le_zero.mp enough)) v inVertices
    exact out (decide_eq_true available.1)
  | succ fuel ih =>
    cases ready with
    | nil =>
      intro v inVertices available
      exact nomatch (rounds.waiting v).mpr ⟨inVertices,available⟩
    | cons next ready =>
      obtain ⟨inVertices,available⟩ := (rounds.waiting next).mp List.mem_cons_self
      refine ⟨inVertices,available,fun w listed waits => ?_,ih (rounds.take inside) ?_⟩
      · rcases List.mem_cons.mp ((rounds.waiting w).mpr ⟨listed,waits⟩) with rfl | later
        · exact le_refl _
        · exact (List.pairwise_cons.mp rounds.sorted).1 w later
      · have fewer := left_lt inVertices available.1
        omega

end Loop

section Order

variable {batch : List BatchEntry}

/-- The order Kahn's loop emits for a batch. -/
def emitted (batch : List BatchEntry) : List String :=
  emitReady (dependencyEdges batch) batch.length
    (((batch.map Prod.fst).filter fun id => ((dependencyEdges batch).filter (·.2 = id)).length = 0).insertionSort (· ≤ ·))
    fun id => ((dependencyEdges batch).filter (·.2 = id)).length

theorem start_rounds (distinct : (batch.map Prod.fst).Nodup) : Rounds (dependencyEdges batch) (batch.map Prod.fst) []
    (((batch.map Prod.fst).filter fun id => ((dependencyEdges batch).filter (·.2 = id)).length = 0).insertionSort (· ≤ ·))
    fun id => ((dependencyEdges batch).filter (·.2 = id)).length := by
  have counts : ∀ v, ((dependencyEdges batch).filter (·.2 = v)).length = openEdges (dependencyEdges batch) [] v := by
    intro v
    rw [openEdges,List.countP_eq_length_filter]
    congr 2
    funext edge
    simp
  have perm := List.perm_insertionSort (· ≤ ·)
    ((batch.map Prod.fst).filter fun id => ((dependencyEdges batch).filter (·.2 = id)).length = 0)
  refine ⟨counts,fun v => ?_,List.pairwise_insertionSort (· ≤ ·) _,perm.nodup_iff.mpr (distinct.filter _),fun _ none => nomatch none⟩
  rw [perm.mem_iff,List.mem_filter,decide_eq_true_eq,counts,openEdges_zero]
  exact and_congr_right fun _ => ⟨fun none => ⟨List.not_mem_nil,none⟩,fun available => available.2⟩

theorem emitted_greedy (distinct : (batch.map Prod.fst).Nodup) :
    Greedy (Needs batch) (batch.map Prod.fst) [] (emitted batch) := by
  have edge : (fun p c => (p,c) ∈ dependencyEdges batch) = Needs batch := by
    funext p c
    exact propext (mem_dependencyEdges batch p c)
  rw [← edge]
  refine (start_rounds distinct).greedy (fun p c member => ?_) batch.length ?_
  · have needs := (mem_dependencyEdges batch p c).mp member
    obtain ⟨_,_,_,_,_,_,apart⟩ := id needs
    exact ⟨needs.consumer,apart⟩
  · exact (List.length_filter_le _ _).trans (by rw [List.length_map])

/-- What the loop leaves out follows in name order. -/
def leftOut (batch : List BatchEntry) : List String := ((batch.map Prod.fst).filter (· ∉ emitted batch)).insertionSort (· ≤ ·)

theorem topoOrder_eq (distinct : (batch.map Prod.fst).Nodup) : topoOrder batch = emitted batch ++ leftOut batch := by
  have greedy := emitted_greedy distinct
  have apart := greedy.topological.apart.2
  have ordered : topoOrder batch = if (emitted batch).length ≠ batch.length then emitted batch ++ leftOut batch else emitted batch := rfl
  rw [ordered]
  split
  · rfl
  · next whole =>
    -- as many as there are rows, so every row's id
    have all : leftOut batch = [] := by
      have subset : emitted batch ⊆ batch.map Prod.fst := fun v member => greedy.subset v member
      have perm := (List.subperm_of_subset apart subset).perm_of_length_le (by rw [List.length_map]; omega)
      have none : (batch.map Prod.fst).filter (· ∉ emitted batch) = [] :=
        List.filter_eq_nil_iff.mpr fun v member => by simp [perm.mem_iff.mpr member]
      rw [leftOut,none]
      rfl
    rw [all,List.append_nil]

theorem emitted_mem (distinct : (batch.map Prod.fst).Nodup) (id : String) :
    id ∈ emitted batch ↔ id ∈ batch.map Prod.fst ∧ ¬Blocked (Needs batch) id :=
  (emitted_greedy distinct).mem_iff (fun _ _ needs => needs.producer) id

theorem leftOut_mem (distinct : (batch.map Prod.fst).Nodup) (id : String) :
    id ∈ leftOut batch ↔ id ∈ batch.map Prod.fst ∧ Blocked (Needs batch) id := by
  rw [leftOut,(List.perm_insertionSort _ _).mem_iff,List.mem_filter,decide_eq_true_eq,emitted_mem distinct]
  constructor
  · rintro ⟨member,out⟩
    exact ⟨member,by_contra fun free => out ⟨member,free⟩⟩
  · exact fun found => ⟨found.1,fun emits => emits.2 found.2⟩

theorem leftOut_sorted (distinct : (batch.map Prod.fst).Nodup) : (leftOut batch).Pairwise (· < ·) := by
  have sorted : (leftOut batch).Pairwise (· ≤ ·) := List.pairwise_insertionSort (· ≤ ·) _
  have apart : (leftOut batch).Nodup := (List.perm_insertionSort _ _).nodup_iff.mpr (distinct.filter _)
  exact (sorted.and apart).imp fun both => lt_of_le_of_ne both.1 both.2

/-- The edges among the plugins that no cycle holds back. -/
def FreeNeeds (batch : List BatchEntry) (producer consumer : String) : Prop :=
  Needs batch producer consumer ∧ ¬Blocked (Needs batch) producer ∧ ¬Blocked (Needs batch) consumer

theorem emitted_least (distinct : (batch.map Prod.fst).Nodup) {other : List String} (topological : Topological (FreeNeeds batch) [] other)
    (perm : other.Perm (emitted batch)) : emitted batch = other ∨ List.Lex (· < ·) (emitted batch) other := by
  refine (emitted_greedy distinct).least (topological.congr fun c member p needs => ?_) perm
  have free := ((emitted_mem distinct c).mp (perm.mem_iff.mp member)).2
  exact ⟨needs,fun blocked => free (blocked.step needs),free⟩

/-- Rows in another order say the same where no two publish one interface. -/
theorem lastPublisher_perm {other : List BatchEntry} (perm : other.Perm batch)
    (single : ∀ a ∈ batch, ∀ b ∈ batch, ∀ iface ∈ a.2.2, iface ∈ b.2.2 → a.1 = b.1) (iface : String) :
    lastPublisher other iface = lastPublisher batch iface := by
  have agree : ∀ rows : List BatchEntry, (∀ entry, entry ∈ rows ↔ entry ∈ batch) → ∀ producer,
      lastPublisher rows iface = some producer ↔ ∃ entry ∈ batch, entry.1 = producer ∧ iface ∈ entry.2.2 := by
    intro rows same producer
    constructor
    · intro last
      obtain ⟨entry,member,found⟩ := lastPublisher_mem last
      exact ⟨entry,(same entry).mp member,found⟩
    · rintro ⟨entry,member,rfl,publishes⟩
      cases last : lastPublisher rows iface with
      | none =>
        rw [lastPublisher,Option.map_eq_none_iff,List.find?_eq_none] at last
        exact absurd (decide_eq_true publishes) (last entry (List.mem_reverse.mpr ((same entry).mpr member)))
      | some found =>
        obtain ⟨row,inRows,rfl,also⟩ := lastPublisher_mem last
        rw [single row ((same row).mp inRows) entry member iface also publishes]
  exact Option.ext fun producer => (agree other (fun _ => perm.mem_iff) producer).trans (agree batch (fun _ => .rfl) producer).symm

theorem topoOrder_perm (distinct : (batch.map Prod.fst).Nodup) {other : List BatchEntry} (perm : other.Perm batch)
    (single : ∀ a ∈ batch, ∀ b ∈ batch, ∀ iface ∈ a.2.2, iface ∈ b.2.2 → a.1 = b.1) : topoOrder other = topoOrder batch := by
  have again : (other.map Prod.fst).Nodup := (perm.map Prod.fst).nodup_iff.mpr distinct
  have needs : ∀ p c, Needs other p c ↔ Needs batch p c := by
    intro p c
    simp only [Needs,lastPublisher_perm perm single,perm.mem_iff]
  have ids : ∀ id, id ∈ other.map Prod.fst ↔ id ∈ batch.map Prod.fst := fun _ => (perm.map Prod.fst).mem_iff
  have same : emitted other = emitted batch := (emitted_greedy again).unique needs ids (emitted_greedy distinct)
  have rest : leftOut other = leftOut batch := by
    rw [leftOut,leftOut,same]
    exact List.Perm.eq_of_pairwise' (List.pairwise_insertionSort (· ≤ ·) _) (List.pairwise_insertionSort (· ≤ ·) _)
      ((List.perm_insertionSort _ _).trans (((perm.map Prod.fst).filter _).trans (List.perm_insertionSort _ _).symm))
  rw [topoOrder_eq again,topoOrder_eq distinct,same,rest]

/-- A batch loads in an order of all its ids. What no cycle holds back comes first, producers before
their consumers, in the least such order; the rest follows in name order. -/
theorem batch_loads_in_order (batch : List BatchEntry) (distinct : (batch.map Prod.fst).Nodup) :
    (topoOrder batch).Perm (batch.map Prod.fst) ∧
      (∀ producer consumer, Needs batch producer consumer → ¬Blocked (Needs batch) consumer →
        [producer,consumer].Sublist (topoOrder batch)) ∧
      (∃ free rest, topoOrder batch = free ++ rest ∧
        (∀ id, id ∈ free ↔ id ∈ batch.map Prod.fst ∧ ¬Blocked (Needs batch) id) ∧
        (∀ id, id ∈ rest ↔ id ∈ batch.map Prod.fst ∧ Blocked (Needs batch) id) ∧
        Topological (FreeNeeds batch) [] free ∧
        (∀ other : List String, other.Perm free → Topological (FreeNeeds batch) [] other →
          free = other ∨ List.Lex (· < ·) free other) ∧
        rest.Pairwise (· < ·)) ∧
      ((∀ a ∈ batch, ∀ b ∈ batch, ∀ iface ∈ a.2.2, iface ∈ b.2.2 → a.1 = b.1) →
        ∀ other : List BatchEntry, other.Perm batch → topoOrder other = topoOrder batch) := by
  have greedy := emitted_greedy distinct
  have free := emitted_mem distinct
  have held := leftOut_mem distinct
  have order := topoOrder_eq distinct
  refine ⟨?_,fun p c needs unblocked => ?_,⟨emitted batch,leftOut batch,order,free,held,?_,?_,leftOut_sorted distinct⟩,
    fun single other perm => topoOrder_perm distinct perm single⟩
  · have nodup : (topoOrder batch).Nodup := by
      rw [order]
      refine List.nodup_append'.mpr ⟨greedy.topological.apart.2,(leftOut_sorted distinct).imp ne_of_lt,fun id emits out => ?_⟩
      exact ((free id).mp emits).2 ((held id).mp out).2
    refine (List.perm_ext_iff_of_nodup nodup distinct).mpr fun id => ?_
    rw [order,List.mem_append,free,held]
    tauto
  · have emits := (free c).mpr ⟨needs.consumer,unblocked⟩
    rcases greedy.topological.before needs emits with none | inOrder
    · exact nomatch none
    · rw [order]
      exact inOrder.trans (List.sublist_append_left _ _)
  · exact greedy.topological.congr fun _ _ _ needs => needs.1
  · exact fun other perm topological => emitted_least distinct topological perm

/-- Two plugins in a cycle, one that waits for it, and two that load first. -/
theorem batch_loads_in_order_cycle :
    let batch : List BatchEntry := [("d",["c"],[]),("c",["e"],["c"]),("e",["c"],["e"]),("b",["a"],[]),("a",["a"],["a"])]
    topoOrder batch = ["a","b","c","d","e"] ∧ (topoOrder batch).Perm (batch.map Prod.fst) :=
  ⟨by decide +kernel,(batch_loads_in_order _ (by decide)).1⟩

end Order

end S2Script.Loader
