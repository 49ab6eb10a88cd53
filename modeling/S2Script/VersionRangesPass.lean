import S2Script.VersionRangesGraph

/-! The range pass: what it decides for an edge, and the package.json files after it. -/
namespace S2Script.VersionRanges

section Decisions

/-- What becomes of an edge. -/
inductive Decision where
  | keep
  | skip (reason : Text)
  | rewrite (target : Text)

variable (satisfies : Text → Text → Bool) (releases : List ComprehensiveRelease) (config : Option BumpType)

def decision (edge : SiblingEdge) : Decision :=
  match releaseOf releases edge.producer with
  | none => .keep
  | some release =>
    if release.newVersion = release.oldVersion then .keep
    else if shouldUpdate satisfies release edge.range config = false then .keep
    else if isWildcardRange edge.range then .skip "range matches any version — left exactly as authored".toList
    else if simpleRange edge.range = false then
      .skip ("not a simple <operator><version> range — rewrite it by hand to track ".toList ++ release.newVersion)
    else if rangePrefix edge.range ++ release.newVersion = edge.range then .keep
    else .rewrite (rangePrefix edge.range ++ release.newVersion)

theorem visit_eq (pass : Pass) (edge : SiblingEdge) : pass.visit satisfies releases config edge =
    match decision satisfies releases config edge with
    | .keep => pass
    | .skip reason => pass.skip edge reason
    | .rewrite target => pass.rewrite edge target := by
  rw [Pass.visit,decision]
  cases releaseOf releases edge.producer with
  | none => rfl
  | some release =>
    simp only
    split_ifs <;> rfl

/-- The target of a dependency among the edits. -/
def edited (edits : List (Text × List (Text × Text))) (consumer iface : Text) : Option Text :=
  (getKey consumer edits).bind (getKey iface)

theorem getKey_setKey {V : Type} (key : Text) (value : V) (l : List (Text × V)) (k : Text) :
    getKey k (setKey key value l) = if k = key then some value else getKey k l := by
  induction l with
  | nil => by_cases same : k = key <;> simp [setKey,getKey,same,eq_comm]
  | cons p rest ih =>
    obtain ⟨k',v⟩ := p
    rw [setKey]
    split
    next same =>
      subst same
      by_cases here : k = k' <;> simp [getKey_cons,here,eq_comm]
    next different =>
      rw [getKey_cons,getKey_cons,ih]
      by_cases here : k' = k
      · subst here
        simp [different]
      · simp [here]

theorem edited_rewrite (pass : Pass) (edge : SiblingEdge) (target consumer iface : Text) :
    edited (pass.rewrite edge target).edits consumer iface =
      if consumer = edge.consumer ∧ iface = edge.iface then some target else edited pass.edits consumer iface := by
  rw [edited,Pass.rewrite,getKey_setKey]
  by_cases same : consumer = edge.consumer
  · subst same
    simp only [if_true,Option.bind_some,getKey_setKey,true_and]
    cases found : getKey edge.consumer pass.edits <;> simp [edited,found]
  · simp [same,edited]

/-- The skips and edits of the edges visited so far. -/
structure Passed (edges : List SiblingEdge) (pass : Pass) : Prop where
  skips : ∀ c i, (∃ s ∈ pass.skips, s.consumer = c ∧ s.iface = i) ↔
    ∃ e ∈ edges, e.consumer = c ∧ e.iface = i ∧ ∃ reason, decision satisfies releases config e = .skip reason
  edits : ∀ c i target, edited pass.edits c i = some target ↔
    ∃ e ∈ edges, e.consumer = c ∧ e.iface = i ∧ decision satisfies releases config e = .rewrite target
  keys : (pass.edits.map Prod.fst).Nodup
  each : ∀ entry ∈ pass.edits, (entry.2.map Prod.fst).Nodup ∧ entry.2 ≠ []

variable {satisfies releases config}

theorem setKey_mem {V : Type} {key : Text} {value : V} {l : List (Text × V)} {p : Text × V}
    (member : p ∈ setKey key value l) : p = (key,value) ∨ p ∈ l := by
  induction l with
  | nil => exact .inl (List.mem_singleton.mp member)
  | cons q rest ih =>
    obtain ⟨k,v⟩ := q
    rw [setKey] at member
    split at member
    next same =>
      rcases List.mem_cons.mp member with here | later
      · exact .inl (same ▸ here)
      · exact .inr (List.mem_cons_of_mem _ later)
    next =>
      rcases List.mem_cons.mp member with here | later
      · exact .inr (here ▸ List.mem_cons_self)
      · exact (ih later).imp id fun old => List.mem_cons_of_mem _ old

theorem setKey_ne_nil {V : Type} (key : Text) (value : V) (l : List (Text × V)) : setKey key value l ≠ [] := by
  cases l with
  | nil => simp [setKey]
  | cons p rest =>
    obtain ⟨k,v⟩ := p
    rw [setKey]
    split <;> simp

theorem Passed.visit {edges : List SiblingEdge} {pass : Pass} (passed : Passed satisfies releases config edges pass)
    {e : SiblingEdge} (new : ∀ e' ∈ edges, ¬(e'.consumer = e.consumer ∧ e'.iface = e.iface)) :
    Passed satisfies releases config (edges ++ [e]) (pass.visit satisfies releases config e) := by
  have grown : ∀ P : SiblingEdge → Prop, (∃ e' ∈ edges ++ [e], P e') ↔ (∃ e' ∈ edges, P e') ∨ P e := by
    simp [or_and_right,exists_or]
  rw [visit_eq]
  cases decided : decision satisfies releases config e with
  | keep =>
    refine ⟨fun c i => ?_,fun c i target => ?_,passed.keys,passed.each⟩
    · rw [grown,decided]
      simpa using passed.skips c i
    · rw [grown,decided]
      simpa using passed.edits c i target
  | skip reason =>
    refine ⟨fun c i => ?_,fun c i target => ?_,passed.keys,passed.each⟩
    · rw [grown,decided]
      have old := passed.skips c i
      simp only [Pass.skip,List.mem_append,List.mem_singleton,or_and_right,exists_or,old,exists_eq_left]
      simp
    · rw [grown,decided]
      simpa [Pass.skip] using passed.edits c i target
  | rewrite target =>
    refine ⟨fun c i => ?_,fun c i t => ?_,setKey_distinct _ _ passed.keys,fun entry member => ?_⟩
    · rw [grown,decided]
      simpa [Pass.rewrite] using passed.skips c i
    · rw [grown,decided,edited_rewrite]
      split
      next same =>
        obtain ⟨rfl,rfl⟩ := same
        constructor
        · intro equal
          exact .inr ⟨rfl,rfl,by rw [Option.some.inj equal]⟩
        · rintro (⟨e',member,consumer,iface,_⟩ | ⟨_,_,equal⟩)
          · exact absurd ⟨consumer,iface⟩ (new e' member)
          · rw [Decision.rewrite.inj equal]
      next other =>
        rw [passed.edits c i t]
        constructor
        · exact .inl
        · rintro (old | ⟨consumer,iface,_⟩)
          · exact old
          · exact absurd ⟨consumer.symm,iface.symm⟩ other
    · rcases setKey_mem member with rfl | old
      · refine ⟨setKey_distinct _ _ ?_,setKey_ne_nil _ _ _⟩
        cases found : getKey e.consumer pass.edits with
        | none => simp
        | some ranges => exact (passed.each _ (getKey_mem found)).1
      · exact passed.each entry old

/-- Two edges are never the same dependency. -/
def Apart (e e' : SiblingEdge) : Prop := ¬(e.consumer = e'.consumer ∧ e.iface = e'.iface)

theorem Passed.visitAll (edges : List SiblingEdge) : ∀ {before : List SiblingEdge} {pass : Pass},
    Passed satisfies releases config before pass → (before ++ edges).Pairwise Apart →
      Passed satisfies releases config (before ++ edges) (edges.foldl (Pass.visit satisfies releases config) pass) := by
  induction edges with
  | nil =>
    intro before pass passed _
    simpa using passed
  | cons e rest ih =>
    intro before pass passed apart
    have regroup : before ++ e :: rest = (before ++ [e]) ++ rest := by simp
    have new := (List.pairwise_append.mp apart).2.2
    rw [regroup] at apart ⊢
    exact ih (passed.visit fun e' member => new e' member e List.mem_cons_self) apart

theorem Passed.new : Passed satisfies releases config [] ⟨[],[],[]⟩ := by
  constructor <;> simp [edited,getKey]

theorem siblingEdge_some {found : Text → Option WorkspacePlugin} {consumer : WorkspacePlugin} {dependency : Text × Json}
    {e : SiblingEdge} (here : siblingEdge found consumer dependency = some e) :
    e.consumer = consumer.name ∧ e.iface = dependency.1 ∧ dependency.2 = .string e.range ∧
      ∃ producer, found e.iface = some producer ∧ producer.name = e.producer ∧ producer.name ≠ consumer.name := by
  rw [siblingEdge] at here
  split at here
  next range string =>
    split at here
    next => cases here
    next producer reached =>
      split at here
      next => cases here
      next other =>
        obtain rfl := Option.some.inj here
        exact ⟨rfl,rfl,string,producer,reached,rfl,other⟩
  next => cases here

theorem PackageJson.dependencies_distinct (pkg : PackageJson) : (pkg.dependencies.map Prod.fst).Nodup := by
  rw [PackageJson.dependencies]
  cases pkg.s2script.bind S2script.pluginDependencies with
  | none => simp
  | some d => exact d.distinct

theorem edges_apart {plugins : List WorkspacePlugin} (names : (plugins.map WorkspacePlugin.name).Nodup)
    (found : Text → Option WorkspacePlugin) : (edgesOf plugins found).Pairwise Apart := by
  rw [edgesOf,List.pairwise_flatMap]
  refine ⟨fun p _ => ?_,?_⟩
  · rw [List.pairwise_filterMap]
    have distinct := List.pairwise_map.mp p.pkg.dependencies_distinct
    refine distinct.imp fun {d d'} different e here e' there => ?_
    rintro ⟨_,same⟩
    rw [(siblingEdge_some here).2.1,(siblingEdge_some there).2.1] at same
    exact different same
  · refine (List.pairwise_map.mp names).imp fun {p q} different e here e' there => ?_
    rintro ⟨same,_⟩
    obtain ⟨_,_,first⟩ := List.mem_filterMap.mp here
    obtain ⟨_,_,second⟩ := List.mem_filterMap.mp there
    rw [(siblingEdge_some first).1,(siblingEdge_some second).1] at same
    exact different same

end Decisions

end S2Script.VersionRanges
