import S2Script.VersionRangesTexts

/-! Who publishes an interface: the index of the range gate has the one plugin that does, and the
edges of the pass lead to the plugins whose interfaces follow their versions. -/
namespace S2Script.VersionRanges

@[simp] theorem getKey_nil {V : Type} (key : Text) : getKey key ([] : List (Text × V)) = none := rfl

theorem getKey_append {V : Type} (key : Text) (first second : List (Text × V)) :
    getKey key (first ++ second) = (getKey key first).or (getKey key second) := by
  rw [getKey,List.find?_append]
  cases found : first.find? fun p => p.1 = key <;> simp [getKey,found]

theorem getKey_cons {V : Type} (key : Text) (p : Text × V) (l : List (Text × V)) :
    getKey key (p :: l) = if p.1 = key then some p.2 else getKey key l := by
  by_cases same : p.1 = key <;> simp [getKey,same]

theorem getKey_mem {V : Type} {key : Text} {l : List (Text × V)} {value : V} (found : getKey key l = some value) :
    (key,value) ∈ l := by
  rw [getKey,Option.map_eq_some_iff] at found
  obtain ⟨⟨k,v⟩,here,rfl⟩ := found
  obtain rfl : k = key := by simpa using List.find?_some here
  exact List.mem_of_find?_eq_some here

theorem getKey_none {V : Type} {key : Text} {l : List (Text × V)} : getKey key l = none ↔ key ∉ l.map Prod.fst := by
  simp only [getKey,Option.map_eq_none_iff,List.find?_eq_none,decide_eq_true_eq,List.mem_map,not_exists,not_and]

theorem getKey_of_mem {V : Type} {key : Text} {l : List (Text × V)} (distinct : (l.map Prod.fst).Nodup) {value : V}
    (member : (key,value) ∈ l) : getKey key l = some value := by
  induction l with
  | nil => cases member
  | cons p rest ih =>
    obtain ⟨new,others⟩ := List.nodup_cons.mp distinct
    rw [getKey_cons]
    rcases List.mem_cons.mp member with rfl | later
    · simp
    · have different : p.1 ≠ key := fun same => new (same ▸ List.mem_map_of_mem (f := Prod.fst) later)
      rw [if_neg different,ih others later]

/-- The version at which a plugin publishes an interface. -/
def published (p : WorkspacePlugin) (iface : Text) : Option Text :=
  match publishedInterfaces p with
  | .error _ => none
  | .ok expanded => getKey iface expanded.reverse

/-- Whether another plugin has the interface already. -/
def InterfaceIndex.taken (index : InterfaceIndex) (p : WorkspacePlugin) (iface : Text) : Bool :=
  (index.producers iface).any fun existing => existing.1.name ≠ p.name

theorem InterfaceIndex.add_other (index : InterfaceIndex) (p : WorkspacePlugin) (entry : Text × Text) {iface : Text}
    (other : iface ≠ entry.1) : (index.add p entry).producers iface = index.producers iface ∧
      (index.add p entry).ambiguous iface = index.ambiguous iface := by
  rw [InterfaceIndex.add]
  cases index.producers entry.1 with
  | none => exact ⟨Function.update_of_ne other _ _,rfl⟩
  | some existing =>
    simp only
    split
    next => exact ⟨rfl,Function.update_of_ne other _ _⟩
    next => exact ⟨Function.update_of_ne other _ _,rfl⟩

theorem InterfaceIndex.add_same (index : InterfaceIndex) (p : WorkspacePlugin) (entry : Text × Text) :
    (index.add p entry).producers entry.1 = (if index.taken p entry.1 then index.producers entry.1 else some (p,entry.2)) ∧
      (index.add p entry).ambiguous entry.1 = (index.ambiguous entry.1 || index.taken p entry.1) := by
  rw [InterfaceIndex.add,InterfaceIndex.taken]
  cases found : index.producers entry.1 with
  | none => simp
  | some existing => by_cases same : existing.1.name = p.name <;> simp [same,found]

/-- All published interfaces of one plugin: the last version of each, unless another plugin has it. -/
theorem InterfaceIndex.addAll (p : WorkspacePlugin) (iface : Text) (expanded : List (Text × Text)) :
    ∀ index : InterfaceIndex,
      (expanded.foldl (fun index entry => index.add p entry) index).producers iface =
          (if index.taken p iface then index.producers iface
            else ((getKey iface expanded.reverse).map fun v => (p,v)).or (index.producers iface)) ∧
        (expanded.foldl (fun index entry => index.add p entry) index).ambiguous iface =
          (index.ambiguous iface || index.taken p iface && (getKey iface expanded.reverse).isSome) := by
  induction expanded with
  | nil => simp [getKey]
  | cons entry rest ih =>
    intro index
    obtain ⟨found,several⟩ := ih (index.add p entry)
    rw [List.foldl_cons,List.reverse_cons,getKey_append,getKey_cons,found,several]
    by_cases same : iface = entry.1
    · subst same
      obtain ⟨here,there⟩ := index.add_same p entry
      have taken : (index.add p entry).taken p entry.1 = index.taken p entry.1 := by
        rw [InterfaceIndex.taken,here]
        by_cases held : index.taken p entry.1 = true
        · rw [if_pos held,held]
          exact held
        · rw [if_neg held]
          simp [held]
      rw [taken,here,there]
      by_cases held : index.taken p entry.1 = true
      · simp [held]
      · cases getKey entry.1 rest.reverse <;> simp [held]
    · obtain ⟨here,there⟩ := index.add_other p entry same
      have taken : (index.add p entry).taken p iface = index.taken p iface := by
        rw [InterfaceIndex.taken,here,InterfaceIndex.taken]
      simp [taken,here,there,Ne.symm same,getKey]

theorem InterfaceIndex.addPlugin_eq (index : InterfaceIndex) (p : WorkspacePlugin) (iface : Text) :
    (index.addPlugin p).producers iface =
        (if index.taken p iface then index.producers iface
          else ((published p iface).map fun v => (p,v)).or (index.producers iface)) ∧
      (index.addPlugin p).ambiguous iface =
        (index.ambiguous iface || index.taken p iface && (published p iface).isSome) := by
  rw [InterfaceIndex.addPlugin,published]
  cases publishedInterfaces p with
  | error => simp
  | ok expanded => exact InterfaceIndex.addAll p iface expanded index

/-- The index of the plugins seen so far. -/
structure Indexes (done : List WorkspacePlugin) (index : InterfaceIndex) : Prop where
  free : ∀ iface, index.producers iface = none → ∀ q ∈ done, published q iface = none
  found : ∀ iface p v, index.producers iface = some (p,v) → p ∈ done ∧ published p iface = some v
  single : ∀ iface p v, index.producers iface = some (p,v) → index.ambiguous iface = false →
    ∀ q ∈ done, published q iface ≠ none → q.name = p.name
  several : ∀ iface, index.ambiguous iface = true → ∃ q ∈ done, ∃ q' ∈ done,
    published q iface ≠ none ∧ published q' iface ≠ none ∧ q.name ≠ q'.name

theorem Indexes.add {done : List WorkspacePlugin} {index : InterfaceIndex} (indexes : Indexes done index)
    (p : WorkspacePlugin) : Indexes (done ++ [p]) (index.addPlugin p) := by
  have members : ∀ {P : WorkspacePlugin → Prop}, (∀ q ∈ done, P q) → P p → ∀ q ∈ done ++ [p], P q := by
    intro P old new q member
    rcases List.mem_append.mp member with before | last
    · exact old q before
    · exact List.mem_singleton.mp last ▸ new
  constructor
  · intro iface none
    rw [(index.addPlugin_eq p iface).1] at none
    split at none
    next taken =>
      rw [InterfaceIndex.taken,none] at taken
      cases taken
    next =>
      rw [Option.or_eq_none_iff,Option.map_eq_none_iff] at none
      exact members (indexes.free iface none.2) none.1
  · intro iface q v found
    rw [(index.addPlugin_eq p iface).1] at found
    have older : index.producers iface = some (q,v) → q ∈ done ++ [p] ∧ published q iface = some v := fun here =>
      ⟨List.mem_append_left _ (indexes.found iface q v here).1,(indexes.found iface q v here).2⟩
    split at found
    next => exact older found
    next =>
      cases here : published p iface with
      | none => exact older (by simpa [here] using found)
      | some w =>
        obtain ⟨rfl,rfl⟩ : p = q ∧ w = v := by simpa [here] using found
        exact ⟨by simp,here⟩
  · intro iface q v found unambiguous
    rw [(index.addPlugin_eq p iface).1] at found
    rw [(index.addPlugin_eq p iface).2,Bool.or_eq_false_iff] at unambiguous
    obtain ⟨unambiguous,apart⟩ := unambiguous
    split at found
    next taken =>
      refine members (indexes.single iface q v found unambiguous) fun some => absurd apart ?_
      simp [taken,Option.isSome_iff_ne_none.mpr some]
    next free =>
      cases here : published p iface with
      | none => exact members (indexes.single iface q v (by simpa [here] using found) unambiguous) fun some => absurd here some
      | some w =>
        obtain ⟨rfl,rfl⟩ : p = q ∧ w = v := by simpa [here] using found
        refine members (fun r member some => ?_) fun _ => rfl
        cases before : index.producers iface with
        | none => exact absurd (indexes.free iface before r member) some
        | some existing =>
          have same : existing.1.name = p.name := by simpa [InterfaceIndex.taken,before] using free
          exact (indexes.single iface existing.1 existing.2 before unambiguous r member some).trans same
  · intro iface ambiguous
    rw [(index.addPlugin_eq p iface).2,Bool.or_eq_true,Bool.and_eq_true] at ambiguous
    rcases ambiguous with old | ⟨taken,new⟩
    · obtain ⟨q,member,q',member',rest⟩ := indexes.several iface old
      exact ⟨q,List.mem_append_left _ member,q',List.mem_append_left _ member',rest⟩
    · cases before : index.producers iface with
      | none => simp [InterfaceIndex.taken,before] at taken
      | some existing =>
        obtain ⟨member,version⟩ := indexes.found iface existing.1 existing.2 before
        refine ⟨existing.1,List.mem_append_left _ member,p,by simp,by simp [version],Option.isSome_iff_ne_none.mp new,?_⟩
        simpa [InterfaceIndex.taken,before] using taken

theorem Indexes.addAll (plugins : List WorkspacePlugin) : ∀ (done : List WorkspacePlugin) (index : InterfaceIndex),
    Indexes done index → Indexes (done ++ plugins) (plugins.foldl InterfaceIndex.addPlugin index) := by
  induction plugins with
  | nil =>
    intro done index indexes
    simpa using indexes
  | cons p rest ih =>
    intro done index indexes
    simpa using ih _ _ (indexes.add p)

/-- The index has an interface where one plugin alone publishes it. -/
theorem producers_iff {plugins : List WorkspacePlugin} (names : (plugins.map WorkspacePlugin.name).Nodup) (iface : Text)
    (p : WorkspacePlugin) (v : Text) : producers plugins iface = some (p,v) ↔
      p ∈ plugins ∧ published p iface = some v ∧ ∀ q ∈ plugins, published q iface ≠ none → q.name = p.name := by
  have indexes : Indexes plugins (plugins.foldl InterfaceIndex.addPlugin ⟨fun _ => none,fun _ => false⟩) :=
    Indexes.addAll plugins [] _ (by constructor <;> simp)
  rw [producers]
  generalize plugins.foldl InterfaceIndex.addPlugin ⟨fun _ => none,fun _ => false⟩ = index at indexes
  constructor
  · intro found
    split at found
    next => cases found
    next unambiguous =>
      obtain ⟨member,version⟩ := indexes.found iface p v found
      exact ⟨member,version,indexes.single iface p v found (by simpa using unambiguous)⟩
  · rintro ⟨member,version,alone⟩
    have unambiguous : index.ambiguous iface = false := by
      by_contra ambiguous
      obtain ⟨q,inside,q',inside',some,some',apart⟩ := indexes.several iface (by simpa using ambiguous)
      exact apart ((alone q inside some).trans (alone q' inside' some').symm)
    simp only [unambiguous,Bool.false_eq_true,if_false]
    cases here : index.producers iface with
    | none =>
      rw [indexes.free iface here p member] at version
      cases version
    | some existing =>
      obtain ⟨producer,offered⟩ := existing
      obtain ⟨inside,same⟩ := indexes.found iface producer offered here
      obtain rfl := List.inj_on_of_nodup_map names inside member (alone _ inside (by simp [same]))
      rw [version] at same
      rw [Option.some.inj same]

/-- A dependency on an interface that one other plugin of the workspace publishes. -/
structure Sibling (plugins : List WorkspacePlugin) (consumer : WorkspacePlugin) (iface range : Text)
    (producer : WorkspacePlugin) (version : Text) : Prop where
  member : consumer ∈ plugins
  declared : (iface,.string range) ∈ consumer.pkg.dependencies
  produced : producers plugins iface = some (producer,version)
  other : producer.name ≠ consumer.name

theorem mem_checkAll {plugins : List WorkspacePlugin} (dependencies : List (WorkspacePlugin × Text × Json)) :
    ∀ {found : List RangeViolation}, checkAll plugins dependencies = .ok found → ∀ v ∈ found,
      ∃ d ∈ dependencies, ∃ part, checkDependency plugins d.1 d.2 = .ok part ∧ v ∈ part := by
  induction dependencies with
  | nil =>
    intro found run v member
    cases run
    cases member
  | cons d rest ih =>
    intro found run v member
    obtain ⟨p,dependency⟩ := d
    rw [checkAll] at run
    cases first : checkDependency plugins p dependency with
    | error => simp [first,bind,Except.bind] at run
    | ok part =>
      cases second : checkAll plugins rest with
      | error => simp [first,second,bind,Except.bind] at run
      | ok others =>
        simp only [first,second,bind,Except.bind,pure,Except.pure,Except.ok.injEq] at run
        rw [← run] at member
        rcases List.mem_append.mp member with here | later
        · exact ⟨_,List.mem_cons_self,part,first,here⟩
        · obtain ⟨d,inside,rest⟩ := ih second v later
          exact ⟨d,List.mem_cons_of_mem _ inside,rest⟩

/-- What the range gate reports is a sibling range that the engine would refuse. -/
theorem Sibling.of_violation {plugins : List WorkspacePlugin} {found : List RangeViolation}
    (run : checkSiblingRanges plugins = .ok found) : ∀ v ∈ found, ∃ consumer producer,
      Sibling plugins consumer v.iface v.range producer v.version ∧ consumer.name = v.consumer ∧
        satisfiesRange v.version v.range = false := by
  intro v member
  obtain ⟨⟨p,iface,value⟩,inside,part,checked,here⟩ := mem_checkAll _ run v member
  simp only [List.mem_flatMap,List.mem_map] at inside
  obtain ⟨_,declares,_,declared,equal⟩ := inside
  obtain ⟨rfl,rfl⟩ := Prod.mk.inj equal
  rw [checkDependency] at checked
  split at checked
  next =>
    cases checked
    cases here
  next producer version produced =>
    split at checked
    next =>
      cases checked
      cases here
    next other =>
      split at checked
      next =>
        cases checked
        cases here
      next =>
        split at checked
        next range string =>
          split at checked
          next =>
            cases checked
            cases here
          next refused =>
            obtain rfl := Except.ok.inj checked
            obtain rfl := List.mem_singleton.mp here
            simp only at string
            subst string
            exact ⟨_,producer,⟨declares,declared,produced,other⟩,rfl,by simpa using refused⟩
        next => cases checked

/-- Where the edges of an interface lead: to a plugin that publishes it at its own version. -/
structure Found (plugins : List WorkspacePlugin) (found : Text → Option WorkspacePlugin) : Prop where
  tracked : ∀ iface p, found iface = some p → p ∈ plugins ∧ ∃ expanded v, publishedInterfaces p = .ok expanded ∧
    (iface,v) ∈ expanded ∧ tracks p v = true
  reached : ∀ p ∈ plugins, ∀ expanded, publishedInterfaces p = .ok expanded → ∀ entry ∈ expanded,
    tracks p entry.2 = true → found entry.1 ≠ none

theorem found_fold (p : WorkspacePlugin) (expanded : List (Text × Text)) : ∀ found : Text → Option WorkspacePlugin,
    (∀ iface q, expanded.foldl (track p) found iface = some q →
        found iface = some q ∨ q = p ∧ ∃ v, (iface,v) ∈ expanded ∧ tracks p v = true) ∧
      (∀ iface, found iface ≠ none → expanded.foldl (track p) found iface ≠ none) ∧
      ∀ entry ∈ expanded, tracks p entry.2 = true → expanded.foldl (track p) found entry.1 ≠ none := by
  induction expanded with
  | nil => exact fun found => ⟨fun _ _ same => .inl same,fun _ some => some,by simp⟩
  | cons entry rest ih =>
    intro found
    obtain ⟨sources,kept,reached⟩ := ih (track p found entry)
    have grows : ∀ iface, found iface ≠ none → track p found entry iface ≠ none := by
      intro iface held
      rw [track]
      split
      next => rcases eq_or_ne iface entry.1 with rfl | other <;> simp_all
      next => exact held
    refine ⟨fun iface q here => ?_,fun iface held => kept iface (grows iface held),fun e member tracked => ?_⟩
    · rcases sources iface q here with old | ⟨same,v,inside,tracked⟩
      · rw [track] at old
        split at old
        next tracked =>
          rcases eq_or_ne iface entry.1 with rfl | other
          · rw [Function.update_self] at old
            exact .inr ⟨(Option.some.inj old).symm,entry.2,List.mem_cons_self,tracked⟩
          · rw [Function.update_of_ne other] at old
            exact .inl old
        next => exact .inl old
      · exact .inr ⟨same,v,List.mem_cons_of_mem _ inside,tracked⟩
    · rcases List.mem_cons.mp member with rfl | later
      · refine kept _ ?_
        rw [track,if_pos tracked,Function.update_self]
        simp
      · exact reached e later tracked

theorem producerOf_found (plugins : List WorkspacePlugin) :
    ∀ {before found : Text → Option WorkspacePlugin}, producerOf plugins before = .ok found →
      (∀ p ∈ plugins, ∃ expanded, publishedInterfaces p = .ok expanded) ∧
      (∀ iface p, found iface = some p → before iface = some p ∨ p ∈ plugins ∧ ∃ expanded v,
        publishedInterfaces p = .ok expanded ∧ (iface,v) ∈ expanded ∧ tracks p v = true) ∧
      (∀ iface, before iface ≠ none → found iface ≠ none) ∧
      ∀ p ∈ plugins, ∀ expanded, publishedInterfaces p = .ok expanded → ∀ entry ∈ expanded,
        tracks p entry.2 = true → found entry.1 ≠ none := by
  induction plugins with
  | nil =>
    intro before found run
    obtain rfl := Except.ok.inj run
    exact ⟨by simp,fun _ _ same => .inl same,fun _ some => some,by simp⟩
  | cons p rest ih =>
    intro before found run
    rw [producerOf] at run
    cases first : publishedInterfaces p with
    | error => simp [first,bind,Except.bind] at run
    | ok expanded =>
      simp only [first,bind,Except.bind] at run
      obtain ⟨formed,sources,kept,reached⟩ := ih run
      obtain ⟨here,stays,there⟩ := found_fold p expanded before
      refine ⟨?_,fun iface q same => ?_,fun iface some => kept iface (stays iface some),fun q member => ?_⟩
      · intro q member
        rcases List.mem_cons.mp member with rfl | later
        · exact ⟨expanded,first⟩
        · exact formed q later
      · rcases sources iface q same with old | ⟨member,rest⟩
        · rcases here iface q old with older | ⟨rfl,v,inside,tracked⟩
          · exact .inl older
          · exact .inr ⟨List.mem_cons_self,expanded,v,first,inside,tracked⟩
        · exact .inr ⟨List.mem_cons_of_mem _ member,rest⟩
      · rcases List.mem_cons.mp member with rfl | later
        · intro expanded' again entry inside tracked
          rw [first] at again
          cases again
          exact kept _ (there entry inside tracked)
        · exact reached q later

theorem producerOf_ok (plugins : List WorkspacePlugin) : ∀ (before : Text → Option WorkspacePlugin),
    (∀ p ∈ plugins, ∃ expanded, publishedInterfaces p = .ok expanded) → ∃ found, producerOf plugins before = .ok found := by
  induction plugins with
  | nil => exact fun before _ => ⟨before,rfl⟩
  | cons p rest ih =>
    intro before formed
    obtain ⟨expanded,first⟩ := formed p List.mem_cons_self
    rw [producerOf,first]
    exact ih _ fun q member => formed q (List.mem_cons_of_mem _ member)

/-- The dependencies that lead to another plugin. -/
def edgesOf (plugins : List WorkspacePlugin) (found : Text → Option WorkspacePlugin) : List SiblingEdge :=
  plugins.flatMap fun consumer => consumer.pkg.dependencies.filterMap (siblingEdge found consumer)

/-- The edges are the dependencies that lead to another plugin; there are none if a `publishes` block is malformed. -/
theorem siblingEdges_cases (plugins : List WorkspacePlugin) :
    (¬(∀ p ∈ plugins, ∃ expanded, publishedInterfaces p = .ok expanded) ∧ ∃ error, siblingEdges plugins = .error error) ∨
      (∀ p ∈ plugins, ∃ expanded, publishedInterfaces p = .ok expanded) ∧ ∃ found, Found plugins found ∧
        siblingEdges plugins = .ok (edgesOf plugins found) := by
  rw [siblingEdges]
  cases run : producerOf plugins fun _ => none with
  | error error =>
    refine .inl ⟨fun formed => ?_,error,rfl⟩
    obtain ⟨found,ok⟩ := producerOf_ok plugins (fun _ => none) formed
    rw [run] at ok
    cases ok
  | ok found =>
    obtain ⟨formed,sources,_,reached⟩ := producerOf_found plugins run
    refine .inr ⟨formed,found,⟨fun iface p here => ?_,reached⟩,rfl⟩
    rcases sources iface p here with none | source
    · cases none
    · exact source

end S2Script.VersionRanges
