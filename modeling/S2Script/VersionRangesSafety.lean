import S2Script.VersionRangesRun

/-! When versioning keeps the interface graph loadable: every range that is rewritten must be of an
interface that takes the new version of its package, and the new major must be one the rule reads. -/
namespace S2Script.VersionRanges

/-- A plugin that publishes by "self". -/
def WorkspacePlugin.self (p : WorkspacePlugin) : Prop :=
  ∃ text, p.pkg.publishes = some (.string text) ∧ trim text = "self".toList

theorem expandPublishes_self {p : WorkspacePlugin} (self : p.self) (name version : Text) :
    expandPublishes p.pkg.publishes name version = .ok [(name,version)] := by
  obtain ⟨text,block,trimmed⟩ := self
  rw [block,expandPublishes,if_neg (by simp [trimmed])]

theorem expandPublishes_authored {p : WorkspacePlugin} (authored : ¬p.self) (name version version' : Text) :
    expandPublishes p.pkg.publishes name version = expandPublishes p.pkg.publishes name version' := by
  cases block : p.pkg.publishes with
  | none => rfl
  | some value =>
    cases value with
    | string text =>
      have other : trim text ≠ "self".toList := fun trimmed => authored ⟨text,block,trimmed⟩
      rw [expandPublishes,expandPublishes,if_pos other,if_pos other]
    | _ => rfl

theorem published_self {p : WorkspacePlugin} (self : p.self) (iface : Text) :
    published p iface = if p.name = iface then some p.version else none := by
  rw [published,publishedInterfaces,expandPublishes_self self]
  simp [getKey_cons]

namespace Versioning

variable {v : Versioning}

/-- What the claim of the pass is about: the ranges after it, and all it leaves alone. -/
structure Kept (v : Versioning) (result : RangeRewriteResult) (disk : Disk) : Prop where
  ranges : ∀ consumer iface range producer version,
    Sibling (v.plugins.map (reload disk)) consumer iface range producer version →
      satisfiesRange version range = true ∨ ∃ s ∈ result.skips, s.consumer = consumer.name ∧ s.iface = iface
  authored : ∀ c ∈ v.plugins, ∀ iface range, (∀ q ∈ v.plugins, published (reload disk q) iface = published q iface) →
    (iface,.string range) ∈ c.pkg.dependencies → (iface,.string range) ∈ (reload disk c).pkg.dependencies
  others : ∀ p ∈ v.plugins, ∃ json json', v.disk p.dir = some json ∧ disk p.dir = some json' ∧ json'.others = json.others
  elsewhere : ∀ dir, (∀ p ∈ v.plugins, p.dir ≠ dir) → disk dir = v.disk dir

/-- The pass ends, and the workspace is loadable but for what it reports. -/
def StaysLoadable (v : Versioning) : Prop := ∃ result disk, v.rewrite = .ok (result,disk) ∧ v.Kept result disk

/-- The condition on the workspace and the plan. -/
structure Sound (v : Versioning) : Prop where
  formed : ∀ p ∈ v.plugins, ∃ expanded, publishedInterfaces p = .ok expanded
  own : ∀ edges, siblingEdges v.plugins = .ok edges → ∀ e ∈ edges, v.Rewritten e →
    ∃ q ∈ v.plugins, q.self ∧ q.name = e.iface ∧ ∃ r, v.Released q.name r
  majors : ∀ consumer iface range q version, Sibling v.plugins consumer iface range q version → q.self →
    ∀ r, v.Released q.name r → trim range = ['*'] ∨ leadingMajor r.newVersion = leadingMajor r.oldVersion ∨
      tracks q q.version = true ∧ (leadingMajor r.newVersion ≠ none ∨ simpleRange range = false)
  steady : ∀ edges, siblingEdges v.plugins = .ok edges → ∀ e ∈ edges, v.Rewritten e → ∀ p ∈ v.plugins,
    p.name = e.consumer → ∀ json, v.disk p.dir = some json → json.steady = true

theorem releaseOf_mem {releases : List ComprehensiveRelease} {name : Text} {r : ComprehensiveRelease}
    (found : releaseOf releases name = some r) : r ∈ releases ∧ r.name = name := by
  rw [releaseOf] at found
  exact ⟨by simpa using List.mem_of_find?_eq_some found,by simpa using List.find?_some found⟩

/-- The version of a plugin after the plan. -/
theorem after_released {q : WorkspacePlugin} (member : q ∈ v.plugins) {r : ComprehensiveRelease}
    (released : v.Released q.name r) :
    (newVersion v.releases q).getD unversioned = r.newVersion ∧ q.version = r.oldVersion := by
  obtain ⟨inside,name⟩ := releaseOf_mem released.1
  exact ⟨by rw [newVersion,released.1]; rfl,v.old r inside q member name.symm⟩

theorem after_unreleased {q : WorkspacePlugin} (member : q ∈ v.plugins) (unreleased : ∀ r, ¬v.Released q.name r) :
    (newVersion v.releases q).getD unversioned = q.version := by
  rw [newVersion]
  cases found : releaseOf v.releases q.name with
  | none => exact (v.loaded q member).symm
  | some r =>
    have same : r.newVersion = r.oldVersion := by
      by_contra changed
      exact unreleased r ⟨found,changed⟩
    obtain ⟨inside,name⟩ := releaseOf_mem found
    exact same.trans (v.old r inside q member name.symm).symm

namespace Outcome

variable {edges : List SiblingEdge} {result : RangeRewriteResult} {disk : Disk}

theorem published_self (o : Outcome v edges result disk) {q : WorkspacePlugin} (member : q ∈ v.plugins) (self : q.self)
    (iface : Text) : published (reload disk q) iface =
      if q.name = iface then some ((newVersion v.releases q).getD unversioned) else none := by
  rw [published,o.publishes q member,expandPublishes_self self]
  simp [getKey_cons]

theorem published_authored (o : Outcome v edges result disk) {q : WorkspacePlugin} (member : q ∈ v.plugins)
    (authored : ¬q.self) (iface : Text) : published (reload disk q) iface = published q iface := by
  rw [published,o.publishes q member,expandPublishes_authored authored _ _ q.version,published,publishedInterfaces]

/-- An interface is published before the pass exactly if it is after. -/
theorem published_none (o : Outcome v edges result disk) {q : WorkspacePlugin} (member : q ∈ v.plugins) (iface : Text) :
    published (reload disk q) iface = none ↔ published q iface = none := by
  by_cases self : q.self
  · rw [o.published_self member self,VersionRanges.published_self self]
    split <;> simp
  · rw [o.published_authored member self]

/-- A published version changes by the release of a plugin that publishes "self". -/
theorem published_changes (o : Outcome v edges result disk) {q : WorkspacePlugin} (member : q ∈ v.plugins) (iface : Text) :
    published (reload disk q) iface = published q iface ↔ ¬(q.self ∧ q.name = iface ∧ ∃ r, v.Released q.name r) := by
  by_cases self : q.self
  · rw [o.published_self member self,VersionRanges.published_self self]
    by_cases name : q.name = iface
    · by_cases released : ∃ r, v.Released q.name r
      · obtain ⟨r,released⟩ := released
        obtain ⟨now,before⟩ := after_released member released
        simp only [name,if_true,now,before,self,true_and,Option.some.injEq]
        exact iff_of_false released.2 fun none => none ⟨r,name ▸ released⟩
      · rw [after_unreleased member fun r here => released ⟨r,here⟩]
        simp [released]
    · simp [name]
  · rw [o.published_authored member self]
    simp [self]

/-- The siblings after the pass are those before, at the new versions and ranges. -/
theorem sibling (o : Outcome v edges result disk) {consumer producer : WorkspacePlugin} {iface range version : Text}
    (after : Sibling (v.plugins.map (reload disk)) consumer iface range producer version) :
    ∃ c ∈ v.plugins, consumer = reload disk c ∧ ∃ q ∈ v.plugins, q.name ≠ c.name ∧
      published (reload disk q) iface = some version ∧ (iface,.string range) ∈ (reload disk c).pkg.dependencies ∧
      ∃ before, producers v.plugins iface = some (q,before) ∧ published q iface = some before ∧
        ∀ q' ∈ v.plugins, published q' iface ≠ none → q' = q := by
  obtain ⟨c,inside,rfl⟩ := List.mem_map.mp after.member
  have names : ((v.plugins.map (reload disk)).map WorkspacePlugin.name).Nodup := by
    simpa [List.map_map,Function.comp_def] using v.names
  obtain ⟨member,here,alone⟩ := (producers_iff names iface producer version).mp after.produced
  obtain ⟨q,held,rfl⟩ := List.mem_map.mp member
  have only : ∀ q' ∈ v.plugins, published q' iface ≠ none → q'.name = q.name := by
    intro q' inside' some
    have still : published (reload disk q') iface ≠ none := fun none => some ((o.published_none inside' iface).mp none)
    simpa using alone (reload disk q') (List.mem_map_of_mem inside') still
  cases before : published q iface with
  | none =>
    rw [(o.published_none held iface).mpr before] at here
    cases here
  | some version' =>
    refine ⟨c,inside,rfl,q,held,by simpa using after.other,here,after.declared,version',?_,before,?_⟩
    · exact (producers_iff v.names iface q version').mpr ⟨held,before,only⟩
    · exact fun q' inside' some => List.inj_on_of_nodup_map v.names inside' held (only q' inside' some)

end Outcome

theorem edge_mem {found : Text → Option WorkspacePlugin} {c q : WorkspacePlugin} {iface range : Text} (member : c ∈ v.plugins)
    (declared : (iface,.string range) ∈ c.pkg.dependencies) (reached : found iface = some q) (other : q.name ≠ c.name) :
    (⟨c.name,q.name,iface,range⟩ : SiblingEdge) ∈ edgesOf v.plugins found := by
  refine List.mem_flatMap.mpr ⟨c,member,List.mem_filterMap.mpr ⟨_,declared,?_⟩⟩
  simp [siblingEdge,reached,other]

theorem edge_range {found : Text → Option WorkspacePlugin} {c : WorkspacePlugin} {e : SiblingEdge} {value : Json}
    (walks : e ∈ edgesOf v.plugins found) (member : c ∈ v.plugins) (consumer : e.consumer = c.name)
    (declared : (e.iface,value) ∈ c.pkg.dependencies) : value = .string e.range := by
  obtain ⟨c',held,same,here,_⟩ := mem_edges walks
  obtain rfl := List.inj_on_of_nodup_map v.names held member (same.symm.trans consumer)
  have first := getKey_of_mem c'.pkg.dependencies_distinct here
  rw [getKey_of_mem c'.pkg.dependencies_distinct declared] at first
  exact Option.some.inj first

/-- An edge of an interface with one producer leads to it, and it follows the version of its package. -/
theorem edge_producer {found : Text → Option WorkspacePlugin} (leads : Found v.plugins found) {e : SiblingEdge}
    (walks : e ∈ edgesOf v.plugins found) {q : WorkspacePlugin}
    (only : ∀ q' ∈ v.plugins, published q' e.iface ≠ none → q' = q) :
    e.producer = q.name ∧ (q.self → tracks q q.version = true) := by
  obtain ⟨_,_,_,_,p,reached,name,_⟩ := mem_edges walks
  obtain ⟨member,expanded,version,formed,entry,tracked⟩ := leads.tracked e.iface p reached
  have some : published p e.iface ≠ none := by
    rw [published,formed]
    simp only [ne_eq,getKey_none,not_not]
    exact List.mem_map.mpr ⟨_,List.mem_reverse.mpr entry,rfl⟩
  obtain rfl := only p member some
  refine ⟨name.symm,fun self => ?_⟩
  rw [publishedInterfaces,expandPublishes_self self] at formed
  obtain rfl := Except.ok.inj formed
  obtain ⟨_,rfl⟩ := Prod.mk.inj (List.mem_singleton.mp entry)
  exact tracked

/-- A major release reaches every threshold. -/
theorem shouldUpdate_major {r : ComprehensiveRelease} {range : Text} (type : r.type = .major) :
    shouldUpdate v.satisfies r range v.config = true := by
  rw [shouldUpdate,type]
  split
  next => rfl
  next => cases v.config with
    | none => rfl
    | some setting => cases setting <;> rfl

/-- The range a rewritten edge gets is satisfied exactly if the rule reads the new major. -/
theorem rebuilt_iff {r : ComprehensiveRelease} (inside : r ∈ v.releases) (changed : r.newVersion ≠ r.oldVersion) (range : Text) :
    satisfiesRange r.newVersion (rangePrefix range ++ r.newVersion) = true ↔ leadingMajor r.newVersion ≠ none := by
  rcases v.moves r inside with same | ⟨_,_,new,_,text,_⟩
  · exact absurd same changed
  · rw [satisfiesRange_iff,text,leadingMajor_rebuilt,leadingMajor_text]
    simp only [trim_rebuilt,false_or,and_self]
    cases readMajor new.major <;> simp

/-- Under the condition a rewritten edge has a range that its producer satisfies. -/
theorem Sound.rewritten (sound : v.Sound) {found : Text → Option WorkspacePlugin} (leads : Found v.plugins found)
    {e : SiblingEdge} (walks : e ∈ edgesOf v.plugins found) (walked : siblingEdges v.plugins = .ok (edgesOf v.plugins found))
    {q : WorkspacePlugin} {before : Text} (produced : producers v.plugins e.iface = some (q,before))
    (only : ∀ q' ∈ v.plugins, published q' e.iface ≠ none → q' = q) (rewritten : v.Rewritten e) :
    q.self ∧ q.name = e.iface ∧ ∃ r, v.Released q.name r ∧
      satisfiesRange r.newVersion (rangePrefix e.range ++ r.newVersion) = true := by
  obtain ⟨q',held,self,name,r,released⟩ := sound.own _ walked e walks rewritten
  obtain rfl := only q' held (by simp [VersionRanges.published_self self,name])
  refine ⟨self,name,r,released,(rebuilt_iff (releaseOf_mem released.1).1 released.2 e.range).mpr ?_⟩
  obtain ⟨c,member,consumer,declared,p,reached,producer,other⟩ := mem_edges walks
  have leadsHere := (edge_producer leads walks only).1
  have sibling : Sibling v.plugins c e.iface e.range q' before :=
    ⟨member,declared,produced,by rw [← leadsHere,← producer]; exact other⟩
  obtain ⟨_,_,_,wild,simple,_⟩ := rewritten
  have version : before = q'.version := by
    have here := ((producers_iff v.names e.iface q' before).mp produced).2.1
    rw [VersionRanges.published_self self,if_pos name] at here
    exact (Option.some.inj here).symm
  rcases sound.majors c e.iface e.range q' before sibling self r released with star | same | ⟨_,readable | compound⟩
  · simp [isWildcardRange,star] at wild
  · rcases (satisfiesRange_iff _ _).mp (v.loadable _ _ _ _ _ sibling) with star | ⟨major,_,here⟩
    · simp [isWildcardRange,star] at wild
    · rw [version,(after_released held released).2] at here
      simp [same,here]
  · exact readable
  · simp [compound] at simple

/-- The condition is enough. -/
theorem Sound.staysLoadable (sound : v.Sound) : v.StaysLoadable := by
  obtain ⟨found,edges,result,disk,leads,rfl,run,o⟩ := outcome sound.formed
  refine ⟨result,disk,run,?_,?_,?_,o.elsewhere⟩
  · intro consumer iface range producer version after
    obtain ⟨c,member,rfl,q,held,other,now,declared,before,produced,here,only⟩ := o.sibling after
    rw [reload_name]
    obtain ⟨value,authored,⟨e,walks,consumer,rfl,rewritten⟩ | ⟨unedited,rfl⟩⟩ := (o.range c member iface range).mp declared
    · -- a rewritten range
      obtain ⟨edge,r',released',target⟩ := decide_rewrite.mp rewritten
      obtain ⟨self,name,r,released,satisfied⟩ := sound.rewritten leads walks o.walked produced only edge
      have same : r' = r := by
        rw [(edge_producer leads walks only).1] at released'
        exact Option.some.inj (released'.1.symm.trans released.1)
      rw [o.published_self held self,if_pos name,(after_released held released).1] at now
      rw [target,same,← Option.some.inj now]
      exact .inl satisfied
    · -- a range as authored
      have sibling : Sibling v.plugins c iface range q before := ⟨member,authored,produced,other⟩
      have satisfied := v.loadable _ _ _ _ _ sibling
      by_cases changes : q.self ∧ q.name = iface ∧ ∃ r, v.Released q.name r
      · obtain ⟨self,name,r,released⟩ := changes
        obtain ⟨current,former⟩ := after_released held released
        rw [o.published_self held self,if_pos name,current] at now
        rw [VersionRanges.published_self self,if_pos name,former] at here
        rw [← Option.some.inj now,satisfiesRange_iff]
        rw [← Option.some.inj here,satisfiesRange_iff] at satisfied
        have steady : leadingMajor r.newVersion = leadingMajor r.oldVersion →
            trim range = ['*'] ∨ ∃ major, leadingMajor range = some major ∧ leadingMajor r.newVersion = some major :=
          fun same => same ▸ satisfied
        rcases sound.majors c iface range q before sibling self r released with star | same | ⟨tracked,readable⟩
        · exact .inl (.inl star)
        · exact .inl (steady same)
        · have reached : found iface = some q := by
            obtain ⟨expanded,formed⟩ := sound.formed q held
            rw [publishedInterfaces,expandPublishes_self self] at formed
            have some := leads.reached q held _ (by rw [publishedInterfaces,expandPublishes_self self]) (q.name,q.version)
              (by simp) tracked
            rw [name] at some
            obtain ⟨p,lead⟩ := Option.ne_none_iff_exists'.mp some
            obtain ⟨inside,expanded',w,formed',entry,_⟩ := leads.tracked iface p lead
            rw [lead,only p inside]
            rw [published,formed']
            simp only [ne_eq,getKey_none,not_not]
            exact List.mem_map.mpr ⟨_,List.mem_reverse.mpr entry,rfl⟩
          have walks := edge_mem member authored reached other
          have kept := unedited _ walks rfl rfl
          cases decided : v.decide ⟨c.name,q.name,iface,range⟩ with
          | rewrite target => exact absurd decided (kept target)
          | skip reason => exact .inr ((o.skipped c.name iface).mpr ⟨_,walks,rfl,rfl,reason,decided⟩)
          | keep =>
            rw [decide,decision,released.1] at decided
            simp only [released.2,if_false] at decided
            split_ifs at decided with quiet equal wild simple
            · refine .inl (steady ((v.moves r (releaseOf_mem released.1).1).major fun type => ?_))
              rw [shouldUpdate_major type] at quiet
              cases quiet
            · have readable : leadingMajor r.newVersion ≠ none := by
                rcases readable with readable | compound
                · exact readable
                · simp_all
              have rebuilt := (rebuilt_iff (releaseOf_mem released.1).1 released.2 range).mpr readable
              rw [‹rangePrefix range ++ r.newVersion = range›,satisfiesRange_iff] at rebuilt
              exact .inl rebuilt
      · rw [(o.published_changes held iface).mpr changes,here] at now
        rw [← Option.some.inj now]
        exact .inl satisfied
  · intro c member iface range unchanged authored
    refine (o.range c member iface range).mpr ⟨_,authored,.inr ⟨fun e walks _ same target rewritten => ?_,rfl⟩⟩
    obtain ⟨q,held,self,name,released⟩ := sound.own _ o.walked e walks (decide_rewrite.mp rewritten).1
    exact (o.published_changes held iface).mp (unchanged q held) ⟨self,name.trans same,released⟩
  · intro p member
    obtain ⟨json,json',file,file',same⟩ := o.others p member
    exact ⟨json,json',file,file',same.mpr fun e walks consumer rewritten =>
      sound.steady _ o.walked e walks rewritten p member consumer.symm json file⟩

/-- A sibling of a released plugin has, after the pass, its authored range or the rebuilt one. -/
theorem Outcome.sibling_after {found : Text → Option WorkspacePlugin} {result : RangeRewriteResult} {disk : Disk}
    (leads : Found v.plugins found) (o : Outcome v (edgesOf v.plugins found) result disk)
    {c q : WorkspacePlugin} {iface range version : Text} (sibling : Sibling v.plugins c iface range q version) (self : q.self)
    {r : ComprehensiveRelease} (released : v.Released q.name r) :
    ∃ range', Sibling (v.plugins.map (reload disk)) (reload disk c) iface range' (reload disk q) r.newVersion ∧
      (range' = range ∨ range' = rangePrefix range ++ r.newVersion ∧ tracks q q.version = true ∧ simpleRange range = true) := by
  obtain ⟨held,here,alone⟩ := (producers_iff v.names iface q version).mp sibling.produced
  have only : ∀ q' ∈ v.plugins, published q' iface ≠ none → q' = q := fun q' inside some =>
    List.inj_on_of_nodup_map v.names inside held (alone q' inside some)
  have name : q.name = iface := by
    by_contra other
    rw [VersionRanges.published_self self,if_neg other] at here
    cases here
  have produced : producers (v.plugins.map (reload disk)) iface = some (reload disk q,r.newVersion) := by
    refine (producers_iff (by simpa [List.map_map,Function.comp_def] using v.names) _ _ _).mpr
      ⟨List.mem_map_of_mem held,?_,fun q' inside some => ?_⟩
    · rw [o.published_self held self,if_pos name,(after_released held released).1]
    · obtain ⟨p,member,rfl⟩ := List.mem_map.mp inside
      have still : published p iface ≠ none := fun none => some ((o.published_none member iface).mpr none)
      simpa using alone p member still
  have after : ∀ range', (iface,.string range') ∈ (reload disk c).pkg.dependencies →
      Sibling (v.plugins.map (reload disk)) (reload disk c) iface range' (reload disk q) r.newVersion := fun range' declared =>
    ⟨List.mem_map_of_mem sibling.member,declared,produced,by simpa using sibling.other⟩
  by_cases rewritten : ∃ e ∈ edgesOf v.plugins found, e.consumer = c.name ∧ e.iface = iface ∧ ∃ target, v.decide e = .rewrite target
  · obtain ⟨e,walks,consumer,rfl,target,decided⟩ := rewritten
    have authored := Json.string.inj (edge_range walks sibling.member consumer sibling.declared)
    obtain ⟨⟨_,_,_,_,simple,_⟩,r',released',rebuilt⟩ := decide_rewrite.mp decided
    obtain ⟨producer,tracked⟩ := edge_producer leads walks only
    rw [producer] at released'
    have same : r' = r := Option.some.inj (released'.1.symm.trans released.1)
    refine ⟨target,after target ((o.range c sibling.member e.iface target).mpr
      ⟨_,sibling.declared,.inl ⟨e,walks,consumer,rfl,decided⟩⟩),.inr ⟨?_,tracked self,authored ▸ simple⟩⟩
    rw [rebuilt,same,authored]
  · refine ⟨range,after range ((o.range c sibling.member iface range).mpr
      ⟨_,sibling.declared,.inr ⟨fun e walks consumer same target decided => ?_,rfl⟩⟩),.inl rfl⟩
    exact rewritten ⟨e,walks,consumer,same,target,decided⟩

/-- Only a range that the pass would not rebuild is reported. -/
theorem decide_skip {e : SiblingEdge} {reason : Text} (decided : v.decide e = .skip reason) :
    isWildcardRange e.range = true ∨ simpleRange e.range = false := by
  rw [decide,decision] at decided
  split at decided
  next => cases decided
  next =>
    split_ifs at decided with _ _ wild compound
    · exact .inl wild
    · exact .inr compound

/-- A range that a version satisfies names a major, or it is a star. -/
theorem wildcard_satisfied {version range : Text} (satisfied : satisfiesRange version range = true)
    (wild : isWildcardRange range = true) : trim range = ['*'] := by
  rcases (satisfiesRange_iff _ _).mp satisfied with star | ⟨major,here,_⟩
  · exact star
  · simp only [isWildcardRange,Bool.or_eq_true,decide_eq_true_eq] at wild
    obtain ⟨lead,tail,split,before,after⟩ := trim_split range
    have digitless : ∀ c ∈ range, c.isDigit = false := by
      intro c member
      rw [split,List.mem_append,List.mem_append] at member
      rcases member with (inside | inside) | inside
      · exact blank_not_digit (before c inside)
      · rcases wild with ((empty | star) | x) | x
        · simp [empty] at inside
        · rw [star,List.mem_singleton] at inside
          exact inside ▸ rfl
        · rw [x,List.mem_singleton] at inside
          exact inside ▸ rfl
        · rw [x,List.mem_singleton] at inside
          exact inside ▸ rfl
      · exact blank_not_digit (after c inside)
    have nothing : range.dropWhile (fun c => !c.isDigit) = [] := by
      rw [List.dropWhile_eq_nil_iff]
      exact fun c member => by simp [digitless c member]
    rw [leadingMajor,nothing] at here
    simp at here

/-- The condition is necessary. -/
theorem StaysLoadable.sound (stays : v.StaysLoadable) : v.Sound := by
  obtain ⟨result,disk,run,kept⟩ := stays
  have formed : ∀ p ∈ v.plugins, ∃ expanded, publishedInterfaces p = .ok expanded := by
    rcases siblingEdges_cases v.plugins with ⟨_,error,refused⟩ | ⟨formed,_⟩
    · rw [rewrite,rewriteSiblingRanges,refused] at run
      cases run
    · exact formed
  obtain ⟨found,edges,result',disk',leads,rfl,run',o⟩ := outcome formed
  obtain ⟨rfl,rfl⟩ := Prod.mk.inj (Except.ok.inj (run'.symm.trans run))
  have walked : ∀ {edges}, siblingEdges v.plugins = .ok edges → edges = edgesOf v.plugins found := fun here =>
    Except.ok.inj (here.symm.trans o.walked)
  refine ⟨formed,?_,?_,?_⟩
  · intro edges here e walks rewritten
    obtain rfl := walked here
    by_contra none
    obtain ⟨c,member,consumer,declared,_⟩ := mem_edges walks
    have unchanged : ∀ q ∈ v.plugins, published (reload disk' q) e.iface = published q e.iface := fun q held =>
      (o.published_changes held e.iface).mpr fun made => none ⟨q,held,made⟩
    obtain ⟨value,authored,⟨e',walks',consumer',same,decided⟩ | ⟨unedited,_⟩⟩ :=
      (o.range c member _ _).mp (kept.authored c member e.iface e.range unchanged declared)
    · -- the target of a rewritten edge is a new range
      have range : e'.range = e.range := Json.string.inj
        (edge_range walks' member consumer' (by rw [same]; exact declared)).symm
      obtain ⟨⟨r,released,_,_,_,changed⟩,r',released',rebuilt⟩ := decide_rewrite.mp decided
      have same : r' = r := Option.some.inj (released'.1.symm.trans released.1)
      exact changed (by rw [← same,← rebuilt,range])
    · obtain ⟨r,released,rest⟩ := rewritten
      exact unedited e walks consumer rfl _ (decide_rewrite.mpr ⟨⟨r,released,rest⟩,r,released,rfl⟩)
  · intro c iface range q version sibling self r released
    have satisfied := v.loadable _ _ _ _ _ sibling
    obtain ⟨held,here,alone⟩ := (producers_iff v.names iface q version).mp sibling.produced
    have only : ∀ q' ∈ v.plugins, published q' iface ≠ none → q' = q := fun q' inside some =>
      List.inj_on_of_nodup_map v.names inside held (alone q' inside some)
    have former : version = r.oldVersion := by
      rw [VersionRanges.published_self self] at here
      split at here
      next => exact (Option.some.inj here).symm.trans (after_released held released).2
      next => cases here
    rw [former] at satisfied
    by_contra fails
    simp only [not_or] at fails
    obtain ⟨star,differ,untracked⟩ := fails
    obtain ⟨range',after,form⟩ := o.sibling_after leads sibling self released
    rcases kept.ranges _ _ _ _ _ after with loadable | reported
    · rcases form with rfl | ⟨rfl,tracked,simple⟩
      · rcases (satisfiesRange_iff _ _).mp loadable with again | ⟨major,first,second⟩
        · exact star again
        · rcases (satisfiesRange_iff _ _).mp satisfied with again | ⟨major',third,fourth⟩
          · exact star again
          · exact differ (second.trans (first.symm.trans (third.trans fourth.symm)))
      · exact untracked ⟨tracked,.inl ((rebuilt_iff (releaseOf_mem released.1).1 released.2 range).mp loadable)⟩
    · rw [reload_name] at reported
      obtain ⟨e,walks,consumer,rfl,reason,decided⟩ := (o.skipped _ _).mp reported
      have authored := Json.string.inj (edge_range walks sibling.member consumer sibling.declared)
      rcases decide_skip decided with wild | compound
      · exact star (wildcard_satisfied satisfied (authored ▸ wild))
      · exact untracked ⟨(edge_producer leads walks only).2 self,.inr (authored ▸ compound)⟩
  · intro edges here e walks rewritten p member consumer json file
    obtain rfl := walked here
    obtain ⟨json₁,json₂,file₁,file₂,same⟩ := o.others p member
    obtain ⟨json₃,json₄,file₃,file₄,equal⟩ := kept.others p member
    obtain rfl := Option.some.inj (file₁.symm.trans file₃)
    obtain rfl := Option.some.inj (file₂.symm.trans file₄)
    obtain rfl := Option.some.inj (file.symm.trans file₁)
    exact same.mp equal e walks consumer.symm rewritten

section Slip

def producer : WorkspacePlugin :=
  ⟨['p'],['1','.','2','.','0'],['p'],⟨some ['1','.','2','.','0'],
    some ⟨some (.object [(['x'],.string ['1','.','2','.','0'])]),none,[]⟩,[]⟩⟩

def consumer : WorkspacePlugin :=
  ⟨['c'],['1','.','0','.','0'],['c'],⟨some ['1','.','0','.','0'],
    some ⟨none,some ⟨[(['x'],.string ['^','1','.','2','.','0'])],by simp⟩,[]⟩,[]⟩⟩

def producerRelease : ComprehensiveRelease := ⟨['p'],.major,['1','.','2','.','0'],['2','.','0','.','0']⟩

/-- A major release of a plugin whose published map happens to name its package version. -/
def mapVersion : Versioning where
  satisfies _ _ := false
  plugins := [producer,consumer]
  releases := [producerRelease]
  config := some .patch
  disk dir := if dir = ['p'] then some { producer.pkg with version := some ['2','.','0','.','0'] }
    else if dir = ['c'] then some consumer.pkg else none
  names := by decide
  dirs := by decide
  loaded := by decide
  old := by decide
  moves r member := by
    obtain rfl := List.mem_singleton.mp member
    exact .inr ⟨by decide,⟨1,2,0,[],rfl⟩,⟨2,0,0,[],rfl⟩,.inl rfl,rfl,Nat.le_succ 1⟩
  written p member := by
    rcases List.mem_pair.mp member with rfl | rfl
    · exact ⟨_,rfl,rfl,rfl,rfl⟩
    · exact ⟨_,rfl,rfl,rfl,rfl⟩
  loadable c iface range q version sibling := by
    obtain ⟨member,declared,produced,_⟩ := sibling
    rcases List.mem_pair.mp member with rfl | rfl
    · cases declared
    · obtain ⟨rfl,string⟩ := Prod.mk.inj (List.mem_singleton.mp declared)
      obtain rfl := Json.string.inj string
      have here : producers [producer,consumer] ['x'] = some (producer,['1','.','2','.','0']) := rfl
      rw [here] at produced
      obtain ⟨_,rfl⟩ := Prod.mk.inj (Option.some.inj produced)
      decide

end Slip

end Versioning

end S2Script.VersionRanges
