import S2Script.VersionRangesFiles

/-! One versioning of a workspace: the plan, the files it leads to, and what the range pass makes of them. -/
namespace S2Script.VersionRanges

/-- The file of a plugin with the edits it has. -/
def afterEdits (edits : List (Text × List (Text × Text))) (disk : Disk) (p : WorkspacePlugin) : Option PackageJson :=
  match getKey p.name edits with
  | none => disk p.dir
  | some ranges => (disk p.dir).map fun json => (json.assigned ranges).saved

/-- Every edit is of a plugin whose file has dependencies. -/
def Ready (plugins : List WorkspacePlugin) (disk : Disk) (edits : List (Text × List (Text × Text))) : Prop :=
  ∀ entry ∈ edits, ∃ p ∈ plugins, p.name = entry.1 ∧ ∃ json s2 d, disk p.dir = some json ∧ json.s2script = some s2 ∧
    s2.pluginDependencies = some d

theorem find_name {plugins : List WorkspacePlugin} (names : (plugins.map WorkspacePlugin.name).Nodup) {p : WorkspacePlugin}
    (member : p ∈ plugins) : plugins.find? (fun q => q.name = p.name) = some p := by
  cases found : plugins.find? fun q => q.name = p.name with
  | none =>
    have different := List.find?_eq_none.mp found p member
    simp at different
  | some q =>
    have same : q.name = p.name := by simpa using List.find?_some found
    rw [List.inj_on_of_nodup_map names (List.mem_of_find?_eq_some found) member same]

theorem writeEdits_run {plugins : List WorkspacePlugin} (names : (plugins.map WorkspacePlugin.name).Nodup)
    (dirs : (plugins.map WorkspacePlugin.dir).Nodup) (edits : List (Text × List (Text × Text))) :
    ∀ (disk : Disk) (touched : List Text), (edits.map Prod.fst).Nodup → Ready plugins disk edits →
      ∃ disk' touched', writeEdits plugins edits disk touched = .ok (disk',touched') ∧
        (∀ p ∈ plugins, disk' p.dir = afterEdits edits disk p) ∧
        ∀ dir, (∀ p ∈ plugins, p.dir ≠ dir) → disk' dir = disk dir := by
  induction edits with
  | nil => exact fun disk touched _ _ => ⟨disk,touched,rfl,fun _ _ => rfl,fun _ _ => rfl⟩
  | cons entry rest ih =>
    intro disk touched keys ready
    obtain ⟨new,others⟩ := List.nodup_cons.mp keys
    obtain ⟨p,member,name,json,s2,d,file,block,dependencies⟩ := ready entry List.mem_cons_self
    have assigned : { json with s2script := some { s2 with pluginDependencies := some (d.assignAll entry.2) } } =
        json.assigned entry.2 := by simp [PackageJson.assigned,block,dependencies]
    have apart : ∀ q ∈ plugins, q.name ≠ entry.1 → q.dir ≠ p.dir := by
      intro q inside different same
      rw [List.inj_on_of_nodup_map dirs inside member same,name] at different
      exact different rfl
    have left : Ready plugins (Function.update disk p.dir (some (json.assigned entry.2).saved)) rest := by
      intro later inside
      obtain ⟨q,held,same,json',s2',d',file',rest'⟩ := ready later (List.mem_cons_of_mem _ inside)
      have different : q.name ≠ entry.1 := fun equal => new (List.mem_map.mpr ⟨later,inside,same.symm.trans equal⟩)
      refine ⟨q,held,same,json',s2',d',?_,rest'⟩
      rw [Function.update_of_ne (apart q held different),file']
    obtain ⟨disk',touched',run,files,elsewhere⟩ := ih _ (touched ++ [p.dir]) others left
    refine ⟨disk',touched',?_,fun q inside => ?_,fun dir outside => ?_⟩
    · rw [writeEdits,← name,find_name names member]
      simp only [file,block,dependencies,assigned]
      exact run
    · rw [files q inside,afterEdits,afterEdits,getKey_cons]
      by_cases same : entry.1 = q.name
      · obtain rfl := List.inj_on_of_nodup_map names inside member (same.symm.trans name.symm)
        rw [if_pos same,← same,getKey_none.mpr new]
        simp [file]
      · rw [if_neg same,Function.update_of_ne (apart q inside (Ne.symm same))]
    · rw [elsewhere dir outside,Function.update_of_ne (outside p member).symm]

/-- A plugin as the next load of its file finds it. -/
def reload (disk : Disk) (p : WorkspacePlugin) : WorkspacePlugin :=
  match disk p.dir with
  | none => p
  | some json => ⟨p.name,json.version.getD unversioned,p.dir,json⟩

@[simp] theorem reload_name (disk : Disk) (p : WorkspacePlugin) : (reload disk p).name = p.name := by
  rw [reload]
  split <;> rfl

/-- The version of a package once the plan is written. -/
def newVersion (releases : List ComprehensiveRelease) (p : WorkspacePlugin) : Option Text :=
  match releaseOf releases p.name with
  | some release => some release.newVersion
  | none => p.pkg.version

/-- A workspace as it was loaded, with all of its ranges satisfied, a release plan of it, and the
files with the versions of the plan. -/
structure Versioning where
  satisfies : Text → Text → Bool
  plugins : List WorkspacePlugin
  releases : List ComprehensiveRelease
  config : Option BumpType
  disk : Disk
  names : (plugins.map WorkspacePlugin.name).Nodup
  dirs : (plugins.map WorkspacePlugin.dir).Nodup
  loaded : ∀ p ∈ plugins, p.version = p.pkg.version.getD unversioned
  old : ∀ r ∈ releases, ∀ p ∈ plugins, p.name = r.name → p.version = r.oldVersion
  moves : ∀ r ∈ releases, r.Moves
  written : ∀ p ∈ plugins, ∃ json, disk p.dir = some json ∧ json.version = newVersion releases p ∧
    json.publishes = p.pkg.publishes ∧
    json.s2script.bind S2script.pluginDependencies = p.pkg.s2script.bind S2script.pluginDependencies
  loadable : ∀ consumer iface range producer version, Sibling plugins consumer iface range producer version →
    satisfiesRange version range = true

namespace Versioning

variable (v : Versioning)

def decide (e : SiblingEdge) : Decision := decision v.satisfies v.releases v.config e

def rewrite : Except Text (RangeRewriteResult × Disk) :=
  rewriteSiblingRanges v.satisfies v.plugins v.releases v.config v.disk

/-- A release of a package to another version. -/
def Released (name : Text) (r : ComprehensiveRelease) : Prop :=
  releaseOf v.releases name = some r ∧ r.newVersion ≠ r.oldVersion

/-- The pass writes a new range for an edge. -/
def Rewritten (e : SiblingEdge) : Prop :=
  ∃ r, v.Released e.producer r ∧ shouldUpdate v.satisfies r e.range v.config = true ∧ isWildcardRange e.range = false ∧
    simpleRange e.range = true ∧ rangePrefix e.range ++ r.newVersion ≠ e.range

variable {v}

theorem decide_rewrite {e : SiblingEdge} {target : Text} : v.decide e = .rewrite target ↔
    v.Rewritten e ∧ ∃ r, v.Released e.producer r ∧ target = rangePrefix e.range ++ r.newVersion := by
  rw [decide,decision]
  cases found : releaseOf v.releases e.producer with
  | none =>
    refine iff_of_false (fun kept => by cases kept) ?_
    rintro ⟨⟨r,⟨here,_⟩,_⟩,_⟩
    rw [found] at here
    cases here
  | some r =>
    have only : ∀ {r'}, v.Released e.producer r' → r' = r := fun released => Option.some.inj (released.1.symm.trans found)
    simp only
    split_ifs with same kept wild simple equal
    · refine iff_of_false (fun kept => by cases kept) ?_
      rintro ⟨⟨r',released,_⟩,_⟩
      obtain rfl := only released
      exact released.2 same
    · refine iff_of_false (fun kept => by cases kept) ?_
      rintro ⟨⟨r',released,updated,_⟩,_⟩
      obtain rfl := only released
      simp [updated] at kept
    · refine iff_of_false (fun kept => by cases kept) ?_
      rintro ⟨⟨r',_,_,tame,_⟩,_⟩
      simp [tame] at wild
    · refine iff_of_false (fun kept => by cases kept) ?_
      rintro ⟨⟨r',_,_,_,plain,_⟩,_⟩
      simp [plain] at simple
    · refine iff_of_false (fun kept => by cases kept) ?_
      rintro ⟨⟨r',released,_,_,_,changed⟩,_⟩
      obtain rfl := only released
      exact changed equal
    · have released : v.Released e.producer r := ⟨found,same⟩
      constructor
      · intro rewritten
        exact ⟨⟨r,released,by simpa using kept,by simpa using wild,by simpa using simple,equal⟩,r,released,
          (Decision.rewrite.inj rewritten).symm⟩
      · rintro ⟨_,r',released',rfl⟩
        rw [only released']

/-- What a run of the pass leaves. -/
structure Outcome (v : Versioning) (edges : List SiblingEdge) (result : RangeRewriteResult) (disk : Disk) : Prop where
  walked : siblingEdges v.plugins = .ok edges
  skipped : ∀ c i, (∃ s ∈ result.skips, s.consumer = c ∧ s.iface = i) ↔
    ∃ e ∈ edges, e.consumer = c ∧ e.iface = i ∧ ∃ reason, v.decide e = .skip reason
  range : ∀ c ∈ v.plugins, ∀ iface range, (iface,.string range) ∈ (reload disk c).pkg.dependencies ↔
    ∃ value, (iface,value) ∈ c.pkg.dependencies ∧
      ((∃ e ∈ edges, e.consumer = c.name ∧ e.iface = iface ∧ v.decide e = .rewrite range) ∨
        (∀ e ∈ edges, e.consumer = c.name → e.iface = iface → ∀ target, v.decide e ≠ .rewrite target) ∧ value = .string range)
  publishes : ∀ p ∈ v.plugins, publishedInterfaces (reload disk p) =
    expandPublishes p.pkg.publishes p.name ((newVersion v.releases p).getD unversioned)
  others : ∀ p ∈ v.plugins, ∃ json json', v.disk p.dir = some json ∧ disk p.dir = some json' ∧
    (json'.others = json.others ↔ ∀ e ∈ edges, e.consumer = p.name → v.Rewritten e → json.steady = true)
  elsewhere : ∀ dir, (∀ p ∈ v.plugins, p.dir ≠ dir) → disk dir = v.disk dir

end Versioning

theorem publishedEntries_saved (entries : List (Text × Json)) : ∀ {out : List (Text × Text)}, publishedEntries entries = .ok out →
    publishedEntries (entries.map fun e => (e.1,savedJson e.2)) = .ok out := by
  induction entries with
  | nil => exact fun run => run
  | cons e rest ih =>
    intro out run
    obtain ⟨iface,value⟩ := e
    cases value with
    | string range =>
      rw [publishedEntries] at run
      cases others : publishedEntries rest with
      | error => simp [others,bind,Except.bind] at run
      | ok more =>
        rw [List.map_cons,savedJson,publishedEntries,ih others]
        · simpa [others,bind,Except.bind] using run
        all_goals simp
    | _ => simp [publishedEntries] at run

theorem savedItems_map (items : List Json) : savedItems items = items.map savedJson := by
  induction items with
  | nil => rfl
  | cons item rest ih => rw [savedItems,ih,List.map_cons]

/-- A well-formed `publishes` block says the same after a write and a read. -/
theorem expandPublishes_saved {authored : Option Json} {name version : Text} {expanded : List (Text × Text)}
    (formed : expandPublishes authored name version = .ok expanded) :
    expandPublishes (authored.map savedJson) name version = .ok expanded := by
  cases authored with
  | none => exact formed
  | some value =>
    cases value with
    | null => exact formed
    | string => exact formed
    | object members =>
      rw [Option.map_some,savedJson,expandPublishes,savedMembers_map]
      exact publishedEntries_saved members formed
    | array items =>
      have indexed := publishedEntries_saved _ formed
      rw [Option.map_some,savedJson,expandPublishes,savedItems_map,List.zipIdx_map,List.map_map]
      rwa [List.map_map] at indexed
    | _ => cases formed

/-- Whether a block is well formed does not depend on the version. -/
theorem expandPublishes_formed {authored : Option Json} {name version : Text} {expanded : List (Text × Text)}
    (formed : expandPublishes authored name version = .ok expanded) (other : Text) :
    ∃ expanded', expandPublishes authored name other = .ok expanded' := by
  cases authored with
  | none => exact ⟨_,rfl⟩
  | some value =>
    cases value with
    | null => exact ⟨_,rfl⟩
    | string text =>
      rw [expandPublishes] at formed ⊢
      split at formed
      next => cases formed
      next self => exact ⟨_,if_neg self⟩
    | object members => exact ⟨expanded,formed⟩
    | array items => exact ⟨expanded,formed⟩
    | _ => cases formed

theorem saved_publishes (json : PackageJson) (ranges : List (Text × Text)) :
    (json.assigned ranges).saved.publishes = json.publishes.map savedJson := by
  rw [PackageJson.publishes,PackageJson.saved,PackageJson.assigned,PackageJson.publishes]
  cases json.s2script <;> rfl

theorem dependencies_block {pkg : PackageJson} {entry : Text × Json} (member : entry ∈ pkg.dependencies) :
    ∃ d, pkg.s2script.bind S2script.pluginDependencies = some d := by
  rw [PackageJson.dependencies] at member
  cases block : pkg.s2script.bind S2script.pluginDependencies with
  | none => simp [block] at member
  | some d => exact ⟨d,rfl⟩

theorem mem_edges {plugins : List WorkspacePlugin} {found : Text → Option WorkspacePlugin} {e : SiblingEdge} :
    e ∈ edgesOf plugins found →
      ∃ c ∈ plugins, e.consumer = c.name ∧ (e.iface,.string e.range) ∈ c.pkg.dependencies ∧
        ∃ producer, found e.iface = some producer ∧ producer.name = e.producer ∧ producer.name ≠ c.name := by
  intro member
  obtain ⟨c,inside,part⟩ := List.mem_flatMap.mp member
  obtain ⟨⟨iface,value⟩,declared,here⟩ := List.mem_filterMap.mp part
  obtain ⟨consumer,rfl,string,reached⟩ := siblingEdge_some here
  simp only at string
  exact ⟨c,inside,consumer,string ▸ declared,reached⟩

namespace Versioning

variable {v : Versioning}

/-- The file of a plugin has the dependencies that were loaded. -/
theorem file (p : WorkspacePlugin) (member : p ∈ v.plugins) : ∃ json, v.disk p.dir = some json ∧
    json.version = newVersion v.releases p ∧ json.publishes = p.pkg.publishes ∧
    json.dependencies = p.pkg.dependencies := by
  obtain ⟨json,file,version,publishes,dependencies⟩ := v.written p member
  exact ⟨json,file,version,publishes,by rw [PackageJson.dependencies,dependencies,PackageJson.dependencies]⟩

/-- The pass ends if every `publishes` block is well formed. -/
theorem outcome (formed : ∀ p ∈ v.plugins, ∃ expanded, publishedInterfaces p = .ok expanded) :
    ∃ found edges result disk, Found v.plugins found ∧
      edges = edgesOf v.plugins found ∧
      v.rewrite = .ok (result,disk) ∧ Outcome v edges result disk := by
  rcases siblingEdges_cases v.plugins with ⟨malformed,_⟩ | ⟨_,found,leads,walked⟩
  · exact absurd formed malformed
  have facts := fun (e : SiblingEdge) => @mem_edges v.plugins found e
  have apart := edges_apart v.names found
  generalize listed : edgesOf v.plugins found = edges at walked facts apart
  have passed : Passed v.satisfies v.releases v.config edges
      (edges.foldl (Pass.visit v.satisfies v.releases v.config) ⟨[],[],[]⟩) := by
    simpa using Passed.visitAll edges Passed.new (by simpa using apart)
  have run : v.rewrite = (writeEdits v.plugins (edges.foldl (Pass.visit v.satisfies v.releases v.config) ⟨[],[],[]⟩).edits
      v.disk []).bind fun written => .ok (⟨(edges.foldl (Pass.visit v.satisfies v.releases v.config) ⟨[],[],[]⟩).rewrites,
        (edges.foldl (Pass.visit v.satisfies v.releases v.config) ⟨[],[],[]⟩).skips,written.2⟩,written.1) := by
    rw [Versioning.rewrite,rewriteSiblingRanges,walked]
    rfl
  generalize edges.foldl (Pass.visit v.satisfies v.releases v.config) ⟨[],[],[]⟩ = pass at passed run
  have owner : ∀ e ∈ edges, ∀ p ∈ v.plugins, p.name = e.consumer → (e.iface,.string e.range) ∈ p.pkg.dependencies := by
    intro e member p inside same
    obtain ⟨c,held,consumer,declared,_⟩ := facts e member
    rwa [List.inj_on_of_nodup_map v.names inside held (same.trans consumer)]
  have targets : ∀ entry ∈ pass.edits, ∀ key ∈ entry.2.map Prod.fst, ∃ e ∈ edges, e.consumer = entry.1 ∧ e.iface = key := by
    intro entry member key inside
    obtain ⟨⟨k,t⟩,held,rfl⟩ := List.mem_map.mp inside
    have here : edited pass.edits entry.1 k = some t := by
      rw [edited,getKey_of_mem passed.keys member]
      exact getKey_of_mem (passed.each entry member).1 held
    obtain ⟨e,walks,consumer,iface,_⟩ := (passed.edits _ _ _).mp here
    exact ⟨e,walks,consumer,iface⟩
  have ready : Ready v.plugins v.disk pass.edits := by
    intro entry member
    obtain ⟨range,inside⟩ := List.exists_mem_of_ne_nil _ (passed.each entry member).2
    obtain ⟨e,walks,consumer,_⟩ := targets entry member range.1 (List.mem_map_of_mem inside)
    obtain ⟨c,held,name,declared,_⟩ := facts e walks
    obtain ⟨d,block⟩ := dependencies_block declared
    obtain ⟨json,file,_,_,same⟩ := v.written c held
    rw [block,Option.bind_eq_some_iff] at same
    obtain ⟨s2,script,dependencies⟩ := same
    exact ⟨c,held,name.symm.trans consumer,json,s2,d,file,script,dependencies⟩
  obtain ⟨disk,touched,wrote,files,elsewhere⟩ := writeEdits_run v.names v.dirs pass.edits v.disk [] passed.keys ready
  have known : ∀ p ∈ v.plugins, ∀ ranges, getKey p.name pass.edits = some ranges → (ranges.map Prod.fst).Nodup ∧
      ∀ key ∈ ranges.map Prod.fst, ∃ range, (key,.string range) ∈ p.pkg.dependencies := by
    intro p inside ranges here
    refine ⟨(passed.each _ (getKey_mem here)).1,fun key member => ?_⟩
    obtain ⟨e,walks,consumer,rfl⟩ := targets _ (getKey_mem here) key member
    exact ⟨e.range,owner e walks p inside consumer.symm⟩
  -- the edits of a plugin are the targets of its edges
  have targeted : ∀ p ∈ v.plugins, ∀ ranges, getKey p.name pass.edits = some ranges → ∀ iface target,
      getKey iface ranges = some target ↔
        ∃ e ∈ edges, e.consumer = p.name ∧ e.iface = iface ∧ v.decide e = .rewrite target := by
    intro p _ ranges here iface target
    have edits := passed.edits p.name iface target
    rwa [edited,here] at edits
  refine ⟨found,edges,⟨pass.rewrites,pass.skips,touched⟩,disk,leads,listed.symm,by rw [run,wrote]; rfl,walked,passed.skips,
    ?_,?_,?_,elsewhere⟩
  · intro c member iface range
    obtain ⟨json,file,_,_,dependencies⟩ := v.file c member
    cases here : getKey c.name pass.edits with
    | none =>
      have unedited : ∀ e ∈ edges, e.consumer = c.name → e.iface = iface → ∀ target, v.decide e ≠ .rewrite target := by
        intro e walks consumer same target rewritten
        have edits := (passed.edits c.name iface target).mpr ⟨e,walks,consumer,same,rewritten⟩
        simp [edited,here] at edits
      have kept : (reload disk c).pkg = json := by rw [reload,files c member,afterEdits,here,file]
      rw [kept,dependencies]
      constructor
      · exact fun declared => ⟨_,declared,.inr ⟨unedited,rfl⟩⟩
      · rintro ⟨value,declared,⟨e,walks,consumer,same,rewritten⟩ | ⟨_,rfl⟩⟩
        · exact absurd rewritten (unedited e walks consumer same range)
        · exact declared
    | some ranges =>
      obtain ⟨distinct,keys⟩ := known c member ranges here
      have written : (reload disk c).pkg = (json.assigned ranges).saved := by
        rw [reload,files c member,afterEdits,here,file]
        rfl
      rw [written,written_range distinct (fun key inside => ?_),dependencies]
      · refine exists_congr fun value => and_congr_right fun _ => or_congr (targeted c member ranges here iface range) ?_
        refine and_congr_left fun _ => ?_
        constructor
        · intro absent e walks consumer same target rewritten
          have here' := (targeted c member ranges here iface target).mpr ⟨e,walks,consumer,same,rewritten⟩
          rw [absent] at here'
          cases here'
        · intro none
          cases target : getKey iface ranges with
          | none => rfl
          | some t =>
            obtain ⟨e,walks,consumer,same,rewritten⟩ := (targeted c member ranges here iface t).mp target
            exact absurd rewritten (none e walks consumer same t)
      · obtain ⟨range',declared⟩ := keys key inside
        rw [dependencies]
        exact List.mem_map.mpr ⟨_,declared,rfl⟩
  · intro p member
    obtain ⟨json,file,version,publishes,_⟩ := v.file p member
    obtain ⟨expanded,formed⟩ := formed p member
    obtain ⟨expanded',formed'⟩ := expandPublishes_formed formed ((newVersion v.releases p).getD unversioned)
    cases here : getKey p.name pass.edits with
    | none =>
      rw [publishedInterfaces,reload,files p member,afterEdits,here,file]
      simp only [publishes,version]
    | some ranges =>
      rw [publishedInterfaces,reload,files p member,afterEdits,here,file]
      simp only [Option.map_some,saved_publishes,publishes]
      have kept : (json.assigned ranges).saved.version = newVersion v.releases p := version
      rw [kept,expandPublishes_saved formed',formed']
  · intro p member
    obtain ⟨json,file,_,_,dependencies⟩ := v.file p member
    cases here : getKey p.name pass.edits with
    | none =>
      refine ⟨json,json,file,by rw [files p member,afterEdits,here,file],iff_of_true rfl ?_⟩
      rintro e walks consumer ⟨r,released,rest⟩
      have rewritten := decide_rewrite.mpr ⟨⟨r,released,rest⟩,r,released,rfl⟩
      have edits := (passed.edits _ _ _).mpr ⟨e,walks,consumer,rfl,rewritten⟩
      simp [edited,here] at edits
    | some ranges =>
      obtain ⟨distinct,keys⟩ := known p member ranges here
      refine ⟨json,(json.assigned ranges).saved,file,by rw [files p member,afterEdits,here,file]; rfl,?_⟩
      rw [written_others distinct (by rw [dependencies]; exact keys)]
      constructor
      · exact fun steady _ _ _ _ => steady
      · intro steady
        obtain ⟨range,inside⟩ := List.exists_mem_of_ne_nil _ (passed.each _ (getKey_mem here)).2
        obtain ⟨e,walks,consumer,_,rewritten⟩ := (targeted p member ranges here range.1 range.2).mp
          (getKey_of_mem distinct inside)
        exact steady e walks consumer (decide_rewrite.mp rewritten).1

end Versioning

end S2Script.VersionRanges
