import S2Script.AdminPolicySafety

/-! The loops over the admin files put into the cache what the files say, and every action keeps
the cache and the policy in step. -/
namespace S2Script.Admin

section Resolving

variable (upper : String → String)

theorem parseGroups_lookup (obj : Table String (Option Group)) (name : String) :
    (parseGroups upper obj).lookup name = (shown obj name).join.map (groupInfo upper) := by
  rw [parseGroups,Table.lookup_collectInto,shown]
  split
  · cases obj.lookup name <;> rfl
  · cases found : obj.lookup name with
    | none => rfl
    | some value => cases value <;> rfl

theorem groupInfo_override (group : Group) (cmd : String) :
    (groupInfo upper group).overrides.lookup cmd = group.override upper cmd := by
  rw [groupInfo,Table.lookup_collectInto,Group.override]
  cases group.overrides with
  | none => rfl
  | some tokens => exact Option.or_none

/-- The listed groups that are registered, in the order of the list. -/
def known (groups : Table String GroupInfo) (listed : List String) : List GroupInfo :=
  listed.filterMap fun name => groups.lookup name

@[simp] theorem known_nil (groups : Table String GroupInfo) : known groups [] = [] := rfl

theorem known_cons_none {groups : Table String GroupInfo} {name : String} (rest : List String)
    (absent : groups.lookup name = none) : known groups (name :: rest) = known groups rest :=
  List.filterMap_cons_none (f := fun name => groups.lookup name) absent

theorem known_cons_some {groups : Table String GroupInfo} {name : String} {info : GroupInfo} (rest : List String)
    (found : groups.lookup name = some info) : known groups (name :: rest) = info :: known groups rest :=
  List.filterMap_cons_some (f := fun name => groups.lookup name) found

theorem listGroup_unknown {groups : Table String GroupInfo} {name : String} (resolved : Resolved)
    (absent : groups.lookup name = none) : listGroup groups resolved name = resolved := by
  rw [listGroup,absent]

theorem listGroups_mask (groups : Table String GroupInfo) (listed : List String) (resolved : Resolved) :
    bits (listed.foldl (listGroup groups) resolved).mask =
      bits resolved.mask ∪ {index | ∃ info ∈ known groups listed, index ∈ bits info.flags} := by
  induction listed generalizing resolved with
  | nil => simp
  | cons name rest ih =>
    rw [List.foldl_cons,ih]
    cases found : groups.lookup name with
    | none => rw [listGroup_unknown resolved found,known_cons_none rest found]
    | some info =>
      rw [known_cons_some rest found,listGroup,found]
      ext index
      simp [or_assoc]

theorem isGreatest_max {low high greatest : Int} {levels : Set Int} (here : IsGreatest ({max low high} ∪ levels) greatest) :
    IsGreatest ({low} ∪ ({high} ∪ levels)) greatest := by
  constructor
  · rcases here.1 with same | member
    · rw [Set.mem_singleton_iff] at same
      rcases max_choice low high with lower | higher
      · exact .inl (same.trans lower)
      · exact .inr (.inl (same.trans higher))
    · exact .inr (.inr member)
  · have above : max low high ≤ greatest := here.2 (.inl rfl)
    rintro level (rfl | rfl | member)
    · exact (le_max_left level high).trans above
    · exact (le_max_right low level).trans above
    · exact here.2 (.inr member)

theorem listGroups_immunity (groups : Table String GroupInfo) (listed : List String) (resolved : Resolved) :
    IsGreatest ({resolved.immunity} ∪ {level | ∃ info ∈ known groups listed, level = info.immunity})
      (listed.foldl (listGroup groups) resolved).immunity := by
  induction listed generalizing resolved with
  | nil => simp [IsGreatest]
  | cons name rest ih =>
    rw [List.foldl_cons]
    cases found : groups.lookup name with
    | none =>
      rw [listGroup_unknown resolved found,known_cons_none rest found]
      exact ih resolved
    | some info =>
      have next := ih (listGroup groups resolved name)
      have higher : (listGroup groups resolved name).immunity = max resolved.immunity info.immunity := by
        rw [listGroup,found]
      rw [higher] at next
      have all := isGreatest_max next
      rw [known_cons_some rest found]
      have split : {level | ∃ other ∈ info :: known groups rest, level = other.immunity} =
          {info.immunity} ∪ {level | ∃ other ∈ known groups rest, level = other.immunity} := by
        ext level
        simp
      rw [split]
      exact all

theorem listGroups_overrides (groups : Table String GroupInfo) (listed : List String) (resolved : Resolved) (cmd : String) :
    (listed.foldl (listGroup groups) resolved).overrides.lookup cmd =
      ((known groups listed).reverse.findSome? fun info => info.overrides.lookup cmd).or
        (resolved.overrides.lookup cmd) := by
  induction listed generalizing resolved with
  | nil => rfl
  | cons name rest ih =>
    rw [List.foldl_cons,ih]
    cases found : groups.lookup name with
    | none => rw [listGroup_unknown resolved found,known_cons_none rest found]
    | some info =>
      have merged : (listGroup groups resolved name).overrides.lookup cmd =
          (info.overrides.lookup cmd).or (resolved.overrides.lookup cmd) := by
        rw [listGroup,found]
        simp only [Table.lookup_collectInto]
        cases info.overrides.lookup cmd <;> rfl
      rw [merged,known_cons_some rest found,List.reverse_cons,List.findSome?_append,Option.or_assoc]
      congr 1
      simp only [List.findSome?_cons,List.findSome?_nil]
      cases info.overrides.lookup cmd <;> rfl

/-- The registry that a load resolves its entries against is the one it has just parsed. -/
structure Registered (groups : Table String GroupInfo) (contents : Contents) : Prop where
  lookup : ∀ name, groups.lookup name = (contents.groups name).map (groupInfo upper)

namespace Registered

variable {upper} {groups : Table String GroupInfo} {contents : Contents}

theorem listed (registered : Registered upper groups contents) (entry : Entry) :
    known groups entry.groups = (contents.listed entry).map (groupInfo upper) := by
  rw [known,Contents.listed,List.map_filterMap]
  exact List.filterMap_congr fun name _ => registered.lookup name

theorem mask (registered : Registered upper groups contents) (entry : Entry) :
    bits (resolveEntry upper groups entry).mask =
      names upper entry.flags ∪ {index | ∃ group ∈ contents.listed entry, index ∈ names upper group.flags} := by
  have listed' := registered.listed entry
  cases entry with
  | record flags immunity listed =>
    have folded := listGroups_mask groups (listed.getD []) ⟨parseFlags upper flags,max 0 (immunity.getD 0),[],∅⟩
    rw [show known groups (listed.getD []) = _ from listed',bits_parseFlags] at folded
    rw [resolveEntry,folded]
    ext index
    simp [groupInfo,bits_parseFlags,Entry.flags]
  | list texts => simp [resolveEntry,bits_parseFlags,Entry.flags,Contents.listed,Entry.groups]
  | other => simp [resolveEntry,Entry.flags,Contents.listed,Entry.groups,names]

theorem immunity (registered : Registered upper groups contents) (entry : Entry) :
    IsGreatest {level | level = 0 ∨ level = entry.immunity.getD 0 ∨ ∃ group ∈ contents.listed entry, level = group.immunity.getD 0}
      (resolveEntry upper groups entry).immunity := by
  have listed' := registered.listed entry
  cases entry with
  | record flags immunity listed =>
    have folded := isGreatest_max
      (listGroups_immunity groups (listed.getD []) ⟨parseFlags upper flags,max 0 (immunity.getD 0),[],∅⟩)
    rw [show known groups (listed.getD []) = _ from listed'] at folded
    have same : {level | level = 0 ∨ level = immunity.getD 0 ∨
          ∃ group ∈ contents.listed (.record flags immunity listed), level = group.immunity.getD 0} =
        {0} ∪ ({immunity.getD 0} ∪ {level | ∃ info ∈ (contents.listed (.record flags immunity listed)).map (groupInfo upper),
          level = info.immunity}) := by
      ext level
      simp [groupInfo]
      exact or_left_comm
    rw [Entry.immunity,same]
    exact folded
  | list texts => simp [resolveEntry,Contents.listed,Entry.groups,Entry.immunity,IsGreatest]
  | other => simp [resolveEntry,Contents.listed,Entry.groups,Entry.immunity,IsGreatest]

theorem override (registered : Registered upper groups contents) (entry : Entry) (cmd : String) :
    (resolveEntry upper groups entry).overrides.lookup cmd =
      (contents.listed entry).reverse.findSome? fun group => group.override upper cmd := by
  have listed' := registered.listed entry
  cases entry with
  | record flags immunity listed =>
    rw [resolveEntry,listGroups_overrides,show known groups (listed.getD []) = _ from listed',
      ← List.map_reverse,List.findSome?_map]
    have same : ((fun info : GroupInfo => info.overrides.lookup cmd) ∘ groupInfo upper) = fun group => group.override upper cmd :=
      funext fun group => groupInfo_override upper group cmd
    rw [same]
    exact Option.or_none
  | list texts => rfl
  | other => rfl

end Registered

/-- The file tier of a cache says what the files say. -/
structure Filed (cache : Cache) (contents : Contents) : Prop where
  flags : ∀ sid, bits ((cache.file.lookup sid).getD 0) = contents.held upper sid
  immunity : ∀ sid, IsGreatest (contents.levels sid) ((cache.fileImmunity.lookup sid).getD 0)
  own : ∀ sid cmd, cache.overrides.get sid cmd = contents.ownOverride upper sid cmd
  global : ∀ cmd, cache.globalOverrides.lookup cmd = contents.globalOverride upper cmd

/-- A cache with nothing from the files. -/
structure Cleared (cache : Cache) : Prop where
  file : cache.file = ∅
  fileImmunity : cache.fileImmunity = ∅
  overrides : cache.overrides = .new
  globalOverrides : cache.globalOverrides = ∅

/-- Loading the files touches the file tier only. -/
structure SameTier (cache loaded : Cache) : Prop where
  runtime : loaded.runtime = cache.runtime
  runtimeImmunity : loaded.runtimeImmunity = cache.runtimeImmunity
  loaded : loaded.loaded = cache.loaded

end Resolving

namespace Host

variable (upper : String → String)

theorem pushEntry_file (cache : Cache) (sid : String) (resolved : Resolved) :
    (pushEntry cache sid resolved).file = cache.file.insert sid (Cache.unsigned resolved.mask) :=
  Table.visit_keeps (pushOverride sid) Cache.file (fun _ _ _ => rfl) _ _

theorem pushEntry_fileImmunity (cache : Cache) (sid : String) (resolved : Resolved) :
    (pushEntry cache sid resolved).fileImmunity = cache.fileImmunity.insert sid resolved.immunity :=
  Table.visit_keeps (pushOverride sid) Cache.fileImmunity (fun _ _ _ => rfl) _ _

theorem pushEntry_globalOverrides (cache : Cache) (sid : String) (resolved : Resolved) :
    (pushEntry cache sid resolved).globalOverrides = cache.globalOverrides :=
  Table.visit_keeps (pushOverride sid) Cache.globalOverrides (fun _ _ _ => rfl) _ _

theorem pushEntry_sameTier (cache : Cache) (sid : String) (resolved : Resolved) :
    SameTier cache (pushEntry cache sid resolved) where
  runtime := Table.visit_keeps (pushOverride sid) Cache.runtime (fun _ _ _ => rfl) _ _
  runtimeImmunity := Table.visit_keeps (pushOverride sid) Cache.runtimeImmunity (fun _ _ _ => rfl) _ _
  loaded := Table.visit_keeps (pushOverride sid) Cache.loaded (fun _ _ _ => rfl) _ _

theorem pushEntry_overrides (cache : Cache) (sid other cmd : String) (resolved : Resolved) :
    (pushEntry cache sid resolved).overrides.get other cmd =
      if other = sid then
        ((resolved.overrides.lookup cmd).map fun override => ⟨Cache.unsigned override.mask,override.isPublic⟩).or
          (cache.overrides.get sid cmd)
      else cache.overrides.get other cmd := by
  split
  next same =>
    subst same
    have visited := Table.visit_view (pushOverride other) (fun cache => cache.overrides.get other cmd)
      (fun override _ => some ⟨Cache.unsigned override.mask,override.isPublic⟩) cmd
      (fun cache override => by simp [pushOverride,Cache.addOverride,FoldTable.get_insert])
      (fun cache found override different => by simp [pushOverride,Cache.addOverride,FoldTable.get_insert,Ne.symm different])
      resolved.overrides (cache.set other resolved.mask resolved.immunity false)
    rw [pushEntry,visited]
    cases resolved.overrides.lookup cmd <;> rfl
  next different =>
    exact Table.visit_keeps (pushOverride sid) (fun cache : Cache => cache.overrides.get other cmd)
      (fun cache found override => by simp [pushOverride,Cache.addOverride,FoldTable.get_insert,different]) _ _

/-- What the loop does at a SteamID that only its own entry changes. -/
theorem parseAdmins_view {X : Type} (groups : Table String GroupInfo) (obj : Table String Entry) (cache : Cache)
    (view : Cache → X) (change : Resolved → X → X) (sid : String)
    (changes : ∀ cache resolved, view (pushEntry cache sid resolved) = change resolved (view cache))
    (frame : ∀ cache other resolved, other ≠ sid → view (pushEntry cache other resolved) = view cache) :
    view (parseAdmins upper groups obj true cache).2 =
      (shown obj sid).elim (view cache) fun entry => change (resolveEntry upper groups entry) (view cache) := by
  have visited := Table.visit_view (parseAdmin upper groups true) (fun found => view found.2)
    (fun entry old => if sid = "_help" then old else change (resolveEntry upper groups entry) old) sid
    (fun found entry => by
      simp only [parseAdmin]
      split
      · rfl
      · exact changes found.2 _)
    (fun found other entry different => by
      simp only [parseAdmin]
      split
      · rfl
      · exact frame found.2 other _ different) obj (∅,cache)
  rw [parseAdmins,visited,shown]
  by_cases help : sid = "_help"
  · simp only [if_pos help]
    cases obj.lookup sid <;> rfl
  · simp only [if_neg help]

theorem parseAdmins_keeps {X : Type} (groups : Table String GroupInfo) (obj : Table String Entry) (pushCore : Bool)
    (cache : Cache) (view : Cache → X) (keeps : ∀ cache sid resolved, view (pushEntry cache sid resolved) = view cache) :
    view (parseAdmins upper groups obj pushCore cache).2 = view cache :=
  Table.visit_keeps (parseAdmin upper groups pushCore) (fun found => view found.2)
    (fun found sid entry => by
      simp only [parseAdmin]
      split
      · rfl
      · cases pushCore with
        | false => rfl
        | true => exact keeps found.2 sid _) obj (∅,cache)

/-- A context that does not push leaves the host's cache alone. -/
theorem parseAdmins_display (groups : Table String GroupInfo) (obj : Table String Entry) (cache : Cache) :
    (parseAdmins upper groups obj false cache).2 = cache :=
  Table.visit_keeps (parseAdmin upper groups false) (fun found => found.2)
    (fun found sid entry => by
      simp only [parseAdmin]
      split <;> rfl) obj (∅,cache)

theorem parseOverrides_keeps {X : Type} (obj : Table String FlagsValue) (cache : Cache) (view : Cache → X)
    (keeps : ∀ cache cmd mask isPublic, view (cache.setGlobalOverride cmd mask isPublic) = view cache) :
    view (parseOverrides upper obj cache) = view cache :=
  Table.visit_keeps (parseOverride upper) view
    (fun cache cmd value => by
      simp only [parseOverride]
      split
      · rfl
      · split
        · exact keeps cache cmd _ _
        · rfl) obj cache

theorem parseOverrides_lookup (obj : Table String FlagsValue) (cache : Cache) (cmd : String) :
    (parseOverrides upper obj cache).globalOverrides.lookup cmd =
      ((shown obj cmd).bind (parseOverrideToken upper)).or (cache.globalOverrides.lookup cmd) := by
  have visited := Table.visit_view (parseOverride upper) (fun cache => cache.globalOverrides.lookup cmd)
    (fun value old => if cmd = "_help" then old else (parseOverrideToken upper value).or old) cmd
    (fun cache value => by
      simp only [parseOverride]
      split
      · rfl
      · cases parsed : parseOverrideToken upper value with
        | none => rfl
        | some override =>
          simp [Cache.setGlobalOverride,unsigned_override upper parsed])
    (fun cache other value different => by
      simp only [parseOverride]
      split
      · rfl
      · split
        · simp [Cache.setGlobalOverride,Ne.symm different]
        · rfl) obj cache
  rw [parseOverrides,visited,shown]
  by_cases help : cmd = "_help"
  · simp only [if_pos help]
    cases obj.lookup cmd <;> rfl
  · simp only [if_neg help]
    cases obj.lookup cmd <;> rfl

end Host

end S2Script.Admin
