import S2Script.AdminPolicyRuns

/-! Every action keeps the host's cache and the policy in step, so that whatever has been loaded,
reloaded, added and removed, the check admits whom the policy admits. -/
namespace S2Script.Admin

variable (upper : String → String)

theorem shown_empty {V : Type} : shown (∅ : Table String V) = fun _ => none := by
  funext name
  rw [shown]
  split <;> rfl

/-- A template is read as the file that was missing. -/
theorem readOrTemplate_shown {V : Type} (help : V) (text : FileText V) :
    shown (readOrTemplate help text).1 = shown text.fields ∧
      shown (readOrTemplate help text).2.fields = shown text.fields := by
  cases text with
  | missing =>
    refine ⟨rfl,?_⟩
    funext name
    simp only [readOrTemplate,FileText.fields,shown]
    split
    · rfl
    next other => exact AList.lookup_eq_none.mpr (by simpa [AList.mem_keys,AList.singleton] using other)
  | malformed => exact ⟨rfl,rfl⟩
  | scalar => exact ⟨rfl,rfl⟩
  | object fields => exact ⟨rfl,rfl⟩

namespace Host

theorem reloadAll_contents (host : Host) (context : String) (pushCore : Bool) :
    (host.reloadAll upper context pushCore).disk.contents = host.disk.contents := by
  have groups := (readOrTemplate_shown none host.disk.groups).2
  have admins := (readOrTemplate_shown Entry.other host.disk.admins).2
  have overrides := (readOrTemplate_shown FlagsValue.other host.disk.overrides).2
  cases pushCore <;> simp [reloadAll,Disk.contents,groups,admins,overrides]

theorem reloadAll_registered (disk : Disk) :
    Registered upper (parseGroups upper (readOrTemplate none disk.groups).1) disk.contents where
  lookup name := by
    rw [parseGroups_lookup,(readOrTemplate_shown none disk.groups).1]
    rfl

/-- The caches that a load leaves, before and after the global overrides. -/
theorem reloadAll_cache (host : Host) (context : String) :
    (host.reloadAll upper context true).cache =
      parseOverrides upper (readOrTemplate FlagsValue.other host.disk.overrides).1
        (parseAdmins upper (parseGroups upper (readOrTemplate none host.disk.groups).1)
          (readOrTemplate Entry.other host.disk.admins).1 true host.cache).2 := rfl

theorem reloadAll_view {X : Type} (host : Host) (context : String) (view : Cache → X) (change : Resolved → X → X) (sid : String)
    (changes : ∀ cache resolved, view (pushEntry cache sid resolved) = change resolved (view cache))
    (frame : ∀ cache other resolved, other ≠ sid → view (pushEntry cache other resolved) = view cache)
    (keeps : ∀ cache cmd mask isPublic, view (cache.setGlobalOverride cmd mask isPublic) = view cache) :
    view (host.reloadAll upper context true).cache =
      (host.disk.contents.admins sid).elim (view host.cache) fun entry =>
        change (resolveEntry upper (parseGroups upper (readOrTemplate none host.disk.groups).1) entry) (view host.cache) := by
  rw [reloadAll_cache,parseOverrides_keeps upper _ _ view keeps,
    parseAdmins_view upper _ _ host.cache view change sid changes frame,(readOrTemplate_shown Entry.other host.disk.admins).1]
  rfl

theorem filed_reloadAll (host : Host) (context : String) (cleared : Cleared host.cache) :
    Filed upper (host.reloadAll upper context true).cache host.disk.contents where
  flags sid := by
    have here := reloadAll_view upper host context (fun cache => cache.file.lookup sid)
      (fun resolved _ => some (Cache.unsigned resolved.mask)) sid
      (fun cache resolved => by simp [pushEntry_file])
      (fun cache other resolved different => by simp [pushEntry_file,Ne.symm different]) (fun _ _ _ _ => rfl)
    rw [here,cleared.file]
    cases found : host.disk.contents.admins sid with
    | none => simp [Contents.held,found]
    | some entry =>
      have mask := (reloadAll_registered upper host.disk).mask entry
      have small := @unsigned_of_small (resolveEntry upper
        (parseGroups upper (readOrTemplate none host.disk.groups).1) entry).mask (by
          rw [mask]
          rintro (high | ⟨group,_,high⟩)
          · exact names_small upper _ high
          · exact names_small upper _ high)
      simp only [Option.elim_some,Option.getD_some,small,mask]
      ext index
      simp [Contents.held,found]
  immunity sid := by
    have here := reloadAll_view upper host context (fun cache => cache.fileImmunity.lookup sid)
      (fun resolved _ => some resolved.immunity) sid
      (fun cache resolved => by simp [pushEntry_fileImmunity])
      (fun cache other resolved different => by simp [pushEntry_fileImmunity,Ne.symm different]) (fun _ _ _ _ => rfl)
    rw [here,cleared.fileImmunity]
    cases found : host.disk.contents.admins sid with
    | none => simp [Contents.levels,found,IsGreatest]
    | some entry =>
      simpa [Contents.levels,found] using (reloadAll_registered upper host.disk).immunity entry
  own sid cmd := by
    have here := reloadAll_view upper host context (fun cache => cache.overrides.get sid cmd)
      (fun resolved old => ((resolved.overrides.lookup cmd).map fun override =>
        ⟨Cache.unsigned override.mask,override.isPublic⟩).or old) sid
      (fun cache resolved => by rw [pushEntry_overrides,if_pos rfl])
      (fun cache other resolved different => by rw [pushEntry_overrides,if_neg (Ne.symm different)]) (fun _ _ _ _ => rfl)
    rw [here,cleared.overrides,Contents.ownOverride]
    cases host.disk.contents.admins sid with
    | none => rfl
    | some entry =>
      simp only [Option.elim_some,FoldTable.get_new,Option.or_none,Option.bind_some,
        (reloadAll_registered upper host.disk).override entry cmd]
      cases found : (host.disk.contents.listed entry).reverse.findSome? fun group => group.override upper cmd with
      | none => rfl
      | some override =>
        obtain ⟨group,_,given⟩ := List.exists_of_findSome?_eq_some found
        obtain ⟨token,_,parsed⟩ := Option.bind_eq_some_iff.mp given
        rw [Option.map_some,unsigned_override upper parsed]
  global cmd := by
    have kept := parseAdmins_keeps upper (parseGroups upper (readOrTemplate none host.disk.groups).1)
      (readOrTemplate Entry.other host.disk.admins).1 true host.cache Cache.globalOverrides
      (fun cache sid resolved => pushEntry_globalOverrides cache sid resolved)
    rw [reloadAll_cache,parseOverrides_lookup,kept,cleared.globalOverrides,
      (readOrTemplate_shown FlagsValue.other host.disk.overrides).1]
    exact Option.or_none

theorem reloadAll_sameTier (host : Host) (context : String) (pushCore : Bool) :
    SameTier host.cache (host.reloadAll upper context pushCore).cache := by
  have keeps {X : Type} (view : Cache → X) (pushed : ∀ cache sid resolved, view (pushEntry cache sid resolved) = view cache)
      (set : ∀ cache cmd mask isPublic, view (cache.setGlobalOverride cmd mask isPublic) = view cache) :
      view (host.reloadAll upper context pushCore).cache = view host.cache := by
    cases pushCore with
    | false => exact parseAdmins_keeps upper _ _ false host.cache view pushed
    | true =>
      rw [reloadAll_cache,parseOverrides_keeps upper _ _ view set]
      exact parseAdmins_keeps upper _ _ true host.cache view pushed
  exact ⟨keeps Cache.runtime (fun cache sid resolved => (pushEntry_sameTier cache sid resolved).runtime) fun _ _ _ _ => rfl,
    keeps Cache.runtimeImmunity (fun cache sid resolved => (pushEntry_sameTier cache sid resolved).runtimeImmunity) fun _ _ _ _ => rfl,
    keeps Cache.loaded (fun cache sid resolved => (pushEntry_sameTier cache sid resolved).loaded) fun _ _ _ _ => rfl⟩

theorem reloadAll_display (host : Host) (context : String) : (host.reloadAll upper context false).cache = host.cache :=
  parseAdmins_display upper _ _ host.cache

theorem mem_reloadAll (host : Host) (context other : String) (pushCore : Bool) :
    other ∈ (host.reloadAll upper context pushCore).contexts ↔ other = context ∨ other ∈ host.contexts := by
  cases pushCore <;> simp [reloadAll,AList.mem_insert]

theorem reloadAll_clients (host : Host) (context : String) (pushCore : Bool) :
    (host.reloadAll upper context pushCore).clients = host.clients := by
  cases pushCore <;> rfl

end Host

/-- The host's state says what the policy says. -/
structure Represents (host : Host) (policy : Policy) : Prop where
  disk : host.disk.contents = policy.disk
  loaded : host.cache.loaded = policy.loaded
  opened : ∀ context, context ∈ host.contexts ↔ policy.opened context = true
  marked : ∀ context, policy.opened context = true → policy.loaded = true
  cleared : policy.loaded = false → Cleared host.cache
  filed : Filed upper host.cache policy.read
  runtime : ∀ sid, host.cache.runtime.lookup sid = (policy.added sid).map fun added => Cache.unsigned added.1
  runtimeImmunity : ∀ sid, host.cache.runtimeImmunity.lookup sid = (policy.added sid).map fun added => added.2
  clients : ∀ slot, host.clientSteamid slot = policy.steamId slot

namespace Represents

theorem filed_empty : Filed upper .empty .empty where
  flags sid := by simp [Cache.empty,Contents.held,Contents.empty]
  immunity sid := by simp [Cache.empty,Contents.levels,Contents.empty,IsGreatest]
  own sid cmd := rfl
  global cmd := rfl

theorem start (disk : Disk) : Represents upper (.start disk) (.start disk) where
  disk := rfl
  loaded := rfl
  opened context := by simp [Host.start,Policy.start]
  marked context opened := by simp [Policy.start] at opened
  cleared _ := ⟨rfl,rfl,rfl,rfl⟩
  filed := filed_empty upper
  runtime _ := rfl
  runtimeImmunity _ := rfl
  clients _ := rfl

variable {upper} {host : Host} {policy : Policy}

/-- A load from a cleared cache. -/
theorem load (represents : Represents upper host policy) (context : String) (cache : Cache)
    (clear : Cleared cache) (runtime : cache.runtime = host.cache.runtime)
    (runtimeImmunity : cache.runtimeImmunity = host.cache.runtimeImmunity) (marked : cache.loaded = true) :
    Represents upper (({ host with cache := cache } : Host).reloadAll upper context true)
      { policy with loaded := true, read := policy.disk,
                    opened := fun other => if other = context then true else policy.opened other } := by
  have tier := Host.reloadAll_sameTier upper { host with cache := cache } context true
  have filed := Host.filed_reloadAll upper { host with cache := cache } context clear
  constructor
  · exact (Host.reloadAll_contents upper _ context true).trans represents.disk
  · exact tier.loaded.trans marked
  · intro other
    rw [Host.mem_reloadAll]
    by_cases here : other = context
    · simp [here]
    · simpa [here] using represents.opened other
  · exact fun _ _ => rfl
  · exact fun unloaded => nomatch unloaded
  · rwa [represents.disk] at filed
  · intro sid
    rw [tier.runtime,← represents.runtime sid,← runtime]
  · intro sid
    rw [tier.runtimeImmunity,← represents.runtimeImmunity sid,← runtimeImmunity]
  · intro slot
    rw [← represents.clients slot,Host.clientSteamid,Host.reloadAll_clients,Host.clientSteamid]

theorem openContext (represents : Represents upper host policy) (context : String) :
    Represents upper (host.openContext upper context) (policy.step (.openContext context)) := by
  cases loaded : policy.loaded with
  | false =>
    have fresh := represents.cleared loaded
    have unmarked : host.cache.loaded = false := represents.loaded.trans loaded
    have first := represents.load context host.cache.markLoaded.1
      ⟨fresh.file,fresh.fileImmunity,fresh.overrides,fresh.globalOverrides⟩ rfl rfl rfl
    simpa [Host.openContext,Cache.markLoaded,unmarked,Policy.step,loaded] using first
  | true =>
    have marked : host.cache.loaded = true := represents.loaded.trans loaded
    have again : host.openContext upper context = host.reloadAll upper context false := by
      rw [Host.openContext,Cache.markLoaded,marked]
      congr 1
      rw [← marked]
    rw [again]
    constructor
    · exact (Host.reloadAll_contents upper _ context false).trans represents.disk
    · rw [Host.reloadAll_display]
      exact marked
    · intro other
      rw [Host.mem_reloadAll]
      by_cases here : other = context
      · simp [here,Policy.step]
      · simpa [here,Policy.step] using represents.opened other
    · exact fun _ _ => rfl
    · exact fun unloaded => nomatch unloaded
    · simpa [Host.reloadAll_display,Policy.step,loaded] using represents.filed
    · intro sid
      rw [Host.reloadAll_display]
      exact represents.runtime sid
    · intro sid
      rw [Host.reloadAll_display]
      exact represents.runtimeImmunity sid
    · intro slot
      rw [Host.clientSteamid,Host.reloadAll_clients]
      exact represents.clients slot

theorem reload (represents : Represents upper host policy) {context : String} (opened : policy.opened context = true) :
    Represents upper (host.reload upper context) { policy with read := policy.disk } := by
  have loaded := represents.marked context opened
  have read := represents.load context host.cache.clearFile ⟨rfl,rfl,rfl,rfl⟩ rfl rfl
    (represents.loaded.trans loaded)
  have same : (fun other => if other = context then true else policy.opened other) = policy.opened := by
    funext other
    split
    next here => rw [here,opened]
    next => rfl
  rw [same] at read
  simpa only [Host.reload,loaded] using read

/-- What touches neither the files nor the contexts. -/
theorem change (represents : Represents upper host policy) (cache : Cache) {added : String → Option (Flags × Int)}
    (file : cache.file = host.cache.file) (fileImmunity : cache.fileImmunity = host.cache.fileImmunity)
    (overrides : cache.overrides = host.cache.overrides) (globalOverrides : cache.globalOverrides = host.cache.globalOverrides)
    (loaded : cache.loaded = host.cache.loaded)
    (runtime : ∀ sid, cache.runtime.lookup sid = (added sid).map fun added => Cache.unsigned added.1)
    (runtimeImmunity : ∀ sid, cache.runtimeImmunity.lookup sid = (added sid).map fun added => added.2) :
    Represents upper { host with cache := cache } { policy with added := added } where
  disk := represents.disk
  loaded := loaded.trans represents.loaded
  opened := represents.opened
  marked := represents.marked
  cleared unloaded :=
    have fresh := represents.cleared unloaded
    ⟨file.trans fresh.file,fileImmunity.trans fresh.fileImmunity,overrides.trans fresh.overrides,
      globalOverrides.trans fresh.globalOverrides⟩
  filed := by
    obtain ⟨flags,immunity,own,global⟩ := represents.filed
    constructor
    · simpa only [file] using flags
    · simpa only [fileImmunity] using immunity
    · simpa only [overrides] using own
    · simpa only [globalOverrides] using global
  runtime := runtime
  runtimeImmunity := runtimeImmunity
  clients := represents.clients

theorem step (represents : Represents upper host policy) (action : Action) :
    Represents upper (host.step upper action) (policy.step action) := by
  cases action with
  | openContext context => exact represents.openContext context
  | closeContext context =>
    constructor
    · exact represents.disk
    · exact represents.loaded
    · intro other
      by_cases here : other = context
      · simp [Host.step,Policy.step,here,AList.mem_erase]
      · simpa [Host.step,Policy.step,here,AList.mem_erase] using represents.opened other
    · intro other opened
      simp only [Policy.step] at opened ⊢
      split at opened
      · cases opened
      · exact represents.marked other opened
    · exact represents.cleared
    · exact represents.filed
    · exact represents.runtime
    · exact represents.runtimeImmunity
    · exact represents.clients
  | add sid flags immunity =>
    apply represents.change (host.cache.set sid flags immunity true) rfl rfl rfl rfl rfl
    · intro other
      rw [show (host.cache.set sid flags immunity true).runtime = host.cache.runtime.insert sid (Cache.unsigned flags) from rfl,
        Table.lookup_insert_eq]
      split
      · rfl
      · exact represents.runtime other
    · intro other
      rw [show (host.cache.set sid flags immunity true).runtimeImmunity = host.cache.runtimeImmunity.insert sid immunity from rfl,
        Table.lookup_insert_eq]
      split
      · rfl
      · exact represents.runtimeImmunity other
  | remove sid =>
    apply represents.change (host.cache.remove sid true) rfl rfl rfl rfl rfl
    · intro other
      rw [show (host.cache.remove sid true).runtime = host.cache.runtime.erase sid from rfl,Table.lookup_erase_eq]
      split
      · rfl
      · exact represents.runtime other
    · intro other
      rw [show (host.cache.remove sid true).runtimeImmunity = host.cache.runtimeImmunity.erase sid from rfl,
        Table.lookup_erase_eq]
      split
      · rfl
      · exact represents.runtimeImmunity other
  | reload context =>
    simp only [Host.step,Policy.step,represents.opened context]
    split
    next opened => exact represents.reload opened
    next => exact represents
  | edit disk => exact { represents with disk := rfl }
  | connect slot sid =>
    refine { represents with clients := fun other => ?_ }
    have before := represents.clients other
    simp only [Host.clientSteamid] at before
    simp only [Host.step,Policy.step,Host.clientSteamid,Table.lookup_insert_eq]
    split
    · rfl
    · exact before
  | disconnect slot =>
    refine { represents with clients := fun other => ?_ }
    have before := represents.clients other
    simp only [Host.clientSteamid] at before
    simp only [Host.step,Policy.step,Host.clientSteamid,Table.lookup_erase_eq]
    split
    · rfl
    · exact before
  | reinit =>
    exact ⟨represents.disk,rfl,fun _ => by simp [Host.step,Policy.step],fun _ opened => (by cases opened),
      fun _ => ⟨rfl,rfl,rfl,rfl⟩,filed_empty upper,fun _ => rfl,fun _ => rfl,represents.clients⟩

theorem run (represents : Represents upper host policy) (actions : List Action) :
    Represents upper (host.run upper actions) (policy.run actions) := by
  induction actions generalizing host policy with
  | nil => exact represents
  | cons action rest ih => exact ih (represents.step action)

/-- The flags in force. -/
theorem held (represents : Represents upper host policy) (sid : String) :
    bits (host.cache.get sid) = policy.held upper sid := by
  rw [Cache.get,bits_or,represents.filed.flags,represents.runtime sid,Policy.held]
  congr 1
  cases policy.added sid with
  | none => simp
  | some added =>
    obtain ⟨flags,immunity⟩ := added
    have sign : (31 : Nat) ∉ bits flags ↔ flags.msb = false := by
      rw [BitVec.msb_eq_getLsbD_last,mem_bits]
      simp
    ext index
    cases negative : flags.msb <;> simp [Cache.unsigned,sign,negative]

/-- The immunity in force. -/
theorem immunity (represents : Represents upper host policy) (sid : String) :
    IsGreatest (policy.levels sid) (host.cache.getImmunity sid) := by
  have filed := represents.filed.immunity sid
  rw [Cache.getImmunity,represents.runtimeImmunity sid,Policy.levels]
  have zero : (0 : Int) ≤ (host.cache.fileImmunity.lookup sid).getD 0 := filed.2 (.inl rfl)
  cases policy.added sid with
  | none => simpa [zero] using filed
  | some added =>
    have single : {level | ∃ flags, some added = some (flags,level)} = {added.2} := by
      ext level
      obtain ⟨flags,immunity⟩ := added
      simp
    rw [single]
    exact filed.union isGreatest_singleton

theorem isAdmin (represents : Represents upper host policy) (slot : Int) :
    policy.IsAdmin upper (policy.steamId slot) ↔
      ¬ (host.clientSteamid slot = "0" ∨ host.clientSteamid slot = "") ∧
      ¬ (host.cache.get (host.clientSteamid slot) = 0 ∧ host.cache.getImmunity (host.clientSteamid slot) = 0) := by
  rw [← represents.clients slot]
  generalize host.clientSteamid slot = sid
  have immune := represents.immunity sid
  have zero : (0 : Int) ≤ host.cache.getImmunity sid := immune.2 (.inl (.inl rfl))
  have held := represents.held sid
  constructor
  · rintro ⟨⟨real,named⟩,standing⟩
    refine ⟨fun bot => bot.elim real named,?_⟩
    rintro ⟨none,level⟩
    rcases standing with ⟨index,member⟩ | ⟨above,member,positive⟩
    · rw [← held,(bits_eq_empty_iff _).mpr none] at member
      exact member
    · have below := immune.2 member
      omega
  · rintro ⟨client,standing⟩
    refine ⟨⟨fun bot => client (.inl bot),fun unnamed => client (.inr unnamed)⟩,?_⟩
    by_cases none : host.cache.get sid = 0
    · refine .inr ⟨_,immune.1,?_⟩
      have level : host.cache.getImmunity sid ≠ 0 := fun level => standing ⟨none,level⟩
      omega
    · left
      rw [← held,Set.nonempty_iff_ne_empty]
      exact fun empty => none ((bits_eq_empty_iff _).mp empty)

theorem holds (represents : Represents upper host policy) (context : String) (slot : Int) (mask : Flags) :
    ((host.forSlot context slot).any fun admin => hasFlags admin.flags mask) = true ↔
      policy.Holds upper (policy.steamId slot) (bits mask) := by
  rw [Policy.Holds,represents.isAdmin slot,← represents.clients slot,← represents.held,Host.forSlot]
  split
  next bot => simp [bot]
  next client =>
    rw [Host.get]
    split
    next nobody => simp [nobody]
    next somebody =>
      rw [Option.any_some,hasFlags_iff]
      exact ⟨fun flags => ⟨⟨client,somebody⟩,flags⟩,fun holds => holds.2⟩

theorem override (represents : Represents upper host policy) (slot : Int) (cmd : String) :
    (if cmd = "" then none else host.cache.override (host.clientSteamid slot) cmd) =
      policy.overrideFor upper (policy.steamId slot) cmd := by
  rw [Policy.overrideFor,Cache.override,represents.filed.own,represents.filed.global,represents.clients]

theorem check (represents : Represents upper host policy) (context : String) (slot : Int) (mask : Flags) (cmd : String) :
    host.check context slot mask cmd = true ↔ policy.Admits upper slot mask cmd := by
  rw [Host.check,represents.override,Policy.Admits]
  cases policy.overrideFor upper (policy.steamId slot) cmd with
  | none => exact represents.holds context slot mask
  | some override =>
    obtain ⟨required,isPublic⟩ := override
    cases isPublic with
    | true => simp
    | false => simpa using represents.holds context slot required

/-- The immunity of a client, as targeting sees it. -/
theorem clientImmunity (represents : Represents upper host policy) (context : String) (slot : Int) :
    IsGreatest (policy.clientLevels (policy.steamId slot)) ((host.forSlot context slot).elim 0 AdminInfo.immunity) := by
  rw [← represents.clients slot,Host.forSlot,Policy.clientLevels]
  split
  · exact isGreatest_singleton
  · have immune := represents.immunity (host.clientSteamid slot)
    rw [Host.get]
    split
    next nobody => rwa [nobody.2] at immune
    next => exact immune

theorem canTarget (represents : Represents upper host policy) (context : String) (callerSlot targetSlot : Int) :
    host.canTarget context callerSlot targetSlot = true ↔ policy.Targets callerSlot targetSlot := by
  have caller := represents.clientImmunity context callerSlot
  have target := represents.clientImmunity context targetSlot
  have own : (0 : Int) ≤ (host.forSlot context callerSlot).elim 0 AdminInfo.immunity := by
    apply caller.2
    rw [Policy.clientLevels]
    split
    · rfl
    · exact .inl (.inl rfl)
  rw [Host.canTarget,Host.canTargetImm,Policy.Targets]
  have compared : (∀ level ∈ policy.clientLevels (policy.steamId targetSlot),
      ∃ own ∈ policy.clientLevels (policy.steamId callerSlot), level ≤ own) ↔
      (host.forSlot context targetSlot).elim 0 AdminInfo.immunity ≤ (host.forSlot context callerSlot).elim 0 AdminInfo.immunity := by
    constructor
    · intro each
      obtain ⟨level,member,above⟩ := each _ target.1
      exact above.trans (caller.2 member)
    · intro above level member
      exact ⟨_,caller.1,(target.2 member).trans above⟩
  rw [compared]
  split
  next server => simp [server]
  next player =>
    split
    next exposed => simp only [true_iff]; exact .inr (exposed.trans own)
    next => simp [player]

end Represents

end S2Script.Admin
