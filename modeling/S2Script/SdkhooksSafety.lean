import S2Script.SdkhooksEngine

/-! Every run of the hook natives keeps the store, the subscription list and the engine's hooks
together, and calls the engine only where a first subscription comes or a last one goes. -/
namespace S2Script.Sdkhooks

open ListIndex

variable {H : Type} {host : Host H} {listed : Listed H}

section Operations

theorem dropped_filter {subs : List (Sub H)} (ordered : Ordered subs) (goes : Sub H → Bool) :
    dropped subs ((subs.filter goes).map Sub.id) = subs.filter fun sub => !goes sub := by
  refine List.filter_congr fun sub member => congrArg Bool.not ?_
  rw [Bool.eq_iff_iff,List.contains_iff_mem,List.mem_map]
  constructor
  · rintro ⟨other,listed,same⟩
    obtain ⟨inSubs,going⟩ := List.mem_filter.mp listed
    rwa [← ordered.inj inSubs member same]
  · exact fun going => ⟨sub,List.mem_filter.mpr ⟨member,going⟩,rfl⟩

/-- What an operation removes is a batch of ids, and the list loses just these. -/
def IsBatch (host later : Host H) (listed after : Listed H) : Prop :=
  ∃ ids : List Nat, later = host.removeSubscriptions ids ∧ after = listed.keep fun sub => !ids.contains sub.id

theorem IsBatch.none (host : Host H) (listed : Listed H) : IsBatch host host listed listed := by
  refine ⟨[],rfl,?_⟩
  simp [Listed.keep]

theorem Mirrors.batch_unloadOwner (mirrors : Mirrors host listed) (owner : String) :
    IsBatch host (host.unloadOwner owner) listed (listed.keep fun sub => sub.owner != owner) := by
  have ids : host.store.ownerSubscriptions owner = (listed.subs.filter fun sub => sub.owner == owner).map Sub.id := by
    rw [HookStore.ownerSubscriptions,mirrors.refines.byOwner,nonEmpty_getD]
  have rest := dropped_filter mirrors.refines.ordered fun sub => sub.owner == owner
  refine ⟨_,rfl,?_⟩
  rw [ids]
  exact congrArg (fun subs => Listed.mk subs listed.nextSubId) rest.symm

/-- The unhook native finds the first subscription of the caller with that callback. -/
theorem Refines.findSubId {store : HookStore H} {subs : List (Sub H)} (refines : Refines store subs) (entity : Nat) (kind : String)
    (isMatch : Entry H → Bool) : store.findSubId entity kind isMatch =
      (subs.find? fun sub => sub.kind == kind && (sub.entity == entity && isMatch sub.entry)).map Sub.id := by
  have rows : (ofEntityKind subs entity kind).find? (fun sub => isMatch sub.entry) =
      subs.find? fun sub => sub.kind == kind && (sub.entity == entity && isMatch sub.entry) := by
    rw [ofEntityKind,ofKind,List.find?_filter,List.find?_filter]
    simp only [Bool.decide_and,Bool.decide_eq_true]
  rw [HookStore.findSubId,refines.buckets,← rows]
  cases ofEntityKind subs entity kind with
  | nil => rfl
  | cons first others =>
    rw [bucketOf,Option.bind_some,List.find?_map,Option.map_map]
    rfl

theorem Mirrors.batch_sdkunhook [DecidableEq H] (mirrors : Mirrors host listed) (id : Nat) (kind : String)
    (handler : Option H) (owner : String) :
    IsBatch host (host.sdkunhook id kind handler owner).1 listed (listed.execute (.sdkunhook id kind handler owner)) := by
  cases handler with
  | none =>
    have none : (listed.subs.find? fun sub =>
        sub.entity == id && sub.kind == kind && sub.owner == owner && Option.none == some sub.handler) = Option.none := by
      rw [List.find?_eq_none]
      intro sub _ found
      simp at found
    simpa only [Host.sdkunhook,Listed.execute,none] using IsBatch.none host listed
  | some handler =>
    have same : (listed.subs.find? fun sub => sub.kind == kind && (sub.entity == id &&
          (sub.entry.owner == owner && sub.entry.handler == handler))) =
        listed.subs.find? fun sub => sub.entity == id && sub.kind == kind && sub.owner == owner && some handler == some sub.handler := by
      congr 1
      funext sub
      have equal : (some handler == some sub.handler) = (sub.handler == handler) := by
        rw [Bool.eq_iff_iff,beq_iff_eq,beq_iff_eq,Option.some.injEq,eq_comm]
      rw [equal,Sub.entry]
      simp only [Bool.and_left_comm,Bool.and_assoc]
    rw [Host.sdkunhook,Listed.execute]
    simp only [mirrors.refines.findSubId,same]
    cases listed.subs.find? fun sub => sub.entity == id && sub.kind == kind && sub.owner == owner && some handler == some sub.handler with
    | none => exact IsBatch.none host listed
    | some sub =>
      refine ⟨[sub.id],rfl,congrArg listed.keep ?_⟩
      funext other
      rw [List.contains_cons,List.contains_nil,Bool.or_false]
      rfl

theorem Mirrors.batch (mirrors : Mirrors host listed) {later : Host H} {after : Listed H}
    (batch : IsBatch host later listed after) : Mirrors later after := by
  obtain ⟨ids,rfl,rfl⟩ := batch
  exact mirrors.removeSubscriptions ids

/-- Dropping an entity takes its subscriptions, and with one call every hook of its address. -/
theorem Mirrors.dropEntity (mirrors : Mirrors host listed) (id : Nat) :
    Mirrors (host.dropEntity id) (listed.keep fun sub => sub.entity != id) := by
  have ids : host.store.entitySubscriptions id = (listed.subs.filter fun sub => sub.entity == id).map Sub.id := by
    rw [HookStore.entitySubscriptions,mirrors.refines.byEntity,nonEmpty_getD]
  have rest := dropped_filter mirrors.refines.ordered fun sub => sub.entity == id
  have refines := (mirrors.refines.removeSubs (host.store.entitySubscriptions id)).1
  rw [ids,rest] at refines
  simp only [Host.dropEntity,ids]
  cases rows : listed.subs.filter fun sub => sub.entity == id with
  | nil =>
    have kept : listed.keep (fun sub => sub.entity != id) = listed := by
      rw [Listed.keep,List.filter_eq_self.mpr fun sub member => by simpa using List.filter_eq_nil_iff.mp rows sub member]
    rw [kept]
    exact mirrors
  | cons first others =>
    have firstRow : first ∈ listed.subs.filter fun sub => sub.entity == id := rows ▸ List.mem_cons_self
    obtain ⟨firstIn,firstEntity⟩ := List.mem_filter.mp firstRow
    have sameEntity := beq_iff_eq.mp firstEntity
    rw [rows] at refines
    simp only [List.map_cons,List.head?_cons,Option.bind_some,mirrors.refines.bySub_of_mem firstIn,
      mirrors.refines.bucket_of_mem firstIn,Option.map_some]
    exact {
      refines := refines
      nextSubId := mirrors.nextSubId
      fresh := fun sub inRest => mirrors.fresh sub (List.mem_of_mem_filter inRest)
      installed := by
        intro hook
        have before := mirrors.installed hook
        rw [Host.call,installed_snoc]
        simp only [Call.effect,Bool.and_eq_true,before,bne_iff_ne]
        constructor
        · rintro ⟨⟨sub,member,virtual,place⟩,apart⟩
          refine ⟨sub,List.mem_filter.mpr ⟨member,bne_iff_ne.mpr fun equal => apart ?_⟩,virtual,place⟩
          exact place.symm.trans ((mirrors.refines.addresses sub member first firstIn).mp (equal.trans sameEntity.symm))
        · rintro ⟨sub,inRest,virtual,place⟩
          obtain ⟨member,other⟩ := List.mem_filter.mp inRest
          refine ⟨⟨sub,member,virtual,place⟩,fun equal => bne_iff_ne.mp other ?_⟩
          exact ((mirrors.refines.addresses sub member first firstIn).mpr (place.trans equal)).trans sameEntity
      disciplined := mirrors.disciplined.snoc trivial }

theorem foldl_drops (places : List (Int × Int)) (before : EngineHook → Bool) (hook : EngineHook) :
    (places.map fun place => Call.drop place.1 place.2).foldl Call.effect before hook = (before hook && !places.contains hook.1) := by
  induction places generalizing before with
  | nil => simp
  | cons place rest ih =>
    rw [List.map_cons,List.foldl_cons,ih,List.contains_cons,Bool.not_or,← Bool.and_assoc]
    rfl

theorem Disciplined.drops {calls : List Call} (disciplined : Disciplined calls) (places : List (Int × Int)) :
    Disciplined (calls ++ places.map fun place => Call.drop place.1 place.2) := by
  induction places generalizing calls with
  | nil => simpa using disciplined
  | cons place rest ih =>
    rw [List.map_cons,List.append_cons]
    exact ih (disciplined.snoc trivial)

/-- A bucket of a virtual kind that has a first subscription. -/
def IsVpEntry (entry : Sigma fun _ : String => Bucket H) : Prop :=
  (vpKind entry.1).isSome ∧ entry.2.entries ≠ []

theorem firstVpSub_fold (entries : List (Sigma fun _ : String => Bucket H)) (places : List (Int × Int))
    (inside : ∀ entry ∈ entries, (entry.2.entityIndex,entry.2.engineSerial) ∈ places) (current : Option (Nat × Int × Int))
    (already : ∀ first, current = some first → first.2 ∈ places) :
    let last := entries.foldl HookStore.earlierVpSub current
    (∀ first, last = some first → first.2 ∈ places) ∧
      (current.isSome ∨ (∃ entry ∈ entries, IsVpEntry entry) → last.isSome) := by
  induction entries generalizing current with
  | nil => exact ⟨already,fun either => either.elim id fun ⟨_,member,_⟩ => nomatch member⟩
  | cons entry rest ih =>
    have here := inside entry List.mem_cons_self
    have restInside := fun other member => inside other (List.mem_cons_of_mem entry member)
    simp only [List.foldl_cons,HookStore.earlierVpSub]
    cases virtual : vpKind entry.1 with
    | none =>
      obtain ⟨valid,complete⟩ := ih restInside current already
      refine ⟨valid,fun either => complete ?_⟩
      rcases either with known | ⟨other,member,vp⟩
      · exact .inl known
      · rcases List.mem_cons.mp member with rfl | later
        · exact absurd vp.1 (by simp [virtual])
        · exact .inr ⟨other,later,vp⟩
    | some hook =>
      cases head : entry.2.entries.head? with
      | none =>
        obtain ⟨valid,complete⟩ := ih restInside current already
        refine ⟨valid,fun either => complete ?_⟩
        rcases either with known | ⟨other,member,vp⟩
        · exact .inl known
        · rcases List.mem_cons.mp member with rfl | later
          · exact absurd (List.head?_eq_none_iff.mp head) vp.2
          · exact .inr ⟨other,later,vp⟩
      | some first =>
        cases current with
        | none =>
          obtain ⟨valid,complete⟩ := ih restInside (some (first.subId,entry.2.entityIndex,entry.2.engineSerial))
            (fun one equal => Option.some.inj equal ▸ here)
          exact ⟨valid,fun _ => complete (.inl rfl)⟩
        | some best =>
          have kept : ∀ one, (if first.subId < best.1 then some (first.subId,entry.2.entityIndex,entry.2.engineSerial) else some best)
              = some one → one.2 ∈ places := by
            intro one equal
            split at equal
            · exact Option.some.inj equal ▸ here
            · exact already one equal
          obtain ⟨valid,complete⟩ := ih restInside _ kept
          exact ⟨valid,fun _ => complete (.inl (by split <;> rfl))⟩

/-- The address of each entity with a virtual hook is among those the map's end drops. -/
theorem Refines.vpEntities {store : HookStore H} {subs : List (Sub H)} (refines : Refines store subs) {sub : Sub H}
    (member : sub ∈ subs) (virtual : (vpKind sub.kind).isSome) : sub.place ∈ store.vpEntitiesInRegistrationOrder := by
  have inRows : sub ∈ ofEntityKind subs sub.entity sub.kind := mem_ofEntityKind.mpr ⟨member,rfl,rfl⟩
  have here := refines.bucket_of_mem member
  rw [HookStore.bucket] at here
  obtain ⟨kinds,found,bucket⟩ := Option.bind_eq_some_iff.mp here
  have inside : ∀ entry ∈ kinds.entries, (entry.2.entityIndex,entry.2.engineSerial) ∈ [sub.place] := by
    rintro ⟨kind,other⟩ inKinds
    have known : store.bucket sub.entity kind = some other := by
      rw [HookStore.bucket,found]
      exact (Table.lookup_iff_entry kinds kind other).mpr inKinds
    have some : store.has sub.entity kind = true := by rw [HookStore.has,known]; rfl
    obtain ⟨row,rowIn,rowKind,rowEntity⟩ := (refines.has_iff sub.entity kind).mp some
    have address := refines.bucket_of_mem rowIn
    rw [rowKind,rowEntity,known,Option.some.injEq] at address
    rw [address]
    exact List.mem_singleton.mpr ((refines.addresses row rowIn sub member).mp rowEntity)
  have vp : ∃ entry ∈ kinds.entries, IsVpEntry entry := by
    refine ⟨⟨sub.kind,_⟩,(Table.lookup_iff_entry kinds sub.kind _).mp bucket,virtual,?_⟩
    simpa using List.ne_nil_of_mem inRows
  obtain ⟨valid,complete⟩ := firstVpSub_fold kinds.entries [sub.place] inside none (fun _ none => by cases none)
  obtain ⟨first,isFirst⟩ := Option.isSome_iff_exists.mp (complete (.inr vp))
  have inValues : first ∈ store.buckets.values.filterMap HookStore.firstVpSub :=
    List.mem_filterMap.mpr ⟨kinds,(Table.mem_values _ _).mpr ⟨sub.entity,found⟩,isFirst⟩
  rw [HookStore.vpEntitiesInRegistrationOrder,List.mem_map]
  exact ⟨first,List.mem_mergeSort.mpr inValues,List.mem_singleton.mp (valid first isFirst)⟩

theorem Mirrors.dropAll (mirrors : Mirrors host listed) : Mirrors host.dropAll (listed.keep fun _ => false) := by
  have none : listed.keep (fun _ => false) = ⟨[],listed.nextSubId⟩ := by simp [Listed.keep]
  rw [none]
  exact {
    refines := Refines.empty
    nextSubId := mirrors.nextSubId
    fresh := fun _ member => nomatch member
    installed := by
      intro hook
      rw [Host.dropAll,installed_append,foldl_drops,Bool.and_eq_true,mirrors.installed,Bool.not_eq_true',← Bool.not_eq_true,
        List.contains_iff_mem]
      constructor
      · rintro ⟨⟨sub,member,virtual,place⟩,stays⟩
        exact absurd (place ▸ mirrors.refines.vpEntities member (by rw [virtual]; rfl)) stays
      · exact fun ⟨_,member,_⟩ => nomatch member
    disciplined := mirrors.disciplined.drops _ }

theorem Mirrors.start : Mirrors (Host.start : Host H) Listed.start where
  refines := Refines.empty
  nextSubId := rfl
  fresh := fun _ member => nomatch member
  installed := fun hook => ⟨(fun there => nomatch there),fun ⟨_,member,_⟩ => nomatch member⟩
  disciplined := fun before _ _ split => absurd split.symm (by cases before <;> exact List.cons_ne_nil _ _)

variable [DecidableEq H]

/-- Each operation keeps the host and the list together. -/
theorem Mirrors.execute (mirrors : Mirrors host listed) (operation : Operation H) (fits : operation.Fits listed) :
    Mirrors (Sdkhooks.execute host operation) (listed.execute operation) := by
  cases operation with
  | sdkhook args => exact mirrors.sdkhook args fits
  | sdkunhook id kind handler owner => exact mirrors.batch (mirrors.batch_sdkunhook id kind handler owner)
  | unloadOwner owner => exact mirrors.batch (mirrors.batch_unloadOwner owner)
  | removeIds ids => exact mirrors.removeSubscriptions ids
  | dropEntity id => exact mirrors.dropEntity id
  | dropAll => exact mirrors.dropAll

/-- And so does each run. -/
theorem Mirrors.run (mirrors : Mirrors host listed) (operations : List (Operation H)) (placed : Placed listed operations) :
    Mirrors (operations.foldl Sdkhooks.execute host) (operations.foldl (fun listed operation => listed.execute operation) listed) := by
  induction operations generalizing host listed with
  | nil => exact mirrors
  | cons operation rest ih => exact ih (mirrors.execute operation placed.1) placed.2

end Operations

section Issued

/-- When the engine is called in a step: an add only for a hook nobody wants yet, and without a
trace if it fails; a remove only as the last subscription goes; a drop only of an address left
without subscriptions. -/
def Call.IsDue (host later : Host H) (listed after : Listed H) : Call → Prop
  | .add index serial hook added =>
    ¬Wanted listed.subs ((index,serial),hook) ∧ (added = false → later.store = host.store ∧ after = listed)
  | .remove index serial hook => Wanted listed.subs ((index,serial),hook) ∧ ¬Wanted after.subs ((index,serial),hook)
  | .drop index serial => ∀ sub ∈ after.subs, sub.place ≠ (index,serial)

/-- The calls of a step, all of them due. -/
def Issues (host later : Host H) (listed after : Listed H) : Prop :=
  ∃ issued, later.calls = host.calls ++ issued ∧ ∀ call ∈ issued, call.IsDue host later listed after

theorem Issues.none {later : Host H} {after : Listed H} (same : later.calls = host.calls) : Issues host later listed after :=
  ⟨[],by rw [same,List.append_nil],fun _ member => nomatch member⟩

theorem Issues.single {later : Host H} {after : Listed H} (call : Call) (called : later.calls = host.calls ++ [call])
    (due : call.IsDue host later listed after) : Issues host later listed after :=
  ⟨[call],called,fun _ member => List.mem_singleton.mp member ▸ due⟩

theorem Mirrors.issues_sdkhook (mirrors : Mirrors host listed) (args : Host.Hooking H)
    (fits : ∀ serial, args.engineSerialFor = some serial → Belongs listed.subs args.id (args.index,serial)) :
    Issues host (host.sdkhook args).1 listed (listed.hook args) := by
  cases live : args.engineSerialFor with
  | none => exact Issues.none (by simp only [Host.sdkhook,live])
  | some serial =>
    cases known : isKnownKind args.kind with
    | false => exact Issues.none (by simp [Host.sdkhook,live,known])
    | true =>
      cases callback : args.handler with
      | none => exact Issues.none (by simp [Host.sdkhook,live,known,callback])
      | some handler =>
        cases virtual : vpKind args.kind with
        | none => exact Issues.none (by simp [Host.sdkhook,live,known,callback,virtual])
        | some hook =>
          cases hooked : listed.hooks args.id args.kind with
          | true => exact Issues.none (by simp [Host.sdkhook,live,known,callback,virtual,mirrors.stillHas,hooked])
          | false =>
            have missing := not_wanted_of_unhooked virtual (fits serial live) hooked
            cases answer : args.added with
            | true =>
              refine Issues.single (.add args.index serial hook true) ?_ ⟨missing,fun failed => by cases failed⟩
              simp [Host.sdkhook,live,known,callback,virtual,mirrors.stillHas,hooked,answer,Host.call]
            | false =>
              have refused : host.sdkhook args = (host.call (.add args.index serial hook false),false) := by
                simp [Host.sdkhook,live,known,callback,virtual,mirrors.stillHas,hooked,answer]
              have unlisted : listed.hook args = listed := by
                simp [Listed.hook,Listed.accepts,live,known,callback,virtual,hooked,answer]
              rw [refused,unlisted]
              exact Issues.single _ rfl ⟨missing,fun _ => ⟨rfl,rfl⟩⟩

theorem Mirrors.issues_batch (mirrors : Mirrors host listed) {later : Host H} {after : Listed H}
    (batch : IsBatch host later listed after) : Issues host later listed after := by
  obtain ⟨ids,rfl,rfl⟩ := batch
  obtain ⟨_,reports⟩ := mirrors.refines.removeSubs ids
  refine ⟨_,congrArg Host.calls (mirrors.removeSubscriptions_eq ids),fun call issued => ?_⟩
  obtain ⟨hook,taken,rfl⟩ := List.mem_map.mp issued
  obtain ⟨entry,member,last,entryKind,entryPlace⟩ := Reports.mem_hooks_iff.mp taken
  obtain ⟨⟨sub,inSubs,_,kindEq,placeEq⟩,_⟩ := reports.emptied entry member last
  have fewer : ∀ sub ∈ dropped listed.subs ids, sub ∈ listed.subs := fun sub inRest => (mem_dropped.mp inRest).1
  exact ⟨⟨sub,inSubs,kindEq ▸ entryKind,placeEq.symm.trans entryPlace⟩,
    fun wanted => ((reports.wanted_iff mirrors.refines.addresses fewer hook).mp wanted).2 taken⟩

theorem Mirrors.issues_dropEntity (mirrors : Mirrors host listed) (id : Nat) :
    Issues host (host.dropEntity id) listed (listed.keep fun sub => sub.entity != id) := by
  have ids : host.store.entitySubscriptions id = (listed.subs.filter fun sub => sub.entity == id).map Sub.id := by
    rw [HookStore.entitySubscriptions,mirrors.refines.byEntity,nonEmpty_getD]
  cases rows : listed.subs.filter fun sub => sub.entity == id with
  | nil => exact Issues.none (by simp [Host.dropEntity,ids,rows])
  | cons first others =>
    have firstRow : first ∈ listed.subs.filter fun sub => sub.entity == id := rows ▸ List.mem_cons_self
    obtain ⟨firstIn,firstEntity⟩ := List.mem_filter.mp firstRow
    refine Issues.single (.drop first.index first.serial) ?_ fun sub inRest same => ?_
    · simp [Host.dropEntity,ids,rows,mirrors.refines.bySub_of_mem firstIn,mirrors.refines.bucket_of_mem firstIn,Host.call]
    · obtain ⟨member,other⟩ := List.mem_filter.mp inRest
      have sameEntity := (mirrors.refines.addresses sub member first firstIn).mpr same
      exact bne_iff_ne.mp other (sameEntity.trans (beq_iff_eq.mp firstEntity))

/-- What the host shows of its subscriptions: each answer is the list's, and the engine's hook of
an entity and virtual kind is there when the entity has a subscription of the kind. -/
structure Shows (host : Host H) (listed : Listed H) : Prop where
  refines : Refines host.store listed.subs
  snapshot : ∀ entity kind, host.store.snapshot entity kind =
    (listed.subs.filter fun sub => sub.kind == kind && sub.entity == entity).map fun sub => (sub.owner,sub.generation,sub.handler)
  kindActive : ∀ kind, host.store.kindActive kind = true ↔ ∃ sub ∈ listed.subs, sub.kind = kind
  kindEntities : ∀ kind, host.store.kindEntitiesOf kind = (firsts Sub.entity (ofKind listed.subs kind)).map Sub.place
  installed : ∀ entity address kind hook, vpKind kind = some hook → Belongs listed.subs entity address →
    (installed host.calls (address,hook) = true ↔ ∃ sub ∈ listed.subs, sub.entity = entity ∧ sub.kind = kind)
  disciplined : Disciplined host.calls

theorem Mirrors.shows (mirrors : Mirrors host listed) : Shows host listed where
  refines := mirrors.refines
  snapshot := mirrors.refines.snapshot
  kindActive := mirrors.refines.kindActive
  kindEntities := mirrors.refines.kindEntitiesOf
  installed := by
    intro entity address kind hook virtual belongs
    rw [mirrors.installed]
    constructor
    · rintro ⟨sub,member,sameHook,samePlace⟩
      exact ⟨sub,member,(belongs sub member).mpr samePlace,vpKind_inj sameHook virtual⟩
    · rintro ⟨sub,member,rfl,rfl⟩
      exact ⟨sub,member,virtual,(belongs sub member).mp rfl⟩
  disciplined := mirrors.disciplined

variable [DecidableEq H]

theorem Mirrors.issues (mirrors : Mirrors host listed) (operation : Operation H) (fits : operation.Fits listed) :
    Issues host (Sdkhooks.execute host operation) listed (listed.execute operation) := by
  cases operation with
  | sdkhook args => exact mirrors.issues_sdkhook args fits
  | sdkunhook id kind handler owner => exact mirrors.issues_batch (mirrors.batch_sdkunhook id kind handler owner)
  | unloadOwner owner => exact mirrors.issues_batch (mirrors.batch_unloadOwner owner)
  | removeIds ids => exact mirrors.issues_batch ⟨ids,rfl,rfl⟩
  | dropEntity id => exact mirrors.issues_dropEntity id
  | dropAll =>
    refine ⟨_,rfl,fun call issued => ?_⟩
    obtain ⟨place,_,rfl⟩ := List.mem_map.mp issued
    exact fun sub member => nomatch (List.mem_filter.mp member).2

/-- The list after each run. -/
def hooked (operations : List (Operation H)) : Listed H :=
  operations.foldl (fun listed operation => listed.execute operation) .start

theorem placed_append {listed : Listed H} (before after : List (Operation H)) (placed : Placed listed (before ++ after)) :
    Placed listed before ∧ Placed (before.foldl (fun listed operation => listed.execute operation) listed) after := by
  induction before generalizing listed with
  | nil => exact ⟨trivial,placed⟩
  | cons operation rest ih =>
    obtain ⟨first,last⟩ := ih placed.2
    exact ⟨⟨placed.1,first⟩,last⟩

/-- Over every run the host shows the list's subscriptions, and each call to the engine is due. -/
theorem hooks_follow_subscriptions (operations : List (Operation H)) (placed : Placed .start operations) :
    Shows (run operations) (hooked operations) ∧
      ∀ before operation after, operations = before ++ operation :: after →
        Issues (run before) (run (before ++ [operation])) (hooked before) (hooked (before ++ [operation])) := by
  refine ⟨(Mirrors.start.run operations placed).shows,fun before operation after split => ?_⟩
  obtain ⟨first,fits,_⟩ := placed_append before (operation :: after) (split ▸ placed)
  have issues := (Mirrors.start.run before first).issues operation fits
  rw [run,run,hooked,hooked,List.foldl_append,List.foldl_append]
  exact issues

/-- Two entities are hooked, one add fails, and each way of removal comes up. -/
def touchRun : List (Operation Nat) :=
  [.sdkhook ⟨42,5,"Touch",some 1,some 7,"a",1,true,0⟩,.sdkhook ⟨42,5,"Think",some 1,some 7,"a",1,false,0⟩,
    .sdkhook ⟨42,5,"Touch",some 2,some 7,"b",1,true,3⟩,.sdkhook ⟨43,6,"Spawn",some 3,some 2,"b",1,true,0⟩,
    .sdkunhook 5 "Touch" (some 1) "a",.removeIds [9,9],.unloadOwner "b",.dropEntity 6,.dropAll]

theorem hooks_follow_subscriptions_touch : Placed .start touchRun ∧ Shows (run touchRun) (hooked touchRun) := by
  have placed : Placed .start touchRun := by
    refine ⟨?_,?_,?_,?_,trivial,trivial,trivial,trivial,trivial,trivial⟩ <;>
      (intro serial live; cases live; unfold Belongs; decide +kernel)
  exact ⟨placed,(hooks_follow_subscriptions touchRun placed).1⟩

end Issued

end S2Script.Sdkhooks
