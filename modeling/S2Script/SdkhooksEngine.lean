import S2Script.SdkhooksRefinement

/-! Runs of the hook natives: the abstract list of subscriptions, the hooks the engine has after
the calls made so far, and what each operation preserves. -/
namespace S2Script.Sdkhooks

open ListIndex

variable {H : Type}

/-- One virtual hook of the engine: whose, and which. -/
abbrev EngineHook := (Int × Int) × (String × Nat)

def Call.effect (installed : EngineHook → Bool) : Call → EngineHook → Bool
  | .add index serial hook added => fun one => installed one || (added && one == ((index,serial),hook))
  | .remove index serial hook => fun one => installed one && one != ((index,serial),hook)
  | .drop index serial => fun one => installed one && one.1 != (index,serial)

/-- The hooks the engine has after the calls. -/
def installed (calls : List Call) : EngineHook → Bool := calls.foldl Call.effect fun _ => false

/-- An add is of a hook that is not there, a remove of one that is. -/
def Call.Allowed (installed : EngineHook → Bool) : Call → Prop
  | .add index serial hook _ => installed ((index,serial),hook) = false
  | .remove index serial hook => installed ((index,serial),hook) = true
  | .drop _ _ => True

def Disciplined (calls : List Call) : Prop :=
  ∀ before call after, calls = before ++ call :: after → call.Allowed (installed before)

/-- The subscriptions, and the next one's id. -/
structure Listed (H : Type) where
  subs : List (Sub H)
  nextSubId : Nat

namespace Listed

variable (listed : Listed H)

def start : Listed H := ⟨[],1⟩

def hooks (entity : Nat) (kind : String) : Bool := listed.subs.any fun sub => sub.entity == entity && sub.kind == kind

def keep (stays : Sub H → Bool) : Listed H := { listed with subs := listed.subs.filter stays }

/-- A hooking is refused when its entity is not live, its kind is unknown, its callback is no
function, or the engine does not add the hook that is missing. -/
def accepts (args : Host.Hooking H) : Bool :=
  isKnownKind args.kind && ((vpKind args.kind).isNone || listed.hooks args.id args.kind || args.added)

def hook (args : Host.Hooking H) : Listed H :=
  match args.engineSerialFor,args.handler with
  | some serial,some handler =>
    if listed.accepts args then
      let id := listed.nextSubId + args.taken
      { subs := listed.subs ++ [⟨id,args.id,args.kind,args.owner,args.generation,handler,args.index,serial⟩]
        nextSubId := id + 1 }
    else listed
  | _,_ => listed

variable [DecidableEq H]

/-- What each operation is for. -/
def execute : Operation H → Listed H
  | .sdkhook args => listed.hook args
  | .sdkunhook id kind handler owner =>
    match listed.subs.find? fun sub =>
        sub.entity == id && sub.kind == kind && sub.owner == owner && handler == some sub.handler with
    | none => listed
    | some sub => listed.keep fun other => other.id != sub.id
  | .unloadOwner owner => listed.keep fun sub => sub.owner != owner
  | .removeIds ids => listed.keep fun sub => !ids.contains sub.id
  | .dropEntity id => listed.keep fun sub => sub.entity != id
  | .dropAll => listed.keep fun _ => false

end Listed

/-- The address is the entity's, and no other's, among the subscriptions. -/
def Belongs (subs : List (Sub H)) (entity : Nat) (address : Int × Int) : Prop :=
  ∀ sub ∈ subs, sub.entity = entity ↔ sub.place = address

/-- The entity books answer a hooking with the entity's own address. -/
def Operation.Fits (listed : Listed H) : Operation H → Prop
  | .sdkhook args => ∀ serial, args.engineSerialFor = some serial → Belongs listed.subs args.id (args.index,serial)
  | _ => True

def Placed [DecidableEq H] : Listed H → List (Operation H) → Prop
  | _,[] => True
  | listed,operation :: rest => operation.Fits listed ∧ Placed (listed.execute operation) rest

/-- The list has a subscription for the engine's hook. -/
def Wanted (subs : List (Sub H)) (hook : EngineHook) : Prop :=
  ∃ sub ∈ subs, vpKind sub.kind = some hook.2 ∧ sub.place = hook.1

/-- The host does what the list says: its store is the list's, and the engine's hooks are the wanted ones. -/
structure Mirrors (host : Host H) (listed : Listed H) : Prop where
  refines : Refines host.store listed.subs
  nextSubId : host.nextSubId = listed.nextSubId
  fresh : ∀ sub ∈ listed.subs, sub.id < listed.nextSubId
  installed : ∀ hook, installed host.calls hook = true ↔ Wanted listed.subs hook
  disciplined : Disciplined host.calls

theorem installed_append (calls more : List Call) :
    installed (calls ++ more) = more.foldl Call.effect (installed calls) := List.foldl_append

theorem installed_snoc (calls : List Call) (call : Call) :
    installed (calls ++ [call]) = call.effect (installed calls) := installed_append calls [call]

theorem Disciplined.snoc {calls : List Call} (disciplined : Disciplined calls) {call : Call}
    (allowed : call.Allowed (installed calls)) : Disciplined (calls ++ [call]) := by
  intro before last after split
  rcases List.eq_nil_or_concat after with rfl | ⟨init,final,rfl⟩
  · obtain ⟨rfl,same⟩ := List.append_inj' split rfl
    obtain rfl := List.singleton_inj.mp same
    exact allowed
  · rw [List.concat_eq_append,← List.cons_append,← List.append_assoc] at split
    exact disciplined before last init (List.append_inj' split rfl).1

section Hooking

variable {host : Host H} {listed : Listed H}

theorem Mirrors.stillHas (mirrors : Mirrors host listed) (entity : Nat) (kind : String) :
    host.stillHas entity kind = listed.hooks entity kind := by
  rw [Bool.eq_iff_iff,Host.stillHas,mirrors.refines.has_iff,Listed.hooks,List.any_eq_true]
  simp only [Bool.and_eq_true,beq_iff_eq,and_comm]

theorem OneAddress.snoc {subs : List (Sub H)} (addresses : OneAddress subs) {sub : Sub H}
    (belongs : Belongs subs sub.entity sub.place) : OneAddress (subs ++ [sub]) := by
  intro a aIn b bIn
  rcases List.mem_append.mp aIn with aOld | aNew <;> rcases List.mem_append.mp bIn with bOld | bNew
  · exact addresses a aOld b bOld
  · rw [List.mem_singleton.mp bNew]
    exact belongs a aOld
  · rw [List.mem_singleton.mp aNew,eq_comm,belongs b bOld,eq_comm]
  · rw [List.mem_singleton.mp aNew,List.mem_singleton.mp bNew]
    exact iff_of_true rfl rfl

theorem wanted_snoc {subs : List (Sub H)} {sub : Sub H} {hook : EngineHook} :
    Wanted (subs ++ [sub]) hook ↔ Wanted subs hook ∨ vpKind sub.kind = some hook.2 ∧ sub.place = hook.1 := by
  simp only [Wanted,List.mem_append,List.mem_singleton]
  constructor
  · rintro ⟨one,old | rfl,wants⟩
    · exact .inl ⟨one,old,wants⟩
    · exact .inr wants
  · rintro (⟨one,old,wants⟩ | wants)
    · exact ⟨one,.inl old,wants⟩
    · exact ⟨sub,.inr rfl,wants⟩

/-- A subscription that is already served by the engine, or needs no hook of it, only goes to the list. -/
theorem Mirrors.insert (mirrors : Mirrors host listed) (sub : Sub H) (fresh : listed.nextSubId ≤ sub.id)
    (belongs : Belongs listed.subs sub.entity sub.place) (calls : List Call) (disciplined : Disciplined calls)
    (serves : ∀ hook, Sdkhooks.installed calls hook = true ↔ Wanted (listed.subs ++ [sub]) hook) :
    Mirrors ⟨host.store.insert sub.entity sub.index sub.serial sub.kind sub.entry,calls,sub.id + 1⟩
      ⟨listed.subs ++ [sub],sub.id + 1⟩ where
  refines := mirrors.refines.insert sub (fun other member => Nat.lt_of_lt_of_le (mirrors.fresh other member) fresh)
    (mirrors.refines.addresses.snoc belongs)
  nextSubId := rfl
  fresh := by
    intro other member
    rcases List.mem_append.mp member with old | new
    · have := mirrors.fresh other old
      simp only
      omega
    · rw [List.mem_singleton.mp new]
      exact Nat.lt_succ_self _
  installed := serves
  disciplined := disciplined

theorem Mirrors.call_failed (mirrors : Mirrors host listed) (index serial : Int) {hook : String × Nat}
    (missing : ¬Wanted listed.subs ((index,serial),hook)) : Mirrors (host.call (.add index serial hook false)) listed where
  refines := mirrors.refines
  nextSubId := mirrors.nextSubId
  fresh := mirrors.fresh
  installed := by
    intro one
    rw [Host.call,installed_snoc,Call.effect]
    simpa using mirrors.installed one
  disciplined := mirrors.disciplined.snoc (by simpa [Call.Allowed] using mt (mirrors.installed _).mp missing)

/-- Where the entity has no subscription of the kind, the engine has no hook for it. -/
theorem not_wanted_of_unhooked {kind : String} {entity : Nat} {address : Int × Int} {hook : String × Nat}
    (virtual : vpKind kind = some hook) (belongs : Belongs listed.subs entity address)
    (unhooked : listed.hooks entity kind = false) : ¬Wanted listed.subs (address,hook) := by
  rintro ⟨sub,member,sameKind,sameAddress⟩
  have kindEq : sub.kind = kind := vpKind_inj sameKind virtual
  have entityEq : sub.entity = entity := (belongs sub member).mpr sameAddress
  rw [Listed.hooks,List.any_eq_false] at unhooked
  exact unhooked sub member (by simp [kindEq,entityEq])

/-- Hooking keeps the host and the list together, whatever the engine answers. -/
theorem Mirrors.sdkhook (mirrors : Mirrors host listed) (args : Host.Hooking H)
    (fits : ∀ serial, args.engineSerialFor = some serial → Belongs listed.subs args.id (args.index,serial)) :
    Mirrors (host.sdkhook args).1 (listed.hook args) := by
  cases live : args.engineSerialFor with
  | none => simpa only [Host.sdkhook,Listed.hook,live] using mirrors
  | some serial =>
    have belongs := fits serial live
    cases callback : args.handler with
    | none =>
      simp only [Host.sdkhook,Listed.hook,live,callback]
      split <;> exact mirrors
    | some handler =>
      cases known : isKnownKind args.kind with
      | false => simpa [Host.sdkhook,Listed.hook,live,callback,known,Listed.accepts] using mirrors
      | true =>
        have inserted := fun calls disciplined serves => mirrors.insert
          ⟨listed.nextSubId + args.taken,args.id,args.kind,args.owner,args.generation,handler,args.index,serial⟩
          (Nat.le_add_right _ _) belongs calls disciplined serves
        simp only [Host.sdkhook,Listed.hook,live,callback,known,Listed.accepts,mirrors.stillHas,mirrors.nextSubId,Bool.true_and,
          Bool.not_true,Bool.false_eq_true,if_false]
        cases virtual : vpKind args.kind with
        | none =>
          refine inserted host.calls mirrors.disciplined fun hook => (mirrors.installed hook).trans ?_
          rw [wanted_snoc,virtual]
          simp
        | some hook =>
          cases hooked : listed.hooks args.id args.kind with
          | true =>
            refine inserted host.calls mirrors.disciplined fun one => (mirrors.installed one).trans ?_
            rw [wanted_snoc]
            refine ⟨.inl,fun either => either.elim id fun ⟨sameHook,sameAddress⟩ => ?_⟩
            rw [Listed.hooks,List.any_eq_true] at hooked
            obtain ⟨sub,member,same⟩ := hooked
            rw [Bool.and_eq_true,beq_iff_eq,beq_iff_eq] at same
            exact ⟨sub,member,same.2 ▸ sameHook,((belongs sub member).mp same.1).trans sameAddress⟩
          | false =>
            have missing := not_wanted_of_unhooked virtual belongs hooked
            cases answer : args.added with
            | false => simpa using mirrors.call_failed args.index serial missing
            | true =>
              have untaken : (host.call (.add args.index serial hook true)).nextSubId = listed.nextSubId := mirrors.nextSubId
              simp only [untaken]
              refine inserted (host.calls ++ [.add args.index serial hook true]) (mirrors.disciplined.snoc ?_) fun one => ?_
              · simpa [Call.Allowed] using mt (mirrors.installed _).mp missing
              · rw [installed_snoc,Call.effect]
                simp only [Bool.true_and,Bool.or_eq_true,mirrors.installed,wanted_snoc,virtual,beq_iff_eq,Option.some.injEq]
                refine or_congr_right ⟨?_,?_⟩
                · rintro rfl
                  exact ⟨rfl,rfl⟩
                · rintro ⟨rfl,sameAddress⟩
                  exact Prod.ext sameAddress.symm rfl

end Hooking

section Batch

/-- The entry reports the removal of such a subscription. -/
def RemovedEntry.IsOf (entry : RemovedEntry) (sub : Sub H) : Prop :=
  entry.entityId = sub.entity ∧ entry.kind = sub.kind ∧ (entry.entityIndex,entry.engineSerial) = sub.place

/-- A batch reports each emptied bucket once, whichever subscription was its last. -/
structure Reports (subs rest : List (Sub H)) (removed : List RemovedEntry) : Prop where
  emptied : ∀ entry ∈ removed, entry.bucketEmptied = true →
    (∃ sub ∈ subs, entry.IsOf sub) ∧ ∀ sub ∈ rest, sub.kind = entry.kind → sub.entity ≠ entry.entityId
  complete : ∀ sub ∈ subs, (∀ other ∈ rest, other.kind = sub.kind → other.entity ≠ sub.entity) →
    ∃ entry ∈ removed, entry.bucketEmptied = true ∧ entry.IsOf sub
  once : removed.Pairwise fun a b => a.bucketEmptied = true → b.bucketEmptied = true → a.kind = b.kind → a.entityId ≠ b.entityId

def dropped (subs : List (Sub H)) (ids : List Nat) : List (Sub H) := subs.filter fun sub => !ids.contains sub.id

variable {store : HookStore H} {subs : List (Sub H)}

theorem mem_dropped {ids : List Nat} {sub : Sub H} : sub ∈ dropped subs ids ↔ sub ∈ subs ∧ sub.id ∉ ids := by
  simp [dropped]

theorem dropped_cons (id : Nat) (ids : List Nat) : dropped subs (id :: ids) = dropped (without subs id) ids := by
  rw [dropped,dropped,without,List.filter_filter]
  refine List.filter_congr fun sub _ => ?_
  rw [List.contains_cons,Bool.not_or,bne,Bool.and_comm]

theorem removedEntry_isOf (subs : List (Sub H)) (sub : Sub H) : (removedEntry subs sub).IsOf sub := ⟨rfl,rfl,rfl⟩

theorem removedEntry_emptied_iff {sub : Sub H} : (removedEntry subs sub).bucketEmptied = true ↔
    ∀ other ∈ without subs sub.id, other.kind = sub.kind → other.entity ≠ sub.entity := by
  rw [removedEntry,List.isEmpty_iff,List.eq_nil_iff_forall_not_mem]
  constructor
  · exact fun none other member sameKind sameEntity => none other (mem_ofEntityKind.mpr ⟨member,sameKind,sameEntity⟩)
  · intro none other inRows
    obtain ⟨member,sameKind,sameEntity⟩ := mem_ofEntityKind.mp inRows
    exact none other member sameKind sameEntity

theorem Reports.nil (subs : List (Sub H)) : Reports subs subs [] where
  emptied := fun _ member => nomatch member
  complete := fun sub member none => absurd rfl (none sub member rfl)
  once := List.Pairwise.nil

/-- One more removal before a batch: it reports its bucket when no later one does. -/
theorem Reports.cons (addresses : OneAddress subs) (ordered : Ordered subs) {sub : Sub H} (member : sub ∈ subs)
    {rest : List (Sub H)} (fewer : ∀ other ∈ rest, other ∈ without subs sub.id) {removed : List RemovedEntry}
    (reports : Reports (without subs sub.id) rest removed) : Reports subs rest (removedEntry subs sub :: removed) where
  emptied := by
    intro entry either emptied
    rcases List.mem_cons.mp either with rfl | later
    · exact ⟨⟨sub,member,removedEntry_isOf subs sub⟩,fun other inRest => removedEntry_emptied_iff.mp emptied other (fewer other inRest)⟩
    · obtain ⟨⟨one,oneIn,isOf⟩,none⟩ := reports.emptied entry later emptied
      exact ⟨⟨one,(mem_without.mp oneIn).1,isOf⟩,none⟩
  complete := by
    intro one oneIn none
    by_cases same : one.id = sub.id
    · obtain rfl := ordered.inj oneIn member same
      cases emptied : (removedEntry subs one).bucketEmptied with
      | true => exact ⟨_,List.mem_cons_self,emptied,removedEntry_isOf subs one⟩
      | false =>
        -- another of the bucket goes later in the batch
        have remains := mt removedEntry_emptied_iff.mpr (Bool.eq_false_iff.mp emptied)
        push Not at remains
        obtain ⟨other,otherIn,sameKind,sameEntity⟩ := remains
        obtain ⟨entry,later,last,entityEq,kindEq,placeEq⟩ :=
          reports.complete other otherIn (by rw [sameKind,sameEntity]; exact none)
        have samePlace := (addresses other (mem_without.mp otherIn).1 one oneIn).mp sameEntity
        exact ⟨entry,List.mem_cons_of_mem _ later,last,entityEq.trans sameEntity,kindEq.trans sameKind,placeEq.trans samePlace⟩
    · obtain ⟨entry,later,found⟩ := reports.complete one (mem_without.mpr ⟨oneIn,same⟩) none
      exact ⟨entry,List.mem_cons_of_mem _ later,found⟩
  once := by
    refine List.pairwise_cons.mpr ⟨fun entry later emptied last sameKind sameEntity => ?_,reports.once⟩
    obtain ⟨⟨one,oneIn,entityEq,kindEq,_⟩,_⟩ := reports.emptied entry later last
    exact removedEntry_emptied_iff.mp emptied one oneIn (kindEq.symm.trans sameKind.symm) (entityEq.symm.trans sameEntity.symm)

/-- A batch takes its ids out of the list, known or not, repeated or not. -/
theorem Refines.removeSubs (refines : Refines store subs) (ids : List Nat) :
    Refines (store.removeSubs ids).1 (dropped subs ids) ∧ Reports subs (dropped subs ids) (store.removeSubs ids).2 := by
  induction ids generalizing store subs with
  | nil =>
    have all : dropped subs [] = subs := by simp [dropped]
    rw [all]
    exact ⟨refines,Reports.nil subs⟩
  | cons id ids ih =>
    rw [dropped_cons]
    by_cases known : ∃ sub ∈ subs, sub.id = id
    · obtain ⟨sub,member,rfl⟩ := known
      obtain ⟨first,reported⟩ := refines.removeSub member
      obtain ⟨last,reports⟩ := ih first
      refine ⟨last,?_⟩
      rw [HookStore.removeSubs]
      simp only [reported,Option.toList_some,List.singleton_append]
      exact reports.cons refines.addresses refines.ordered member fun other inRest => (mem_dropped.mp inRest).1
    · push Not at known
      simp only [HookStore.removeSubs,refines.removeSub_unknown known,without_unknown known,Option.toList_none,List.nil_append]
      exact ih refines

/-- The engine hook that goes with the entry, if it was its bucket's last and is of a virtual kind. -/
def RemovedEntry.hook? (entry : RemovedEntry) : Option EngineHook :=
  if entry.bucketEmptied then (vpKind entry.kind).map fun hook => ((entry.entityIndex,entry.engineSerial),hook) else none

def Call.removeOf (hook : EngineHook) : Call := .remove hook.1.1 hook.1.2 hook.2

theorem hook?_eq_some {entry : RemovedEntry} {hook : EngineHook} : entry.hook? = some hook ↔
    entry.bucketEmptied = true ∧ vpKind entry.kind = some hook.2 ∧ (entry.entityIndex,entry.engineSerial) = hook.1 := by
  rw [RemovedEntry.hook?]
  cases entry.bucketEmptied with
  | false => simp
  | true =>
    simp only [if_true,Option.map_eq_some_iff,true_and]
    constructor
    · rintro ⟨virtual,found,rfl⟩
      exact ⟨found,rfl⟩
    · rintro ⟨found,same⟩
      exact ⟨hook.2,found,Prod.ext same rfl⟩

theorem unhook_fold (removed : List RemovedEntry) (host : Host H)
    (gone : ∀ entry ∈ removed, entry.bucketEmptied = true → host.store.has entry.entityId entry.kind = false) :
    removed.foldl (fun host entry =>
      if entry.bucketEmptied then host.unhookVpIfLast entry.entityIndex entry.engineSerial entry.entityId entry.kind
      else host) host = { host with calls := host.calls ++ (removed.filterMap RemovedEntry.hook?).map Call.removeOf } := by
  induction removed generalizing host with
  | nil => simp
  | cons entry rest ih =>
    have restGone := fun other member => gone other (List.mem_cons_of_mem entry member)
    rw [List.foldl_cons]
    cases emptied : entry.bucketEmptied with
    | false =>
      have hookless : entry.hook? = none := by simp [RemovedEntry.hook?,emptied]
      rw [List.filterMap_cons_none hookless,if_neg Bool.false_ne_true]
      exact ih host restGone
    | true =>
      rw [if_pos rfl,Host.unhookVpIfLast]
      cases virtual : vpKind entry.kind with
      | none =>
        have hookless : entry.hook? = none := by simp [RemovedEntry.hook?,virtual]
        rw [List.filterMap_cons_none hookless]
        exact ih host restGone
      | some hook =>
        have hooked : entry.hook? = some ((entry.entityIndex,entry.engineSerial),hook) := hook?_eq_some.mpr ⟨emptied,virtual,rfl⟩
        have unhooked : host.stillHas entry.entityId entry.kind = false := gone entry List.mem_cons_self emptied
        simp only [unhooked,Bool.false_eq_true,if_false]
        rw [List.filterMap_cons_some hooked,ih (host.call _) restGone]
        simp [Host.call,Call.removeOf]

theorem foldl_removes (hooks : List EngineHook) (before : EngineHook → Bool) (one : EngineHook) :
    (hooks.map Call.removeOf).foldl Call.effect before one = (before one && !hooks.contains one) := by
  induction hooks generalizing before with
  | nil => simp
  | cons hook rest ih =>
    rw [List.map_cons,List.foldl_cons,ih,Call.removeOf,List.contains_cons,Bool.not_or,← Bool.and_assoc]
    rfl

theorem Disciplined.removes {calls : List Call} (disciplined : Disciplined calls) {hooks : List EngineHook} (once : hooks.Nodup)
    (there : ∀ hook ∈ hooks, Sdkhooks.installed calls hook = true) : Disciplined (calls ++ hooks.map Call.removeOf) := by
  induction hooks generalizing calls with
  | nil => simpa using disciplined
  | cons hook rest ih =>
    obtain ⟨apart,restOnce⟩ := List.nodup_cons.mp once
    rw [List.map_cons,List.append_cons]
    refine ih (disciplined.snoc (there hook List.mem_cons_self)) restOnce fun other member => ?_
    have still := there other (List.mem_cons_of_mem hook member)
    have differ : other ≠ hook := fun same => apart (same ▸ member)
    rw [installed_snoc,Call.removeOf]
    simpa [Call.effect,still] using differ

theorem Reports.mem_hooks_iff {removed : List RemovedEntry} {hook : EngineHook} :
    hook ∈ removed.filterMap RemovedEntry.hook? ↔ ∃ entry ∈ removed,
      entry.bucketEmptied = true ∧ vpKind entry.kind = some hook.2 ∧ (entry.entityIndex,entry.engineSerial) = hook.1 := by
  rw [List.mem_filterMap]
  simp only [hook?_eq_some]

variable {rest : List (Sub H)} {removed : List RemovedEntry}

theorem Reports.hooks_nodup (reports : Reports subs rest removed) (addresses : OneAddress subs) :
    (removed.filterMap RemovedEntry.hook?).Nodup := by
  refine List.pairwise_filterMap.mpr (reports.once.imp_of_mem fun {a b} aIn bIn apart hook aHook other bHook same => ?_)
  subst same
  obtain ⟨aLast,aKind,aPlace⟩ := hook?_eq_some.mp aHook
  obtain ⟨bLast,bKind,bPlace⟩ := hook?_eq_some.mp bHook
  obtain ⟨⟨aSub,aSubIn,aEntity,_,aAt⟩,_⟩ := reports.emptied a aIn aLast
  obtain ⟨⟨bSub,bSubIn,bEntity,_,bAt⟩,_⟩ := reports.emptied b bIn bLast
  have samePlace : aSub.place = bSub.place := by rw [← aAt,← bAt,aPlace,bPlace]
  refine apart aLast bLast (vpKind_inj aKind bKind) ?_
  rw [aEntity,bEntity,(addresses aSub aSubIn bSub bSubIn).mpr samePlace]

/-- The wanted hooks are those of before that no bucket's end takes away. -/
theorem Reports.wanted_iff (reports : Reports subs rest removed) (addresses : OneAddress subs)
    (fewer : ∀ sub ∈ rest, sub ∈ subs) (hook : EngineHook) :
    Wanted rest hook ↔ Wanted subs hook ∧ hook ∉ removed.filterMap RemovedEntry.hook? := by
  rw [Reports.mem_hooks_iff]
  constructor
  · rintro ⟨sub,member,sameKind,samePlace⟩
    refine ⟨⟨sub,fewer sub member,sameKind,samePlace⟩,fun ⟨entry,inRemoved,last,entryKind,entryPlace⟩ => ?_⟩
    obtain ⟨⟨one,oneIn,entityEq,_,placeEq⟩,none⟩ := reports.emptied entry inRemoved last
    have places : sub.place = one.place := by rw [samePlace,← entryPlace,placeEq]
    have entities := (addresses sub (fewer sub member) one oneIn).mpr places
    exact none sub member (vpKind_inj sameKind entryKind) (entities.trans entityEq.symm)
  · rintro ⟨⟨sub,member,sameKind,samePlace⟩,kept⟩
    by_contra unwanted
    refine kept ?_
    have none : ∀ other ∈ rest, other.kind = sub.kind → other.entity ≠ sub.entity := fun other inRest kinds entities =>
      unwanted ⟨other,inRest,kinds ▸ sameKind,((addresses other (fewer other inRest) sub member).mp entities).trans samePlace⟩
    obtain ⟨entry,inRemoved,last,_,kindEq,placeEq⟩ := reports.complete sub member none
    exact ⟨entry,inRemoved,last,kindEq ▸ sameKind,placeEq.trans samePlace⟩

variable {host : Host H} {listed : Listed H}

theorem Mirrors.removeSubscriptions_eq (mirrors : Mirrors host listed) (ids : List Nat) :
    host.removeSubscriptions ids = ⟨(host.store.removeSubs ids).1,
      host.calls ++ ((host.store.removeSubs ids).2.filterMap RemovedEntry.hook?).map Call.removeOf,host.nextSubId⟩ := by
  obtain ⟨refines,reports⟩ := mirrors.refines.removeSubs ids
  refine unhook_fold _ { host with store := (host.store.removeSubs ids).1 } fun entry member last => ?_
  have none := (reports.emptied entry member last).2
  rw [Bool.eq_false_iff,ne_eq,refines.has_iff]
  rintro ⟨sub,inRest,sameKind,sameEntity⟩
  exact none sub inRest sameKind sameEntity

/-- A batch of removals keeps the engine's hooks the wanted ones. -/
theorem Mirrors.removeSubscriptions (mirrors : Mirrors host listed) (ids : List Nat) :
    Mirrors (host.removeSubscriptions ids) (listed.keep fun sub => !ids.contains sub.id) := by
  obtain ⟨refines,reports⟩ := mirrors.refines.removeSubs ids
  have fewer : ∀ sub ∈ dropped listed.subs ids, sub ∈ listed.subs := fun sub inRest => (mem_dropped.mp inRest).1
  have addresses := mirrors.refines.addresses
  rw [mirrors.removeSubscriptions_eq]
  exact {
    refines := refines
    nextSubId := mirrors.nextSubId
    fresh := fun sub inRest => mirrors.fresh sub (fewer sub inRest)
    installed := by
      intro hook
      rw [installed_append,foldl_removes,Bool.and_eq_true,mirrors.installed,Bool.not_eq_true',← Bool.not_eq_true,List.contains_iff_mem]
      exact (reports.wanted_iff addresses fewer hook).symm
    disciplined := by
      refine mirrors.disciplined.removes (reports.hooks_nodup addresses) fun hook taken => ?_
      obtain ⟨entry,member,last,entryKind,entryPlace⟩ := Reports.mem_hooks_iff.mp taken
      obtain ⟨⟨sub,inSubs,_,kindEq,placeEq⟩,_⟩ := reports.emptied entry member last
      exact (mirrors.installed hook).mpr ⟨sub,inSubs,kindEq ▸ entryKind,placeEq.symm.trans entryPlace⟩ }

end Batch

end S2Script.Sdkhooks
