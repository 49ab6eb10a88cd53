import S2Script.AdminPolicyChecks
import S2Script.CommandAccess

/-! Who runs what. The commands that stand are the last registrations by plugins still loaded;
a line runs the handler it stands for or is refused as the admin policy has it, whichever way
it came. -/
namespace S2Script.CommandAccess

open Admin (Flags)
open Liveness (LiveTable)

variable {H : Type}

/-- What a caller without the right is told. -/
def Kind.refusal : Kind → String
  | .registerServer => "[S2S] This command can only be run from the server console."
  | _ => "[S2S] You do not have access to this command."

/-- The commands that stand, each plugin's own, and the policy. -/
structure Standing (H : Type) where
  policy : Admin.Policy
  commands : String → Option (String × Command H)
  own : String → Option (String → Option (Command H))
  triggers : String → String × String

namespace Standing

variable (upper : String → String)

/-- Who may run a command. -/
def Permits (standing : Standing H) (command : Command H) (slot : Int) : Prop :=
  slot < 0 ∨ match command.kind with
    | .register => True
    | .registerServer => False
    | .registerAdmin flags => standing.policy.Admits upper slot flags command.name

def start (disk : Admin.Disk) : Standing H := ⟨.start disk,fun _ => none,fun _ => none,fun _ => ("!","/")⟩

def next (standing : Standing H) (action : Action H) : Standing H :=
  match action with
  | .load plugin =>
    if (standing.own plugin).isSome then standing
    else
      { standing with policy := standing.policy.step (.openContext plugin),
                      own := fun other => if other = plugin then some fun _ => none else standing.own other,
                      triggers := fun other => if other = plugin then ("!","/") else standing.triggers other }
  | .unload plugin =>
    { standing with policy := standing.policy.step (.closeContext plugin),
                    commands := fun name => (standing.commands name).filter fun entry => entry.1 != plugin,
                    own := fun other => if other = plugin then none else standing.own other }
  | .add plugin command =>
    match standing.own plugin with
    | none => standing
    | some own =>
      { standing with commands := fun name => if name = command.name ∧ name ≠ "sm" then some (plugin,command) else standing.commands name,
                      own := fun other => if other = plugin then some fun name => if name = command.name then some command else own name
                        else standing.own other }
  | .setTriggers plugin publicTrigger silentTrigger =>
    { standing with triggers := fun other => if other = plugin then (publicTrigger,silentTrigger) else standing.triggers other }
  | action => match action.toAdmin with
    | some action => { standing with policy := standing.policy.step action }
    | none => standing

open Classical in
/-- What comes of a line that stands for a command. -/
noncomputable def answer (standing : Standing H) (command : Command H) (slot : Int) (args : String)
    (source : ReplySource) : Outcome H :=
  if standing.Permits upper command slot then .ran command.handler slot args source
  else .refused slot command.kind.refusal source

/-- A console command: the runtime's own, or the one that stands under the name. -/
noncomputable def fire (standing : Standing H) (busy : Bool) (name : String) (slot : Int) (args : String)
    (source : ReplySource) : List (Outcome H) :=
  if name = "sm" then [.runtime slot args]
  else if busy then []
  else ((standing.commands name).map fun entry => standing.answer upper entry.2 slot args source).toList

def matched (standing : Standing H) (name : String) : Option String :=
  if (standing.commands name).isSome then some name
  else if (standing.commands ("sm_" ++ name)).isSome then some ("sm_" ++ name)
  else none

noncomputable def dispatch (standing : Standing H) (plugin name : String) (slot : Int) (args : String)
    (source : ReplySource) : Option (Outcome H) :=
  ((standing.own plugin).bind fun own => own name).map fun command => standing.answer upper command slot args source

noncomputable def outcomes (standing : Standing H) : Action H → List (Outcome H)
  | .fromEngine busy name slot args => standing.fire upper busy name slot args (.fromSlot slot)
  | .fromConsole busy slot name args => if (standing.commands name).isSome then standing.fire upper busy name slot args .console else []
  | .fromChat busy slot text teamonly _ =>
    match (hostTrigger text).bind fun trigger => (standing.matched trigger.name).map fun cmd => (trigger,cmd) with
    | some (trigger,cmd) => standing.fire upper busy cmd slot trigger.args .chat
    | none => [.said slot text teamonly]
  | .dispatch plugin name slot args source =>
    (standing.dispatch upper plugin name slot args (source.getD (.fromSlot slot))).toList
  | .chatTrigger plugin slot message =>
    match (standing.own plugin).bind fun _ =>
        parseChatTrigger (⟨∅,(standing.triggers plugin).1,(standing.triggers plugin).2⟩ : Registry H) message with
    | none => []
    | some trigger =>
      match standing.dispatch upper plugin trigger.name slot trigger.args .chat with
      | some outcome => [outcome]
      | none =>
        if "sm_".toList.isPrefixOf trigger.name.toList then []
        else (standing.dispatch upper plugin ("sm_" ++ trigger.name) slot trigger.args .chat).toList
  | _ => []

noncomputable def run (standing : Standing H) : List (Action H) → Standing H × List (Outcome H)
  | [] => (standing,[])
  | action :: rest =>
    let after := run (standing.next action) rest
    (after.1,standing.outcomes upper action ++ after.2)

end Standing

section Tables

variable {K V : Type} [DecidableEq K]

theorem lookup_foldl_erase (names : List K) (table : Table K V) (key : K) :
    (names.foldl (fun found name => found.erase name) table).lookup key = if key ∈ names then none else table.lookup key := by
  induction names generalizing table with
  | nil => rfl
  | cons name rest ih =>
    rw [List.foldl_cons,ih,Table.lookup_erase_eq]
    by_cases here : key = name
    · simp [here]
    · simp [here]

theorem mem_keys_retain (keep : K → V → Bool) (table : Table K V) (key : K) :
    key ∈ (table.retain keep).keys ↔ ∃ value, table.lookup key = some value ∧ keep key value = true := by
  rw [← AList.mem_keys,Table.mem_iff]
  simp [Table.lookup_retain,Option.filter_eq_some_iff]

end Tables

/-- The registries hold the commands that stand, with live generations and the flags recorded for them. -/
structure Represents (upper : String → String) (system : System H) (standing : Standing H) : Prop where
  admin : Admin.Represents upper system.admin standing.policy
  commands : ∀ name, (system.concommands.lookup name).map (fun entry => (entry.1,entry.2.2)) = standing.commands name
  live : ∀ name owner generation command, system.concommands.lookup name = some (owner,generation,command) →
    system.plugins.idOf owner = some generation
  flags : ∀ name, system.commandMeta.lookup name = (standing.commands name).map fun entry => entry.2.kind.flags
  own : ∀ plugin, (system.contexts.lookup plugin).map (fun registry name => registry.commands.lookup name) = standing.own plugin
  triggers : ∀ plugin registry, system.contexts.lookup plugin = some registry →
    standing.triggers plugin = (registry.publicTrigger,registry.silentTrigger)
  loaded : ∀ plugin, system.isLoaded plugin = (standing.own plugin).isSome
  reserved : standing.commands "sm" = none

namespace Represents

variable {upper : String → String} {system : System H} {standing : Standing H}

theorem start (disk : Admin.Disk) : Represents (H := H) upper (.start disk) (.start disk) where
  admin := .start upper disk
  commands _ := rfl
  live _ _ _ _ here := nomatch here
  flags _ := rfl
  own _ := rfl
  triggers _ _ here := nomatch here
  loaded _ := rfl
  reserved := rfl

theorem load (represents : Represents upper system standing) (plugin : String) :
    Represents upper (system.load upper plugin) (standing.next (.load plugin)) := by
  have loaded := represents.loaded plugin
  simp only [System.load,Standing.next,← loaded]
  split
  · exact represents
  next absent =>
    have unloaded : system.plugins.idOf plugin = none := by simpa [System.isLoaded] using absent
    constructor
    · exact represents.admin.step (.openContext plugin)
    · exact represents.commands
    · intro name owner generation command here
      have live := represents.live name owner generation command here
      rw [LiveTable.idOf_insert,if_neg]
      · exact live
      · rintro rfl
        rw [unloaded] at live
        cases live
    · exact represents.flags
    · intro other
      dsimp only
      rw [Table.lookup_insert_eq]
      split
      · rfl
      · exact represents.own other
    · intro other registry here
      rw [Table.lookup_insert_eq] at here
      split at here
      next same =>
        cases here
        simp [same]
      next different =>
        simpa [different] using represents.triggers other registry here
    · intro other
      dsimp only
      rw [System.isLoaded,LiveTable.idOf_insert]
      split
      · rfl
      · exact represents.loaded other
    · exact represents.reserved

/-- What dropping an owner leaves under a name. -/
theorem dropOwner_lookup (system : System H) (owner name : String) :
    (system.dropOwner owner).concommands.lookup name = (system.concommands.lookup name).filter fun entry => entry.1 != owner :=
  Table.lookup_retain _ _ _

theorem dropOwner_flags (represents : Represents upper system standing) (owner name : String) :
    (system.dropOwner owner).commandMeta.lookup name =
      ((standing.commands name).filter fun entry => entry.1 != owner).map fun entry => entry.2.kind.flags := by
  simp only [System.dropOwner,lookup_foldl_erase,mem_keys_retain,represents.flags,← represents.commands name]
  cases system.concommands.lookup name with
  | none => simp
  | some entry => by_cases same : entry.1 = owner <;> simp [same]

theorem unload (represents : Represents upper system standing) (plugin : String) :
    Represents upper (system.unload upper plugin) (standing.next (.unload plugin)) := by
  constructor
  · exact represents.admin.step (.closeContext plugin)
  · intro name
    simp only [System.unload,Standing.next,dropOwner_lookup,← represents.commands name]
    cases system.concommands.lookup name with
    | none => rfl
    | some entry => by_cases same : entry.1 = plugin <;> simp [Option.filter,same]
  · intro name owner generation command here
    rw [System.unload,dropOwner_lookup,Option.filter_eq_some_iff] at here
    obtain ⟨found,kept⟩ := here
    have different : owner ≠ plugin := by simpa using kept
    rw [System.unload,LiveTable.idOf_remove,if_neg different]
    exact represents.live name owner generation command found
  · intro name
    exact represents.dropOwner_flags plugin name
  · intro other
    simp only [System.unload,Standing.next,System.dropOwner,Table.lookup_erase_eq]
    split
    · rfl
    · exact represents.own other
  · intro other registry here
    simp only [System.unload,System.dropOwner,Table.lookup_erase_eq] at here
    split at here
    · cases here
    · exact represents.triggers other registry here
  · intro other
    simp only [System.isLoaded,System.unload,Standing.next,System.dropOwner,LiveTable.idOf_remove]
    split
    · rfl
    · exact represents.loaded other
  · simp [Standing.next,represents.reserved]

theorem add (represents : Represents upper system standing) (plugin : String) (command : Command H) :
    Represents upper (system.add plugin command) (standing.next (.add plugin command)) := by
  have own := represents.own plugin
  have loaded := represents.loaded plugin
  cases here : system.contexts.lookup plugin with
  | none =>
    rw [here] at own
    simpa only [System.add,here,Standing.next,← own,Option.map_none] using represents
  | some registry =>
    rw [here] at own
    obtain ⟨generation,live⟩ : ∃ generation, system.plugins.idOf plugin = some generation := by
      rw [← own] at loaded
      exact Option.isSome_iff_exists.mp loaded
    have ownAfter : ∀ other, ((system.contexts.insert plugin
        { registry with commands := registry.commands.insert command.name command }).lookup other).map
          (fun registry name => registry.commands.lookup name) =
        if other = plugin then some fun name => if name = command.name then some command else registry.commands.lookup name
        else standing.own other := by
      intro other
      rw [Table.lookup_insert_eq]
      split
      · simp only [Option.map_some,Option.some.injEq]
        funext name
        exact Table.lookup_insert_eq registry.commands command.name name command
      · exact represents.own other
    have triggersAfter : ∀ other found, (system.contexts.insert plugin
        { registry with commands := registry.commands.insert command.name command }).lookup other = some found →
        standing.triggers other = (found.publicTrigger,found.silentTrigger) := by
      intro other found held
      rw [Table.lookup_insert_eq] at held
      split at held
      next same =>
        cases held
        exact same ▸ represents.triggers plugin registry here
      next => exact represents.triggers other found held
    have loadedAfter : ∀ other, system.isLoaded other = (if other = plugin
        then some fun name => if name = command.name then some command else registry.commands.lookup name
        else standing.own other).isSome := by
      intro other
      split
      next same => simp [System.isLoaded,same,live]
      next => exact represents.loaded other
    simp only [System.add,here,Standing.next,← own,Option.map_some,System.concommand]
    by_cases reserved : command.name = "sm"
    · have same : (fun name => if name = command.name ∧ name ≠ "sm" then some (plugin,command) else standing.commands name) =
          standing.commands := by
        funext name
        rw [if_neg]
        rintro ⟨rfl,other⟩
        exact other reserved
      rw [if_pos reserved,same]
      exact ⟨represents.admin,represents.commands,represents.live,represents.flags,ownAfter,triggersAfter,loadedAfter,
        represents.reserved⟩
    · have named (name : String) : (name = command.name ∧ name ≠ "sm") ↔ name = command.name :=
        ⟨And.left,fun same => ⟨same,same ▸ reserved⟩⟩
      rw [if_neg reserved]
      simp only [live,Option.getD_some,named]
      constructor
      · exact represents.admin
      · intro name
        rw [Table.lookup_insert_eq]
        dsimp only
        split
        · rfl
        · exact represents.commands name
      · intro name owner number found held
        rw [Table.lookup_insert_eq] at held
        split at held
        · cases held
          exact live
        · exact represents.live name owner number found held
      · intro name
        rw [Table.lookup_insert_eq]
        dsimp only
        split
        · rfl
        · exact represents.flags name
      · exact ownAfter
      · exact triggersAfter
      · exact loadedAfter
      · exact (if_neg fun same => reserved same.symm).trans represents.reserved

theorem setTriggers (represents : Represents upper system standing) (plugin publicTrigger silentTrigger : String) :
    Represents upper (system.setTriggers plugin publicTrigger silentTrigger)
      (standing.next (.setTriggers plugin publicTrigger silentTrigger)) := by
  cases here : system.contexts.lookup plugin with
  | none =>
    simp only [System.setTriggers,here,Standing.next]
    refine { represents with triggers := fun other registry held => ?_ }
    have different : other ≠ plugin := by
      rintro rfl
      rw [here] at held
      cases held
    simpa [different] using represents.triggers other registry held
  | some registry =>
    simp only [System.setTriggers,here,Standing.next]
    refine { represents with own := fun other => ?_, triggers := fun other found held => ?_ }
    · rw [Table.lookup_insert_eq,← represents.own other]
      split
      next same => rw [same,here]; rfl
      next => rfl
    · rw [Table.lookup_insert_eq] at held
      split at held
      next same =>
        cases held
        simp [same]
      next different => simpa [different] using represents.triggers other found held

theorem policy (represents : Represents upper system standing) (action : Admin.Action) :
    Represents upper { system with admin := system.admin.step upper action }
      { standing with policy := standing.policy.step action } :=
  { represents with admin := represents.admin.step action }

theorem next (represents : Represents upper system standing) (action : Action H) :
    Represents upper (system.next upper action) (standing.next action) := by
  cases action with
  | load plugin => exact represents.load plugin
  | unload plugin => exact represents.unload plugin
  | add plugin command => exact represents.add plugin command
  | setTriggers plugin publicTrigger silentTrigger => exact represents.setTriggers plugin publicTrigger silentTrigger
  | addAdmin sid flags immunity => exact represents.policy (.add sid flags immunity)
  | removeAdmin sid => exact represents.policy (.remove sid)
  | reloadAdmins plugin => exact represents.policy (.reload plugin)
  | editFiles disk => exact represents.policy (.edit disk)
  | connect slot sid => exact represents.policy (.connect slot sid)
  | disconnect slot => exact represents.policy (.disconnect slot)
  | fromEngine _ _ _ _ => exact represents
  | fromConsole _ _ _ _ => exact represents
  | fromChat _ _ _ _ _ => exact represents
  | dispatch _ _ _ _ _ => exact represents
  | chatTrigger _ _ _ => exact represents

/-- The wrapper asks the cache what the policy says. -/
theorem invoke (represents : Represents upper system standing) (context : String) (command : Command H) (slot : Int)
    (args : String) (source : ReplySource) :
    command.invoke system.admin context slot args source = standing.answer upper command slot args source := by
  rw [Command.invoke,Standing.answer,Standing.Permits]
  cases kind : command.kind with
  | register => simp
  | registerServer =>
    by_cases server : slot < 0
    · simp [server]
    · simp [server,Kind.refusal]
  | registerAdmin flags =>
    have check := represents.admin.check context slot flags command.name
    by_cases server : slot < 0
    · simp [server]
    · by_cases admitted : standing.policy.Admits upper slot flags command.name
      · simp [server,admitted,check.mpr admitted]
      · have denied : system.admin.check context slot flags command.name = false := by
          rw [Bool.eq_false_iff]
          exact fun answer => admitted (check.mp answer)
        simp [server,admitted,denied,Kind.refusal]

theorem dispatchConcommand (represents : Represents upper system standing) (busy : Bool) (name : String) (slot : Int)
    (args : String) (source : ReplySource) :
    system.dispatchConcommand busy name slot args source = standing.fire upper busy name slot args source := by
  rw [System.dispatchConcommand,Standing.fire,← represents.commands name]
  split
  · rfl
  · cases here : system.concommands.lookup name with
    | none => cases busy <;> rfl
    | some entry =>
      obtain ⟨owner,generation,command⟩ := entry
      have live := represents.live name owner generation command here
      cases busy with
      | true => rfl
      | false => simp [LiveTable.isLive,live,represents.invoke owner command slot args source]

theorem mem_concommands (represents : Represents upper system standing) (name : String) :
    name ∈ system.concommands ↔ (standing.commands name).isSome = true := by
  rw [← represents.commands name,Option.isSome_map]
  exact AList.lookup_isSome.symm

theorem matched (represents : Represents upper system standing) (name : String) :
    system.matched name = standing.matched name := by
  simp only [System.matched,Standing.matched,represents.mem_concommands]

theorem dispatch (represents : Represents upper system standing) (plugin name : String) (slot : Int) (args : String)
    (source : Option ReplySource) :
    system.dispatch plugin name slot args source = standing.dispatch upper plugin name slot args (source.getD (.fromSlot slot)) := by
  rw [System.dispatch,Standing.dispatch,← represents.own plugin]
  cases system.contexts.lookup plugin with
  | none => rfl
  | some registry =>
    simp only [Option.bind_some,Option.map_some,represents.invoke]

theorem outcomes (represents : Represents upper system standing) (action : Action H) :
    system.outcomes action = standing.outcomes upper action := by
  cases action with
  | fromEngine busy name slot args => exact represents.dispatchConcommand busy name slot args (.fromSlot slot)
  | fromConsole busy slot name args =>
    simp only [System.outcomes,Standing.outcomes,System.dispatchClientCommand,represents.mem_concommands,
      represents.dispatchConcommand]
    split <;> rfl
  | fromChat busy slot text teamonly consumed =>
    simp only [System.outcomes,Standing.outcomes,System.dispatchChat,represents.matched,represents.dispatchConcommand]
    cases (hostTrigger text).bind fun trigger => (standing.matched trigger.name).map fun cmd => (trigger,cmd) <;> rfl
  | dispatch plugin name slot args source =>
    simp only [System.outcomes,Standing.outcomes,represents.dispatch]
  | chatTrigger plugin slot message =>
    simp only [System.outcomes,Standing.outcomes,System.handleChatTrigger,represents.dispatch,Option.getD_some,
      ← represents.own plugin]
    cases here : system.contexts.lookup plugin with
    | none => rfl
    | some registry =>
      have same : parseChatTrigger (⟨∅,(standing.triggers plugin).1,(standing.triggers plugin).2⟩ : Registry H) message =
          parseChatTrigger registry message := by
        rw [represents.triggers plugin registry here]
        cases message <;> rfl
      cases parsed : parseChatTrigger registry message with
      | none => simp [same,parsed]
      | some trigger =>
        cases answer : standing.dispatch upper plugin trigger.name slot trigger.args .chat with
        | none => simp [same,parsed,answer]
        | some outcome => simp [same,parsed,answer]
  | _ => rfl

theorem run (represents : Represents upper system standing) (actions : List (Action H)) :
    Represents upper (system.run upper actions).1 (standing.run upper actions).1 ∧
      (system.run upper actions).2 = (standing.run upper actions).2 := by
  induction actions generalizing system standing with
  | nil => exact ⟨represents,rfl⟩
  | cons action rest ih =>
    obtain ⟨after,same⟩ := ih (represents.next action)
    refine ⟨after,?_⟩
    simp only [System.run,Standing.run,represents.outcomes action,same]

end Represents

/-- The list shows the commands that stand and what each asks of its callers, each once. -/
theorem commandsList_iff (upper : String → String) (disk : Admin.Disk) (actions : List (Action H)) :
    let list := ((System.start disk).run upper actions).1.commandsList
    let standing := ((Standing.start disk).run upper actions).1
    (list.map Prod.fst).Nodup ∧ ∀ name flags, (name,flags) ∈ list ↔
      ∃ plugin command, standing.commands name = some (plugin,command) ∧ flags = command.kind.flags := by
  have represents := ((@Represents.start H upper disk).run actions).1
  refine ⟨?_,fun name flags => ?_⟩
  · have names (system : System H) : system.commandsList.map Prod.fst = system.concommands.keys := by
      rw [System.commandsList,List.map_map]
      exact List.map_id _
    rw [names]
    exact AList.keys_nodup _
  · simp only [System.commandsList,List.mem_map,Prod.mk.injEq,← AList.mem_keys,represents.mem_concommands,represents.flags]
    constructor
    · rintro ⟨_,stands,rfl,rfl⟩
      obtain ⟨⟨plugin,command⟩,here⟩ := Option.isSome_iff_exists.mp stands
      exact ⟨plugin,command,here,by rw [here]; rfl⟩
    · rintro ⟨plugin,command,here,rfl⟩
      exact ⟨name,by rw [here]; rfl,rfl,by rw [here]; rfl⟩

end S2Script.CommandAccess
