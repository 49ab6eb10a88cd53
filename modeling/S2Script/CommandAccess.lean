import S2Script.AdminPolicy
import S2Script.Interfaces
import S2Script.Liveness
import S2Script.RangeGate

/-! Plugin commands: the host's registry of console commands beside each context's registry of
dispatch functions, and the ways a line comes to a command: the engine's callback, a player's
console, a chat trigger, and a plugin that dispatches by name. -/
namespace S2Script.CommandAccess

open Admin (Flags)
open Interfaces (isWhitespace)
open Liveness (LiveTable)
open VersionRanges (isBlank)

/-- Where a command was invoked from. -/
inductive ReplySource
  | server | console | chat
  deriving DecidableEq

def ReplySource.fromSlot (slot : Int) : ReplySource := if slot < 0 then .server else .console

/-- The three ways to register a command. -/
inductive Kind
  | register
  | registerServer
  | registerAdmin (flags : Flags)

/-- What `__s2_concommand` records: zero for anyone, the sentinel -1 for the server console, or the mask. -/
def Kind.flags : Kind → Int
  | .register => 0
  | .registerServer => -1
  | .registerAdmin flags => flags.toInt

/-- A wrapped handler. -/
structure Command (H : Type) where
  name : String
  kind : Kind
  handler : H

inductive Outcome (H : Type)
  | ran (handler : H) (slot : Int) (args : String) (source : ReplySource)
  | refused (slot : Int) (reply : String) (source : ReplySource)
  | runtime (slot : Int) (args : String)
  | said (slot : Int) (text : List Char) (teamonly : Bool)

/-- A context's dispatch functions by name and its trigger characters. -/
structure Registry (H : Type) where
  commands : Table String (Command H)
  publicTrigger : String
  silentTrigger : String

structure System (H : Type) where
  admin : Admin.Host
  plugins : LiveTable String Unit
  concommands : Table String (String × Nat × Command H)
  commandMeta : Table String Int
  contexts : Table String (Registry H)

variable {H : Type}

/-- The wrapper around a handler. Callers below slot zero are the server. -/
def Command.invoke (command : Command H) (admin : Admin.Host) (context : String) (slot : Int) (args : String)
    (source : ReplySource) : Outcome H :=
  match command.kind with
  | .register => .ran command.handler slot args source
  | .registerServer =>
    if slot < 0 then .ran command.handler slot args source
    else .refused slot "[S2S] This command can only be run from the server console." source
  | .registerAdmin flags =>
    if slot < 0 then .ran command.handler slot args source
    else if admin.check context slot flags command.name then .ran command.handler slot args source
    else .refused slot "[S2S] You do not have access to this command." source

/-- Two ways to take a chat line apart: the host's trims both ends, a script's only what leads. -/
structure Trigger where
  silent : Bool
  name : String
  args : String

def splitTrigger (space : Char → Bool) (silent : Bool) (body : List Char) : Option Trigger :=
  if body.isEmpty then none
  else some
    { silent := silent, name := String.ofList (body.takeWhile fun c => !space c),
      args := String.ofList ((body.dropWhile fun c => !space c).dropWhile space) }

/-- The trigger of `dispatch_chat`. -/
def hostTrigger : List Char → Option Trigger
  | '!' :: rest => splitTrigger isWhitespace false (RangeGate.trimBy isWhitespace rest)
  | '/' :: rest => splitTrigger isWhitespace true (RangeGate.trimBy isWhitespace rest)
  | _ => none

/-- `parseChatTrigger`: the silent character goes first, and an empty one is no trigger. -/
def parseChatTrigger (registry : Registry H) : List Char → Option Trigger
  | [] => none
  | first :: rest =>
    if registry.silentTrigger = String.singleton first then splitTrigger isBlank true (rest.dropWhile isBlank)
    else if registry.publicTrigger = String.singleton first then splitTrigger isBlank false (rest.dropWhile isBlank)
    else none

namespace System

def start (disk : Admin.Disk) : System H := ⟨.start disk,.new 1,∅,∅,∅⟩

def isLoaded (system : System H) (plugin : String) : Bool := (system.plugins.idOf plugin).isSome

variable (upper : String → String)

/-- A plugin's context is created with its generation, and the prelude runs in it. -/
def load (system : System H) (plugin : String) : System H :=
  if system.isLoaded plugin then system
  else
    { system with plugins := (system.plugins.insert plugin ()).1,
                  admin := system.admin.step upper (.openContext plugin),
                  contexts := system.contexts.insert plugin ⟨∅,"!","/"⟩ }

/-- The commands of an owner go with what was recorded for them. -/
def dropOwner (system : System H) (owner : String) : System H :=
  let dropped := (system.concommands.retain fun _ entry => entry.1 == owner).keys
  { system with concommands := system.concommands.retain fun _ entry => entry.1 != owner,
                commandMeta := dropped.foldl (fun found name => found.erase name) system.commandMeta }

def unload (system : System H) (plugin : String) : System H :=
  let dropped := system.dropOwner plugin
  { dropped with plugins := dropped.plugins.remove plugin,
                 admin := dropped.admin.step upper (.closeContext plugin),
                 contexts := dropped.contexts.erase plugin }

/-- `__s2_concommand`; the name `sm` is the runtime's own. -/
def concommand (system : System H) (owner : String) (command : Command H) : System H :=
  if command.name = "sm" then system
  else
    { system with concommands := system.concommands.insert command.name (owner,(system.plugins.idOf owner).getD 0,command),
                  commandMeta := system.commandMeta.insert command.name command.kind.flags }

/-- `__s2cmd_add` in a plugin's context. -/
def add (system : System H) (plugin : String) (command : Command H) : System H :=
  match system.contexts.lookup plugin with
  | none => system
  | some registry =>
    let added := { registry with commands := registry.commands.insert command.name command }
    ({ system with contexts := system.contexts.insert plugin added }).concommand plugin command

/-- A dispatch that finds the isolate taken is dropped. -/
def dispatchConcommand (system : System H) (busy : Bool) (name : String) (slot : Int) (args : String)
    (source : ReplySource) : List (Outcome H) :=
  if name = "sm" then [.runtime slot args]
  else match system.concommands.lookup name with
    | none => []
    | some (owner,generation,command) =>
      if busy then []
      else if system.plugins.isLive owner generation then [command.invoke system.admin owner slot args source]
      else []

/-- The engine's callback for a console command. -/
def fromEngine (system : System H) (busy : Bool) (name : String) (slot : Int) (args : String) : List (Outcome H) :=
  system.dispatchConcommand busy name slot args (.fromSlot slot)

/-- A player's console: the exact name only. -/
def dispatchClientCommand (system : System H) (busy : Bool) (slot : Int) (name args : String) : List (Outcome H) × Bool :=
  if name ∈ system.concommands then (system.dispatchConcommand busy name slot args .console,true) else ([],false)

/-- The command a trigger stands for, under its name or with `sm_` before it. -/
def matched (system : System H) (name : String) : Option String :=
  if name ∈ system.concommands then some name
  else if "sm_" ++ name ∈ system.concommands then some ("sm_" ++ name)
  else none

/-- A chat line, and whether its broadcast is suppressed; `consumed` is the listeners' answer. -/
def dispatchChat (system : System H) (busy : Bool) (slot : Int) (text : List Char) (teamonly consumed : Bool) :
    List (Outcome H) × Bool :=
  match (hostTrigger text).bind fun trigger => (system.matched trigger.name).map fun cmd => (trigger,cmd) with
  | some (trigger,cmd) => (system.dispatchConcommand busy cmd slot trigger.args .chat,trigger.silent)
  | none => ([.said slot text teamonly],consumed)

/-- `Commands.dispatch` in a plugin's context. -/
def dispatch (system : System H) (plugin name : String) (slot : Int) (args : String) (source : Option ReplySource) :
    Option (Outcome H) :=
  ((system.contexts.lookup plugin).bind fun registry => registry.commands.lookup name).map fun command =>
    command.invoke system.admin plugin slot args (source.getD (.fromSlot slot))

/-- `Commands.handleChatTrigger` in a plugin's context. -/
def handleChatTrigger (system : System H) (plugin : String) (slot : Int) (message : List Char) : List (Outcome H) :=
  match (system.contexts.lookup plugin).bind fun registry => parseChatTrigger registry message with
  | none => []
  | some trigger =>
    match system.dispatch plugin trigger.name slot trigger.args (some .chat) with
    | some outcome => [outcome]
    | none =>
      if "sm_".toList.isPrefixOf trigger.name.toList then []
      else (system.dispatch plugin ("sm_" ++ trigger.name) slot trigger.args (some .chat)).toList

/-- `Commands.list`: the live names with what is recorded for them. -/
def commandsList (system : System H) : List (String × Int) :=
  system.concommands.keys.map fun name => (name,(system.commandMeta.lookup name).getD 0)

end System

inductive Action (H : Type)
  | load (plugin : String)
  | unload (plugin : String)
  | add (plugin : String) (command : Command H)
  | setTriggers (plugin publicTrigger silentTrigger : String)
  | addAdmin (sid : String) (flags : Flags) (immunity : Int)
  | removeAdmin (sid : String)
  | reloadAdmins (plugin : String)
  | editFiles (disk : Admin.Disk)
  | connect (slot : Int) (sid : String)
  | disconnect (slot : Int)
  | fromEngine (busy : Bool) (name : String) (slot : Int) (args : String)
  | fromConsole (busy : Bool) (slot : Int) (name args : String)
  | fromChat (busy : Bool) (slot : Int) (text : List Char) (teamonly consumed : Bool)
  | dispatch (plugin name : String) (slot : Int) (args : String) (source : Option ReplySource)
  | chatTrigger (plugin : String) (slot : Int) (message : List Char)

/-- What an action says to the admin cache. -/
def Action.toAdmin : Action H → Option Admin.Action
  | .addAdmin sid flags immunity => some (.add sid flags immunity)
  | .removeAdmin sid => some (.remove sid)
  | .reloadAdmins plugin => some (.reload plugin)
  | .editFiles disk => some (.edit disk)
  | .connect slot sid => some (.connect slot sid)
  | .disconnect slot => some (.disconnect slot)
  | _ => none

namespace System

variable (upper : String → String)

def outcomes (system : System H) : Action H → List (Outcome H)
  | .fromEngine busy name slot args => system.fromEngine busy name slot args
  | .fromConsole busy slot name args => (system.dispatchClientCommand busy slot name args).1
  | .fromChat busy slot text teamonly consumed => (system.dispatchChat busy slot text teamonly consumed).1
  | .dispatch plugin name slot args source => (system.dispatch plugin name slot args source).toList
  | .chatTrigger plugin slot message => system.handleChatTrigger plugin slot message
  | _ => []

def setTriggers (system : System H) (plugin publicTrigger silentTrigger : String) : System H :=
  match system.contexts.lookup plugin with
  | none => system
  | some registry =>
    let changed := { registry with publicTrigger := publicTrigger, silentTrigger := silentTrigger }
    { system with contexts := system.contexts.insert plugin changed }

/-- Actions that bring a line to a command change nothing here: what a handler does is the next actions. -/
def next (system : System H) (action : Action H) : System H :=
  match action with
  | .load plugin => system.load upper plugin
  | .unload plugin => system.unload upper plugin
  | .add plugin command => system.add plugin command
  | .setTriggers plugin publicTrigger silentTrigger => system.setTriggers plugin publicTrigger silentTrigger
  | action => match action.toAdmin with
    | some action => { system with admin := system.admin.step upper action }
    | none => system

/-- A run, with what comes of every action in turn. -/
def run (system : System H) : List (Action H) → System H × List (Outcome H)
  | [] => (system,[])
  | action :: rest =>
    let after := run (system.next upper action) rest
    (after.1,system.outcomes action ++ after.2)

end System

end S2Script.CommandAccess
