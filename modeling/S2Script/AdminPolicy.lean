import S2Script.FoldTable

/-! The host's admin cache and the JavaScript that fills it: flags, immunity and command
overrides from three operator files, beside the admins that plugins add at run time. The cache is
the host's; what a context parses for its own display is the context's. -/
namespace S2Script.Admin

/-- An `ADMFLAG` mask, a JavaScript int32. -/
abbrev Flags := BitVec 32

/-- `__s2_ADMFLAG`: names and bits. -/
def admflag : List (String × Nat) :=
  [("RESERVATION",0),("GENERIC",1),("KICK",2),("BAN",3),("UNBAN",4),("SLAY",5),("CHANGEMAP",6),
    ("CONVARS",7),("CONFIG",8),("CHAT",9),("VOTE",10),("PASSWORD",11),("RCON",12),("CHEATS",13),("ROOT",14),
    ("CUSTOM1",15),("CUSTOM2",16),("CUSTOM3",17),("CUSTOM4",18),("CUSTOM5",19),("CUSTOM6",20)]

def flagNamed (name : String) : Option Flags := (admflag.lookup name).map fun index => 1#32 <<< index

def root : Flags := 1#32 <<< 14

/-- `__s2_hasFlags`. -/
def hasFlags (flags req : Flags) : Bool := flags &&& root != 0 || flags &&& req == req

/-- `__s2_flag_letterBit`; ROOT holds bit 14, so the letters from `o` on are one bit higher. -/
def letterBit (letter : Char) : Flags :=
  if letter = 'z' ∨ letter = 'Z' then root
  else if 97 ≤ letter.toNat ∧ letter.toNat ≤ 110 then 1#32 <<< (letter.toNat - 97)
  else if 111 ≤ letter.toNat ∧ letter.toNat ≤ 116 then 1#32 <<< (letter.toNat - 96)
  else 0

/-- What a file gives for flags: the texts of an array's items, a string, nothing or `null`, or another value. -/
inductive FlagsValue
  | tokens (texts : List String)
  | text (value : String)
  | absent
  | other
  deriving DecidableEq

structure Override where
  mask : Flags
  isPublic : Bool
  deriving DecidableEq

/-- An object of `admin_groups.json`. -/
structure Group where
  flags : FlagsValue
  immunity : Option Int
  overrides : Option (Table String FlagsValue)

/-- A value of `admins.json`. -/
inductive Entry
  | list (texts : List String)
  | record (flags : FlagsValue) (immunity : Option Int) (groups : Option (List String))
  | other

/-- A file on disk, as `JSON.parse` reads it. -/
inductive FileText (V : Type)
  | missing
  | malformed
  | scalar
  | object (fields : Table String V)

/-- The template that is written for a missing file has the one field `_help`. -/
def readOrTemplate {V : Type} (help : V) : FileText V → Table String V × FileText V
  | .missing => (∅,.object (AList.singleton "_help" help))
  | .object fields => (fields,.object fields)
  | text => (∅,text)

/-- A group as a context registers it. -/
structure GroupInfo where
  flags : Flags
  immunity : Int
  overrides : Table String Override

/-- What an entry of `admins.json` comes to. -/
structure Resolved where
  mask : Flags
  immunity : Int
  groups : List String
  overrides : Table String Override

section Parsing

variable (upper : String → String)

/-- `__s2_flag_token`. -/
def flagToken (tok : String) : Flags :=
  match flagNamed (upper tok) with
  | some flag => flag
  | none => match tok.toList with
    | [letter] => letterBit letter
    | _ => 0

/-- `__s2_parseFlags`. -/
def parseFlags : FlagsValue → Flags
  | .tokens texts => texts.foldl (fun mask tok => mask ||| flagToken upper tok) 0
  | .text value => match flagNamed (upper value) with
    | some flag => flag
    | none => value.toList.foldl (fun mask letter => mask ||| letterBit letter) 0
  | .absent => 0
  | .other => 0

/-- `__s2_parseOverrideToken`: the empty text is for everyone, and what names no flag is skipped. -/
def parseOverrideToken (value : FlagsValue) : Option Override :=
  if value = .text "" ∨ value = .absent then some ⟨0,true⟩
  else if parseFlags upper value = 0 then none
  else some ⟨parseFlags upper value,false⟩

/-- What is registered for a group; an override whose flags are unknown is skipped. -/
def groupInfo (group : Group) : GroupInfo where
  flags := parseFlags upper group.flags
  immunity := group.immunity.getD 0
  overrides := Table.collectInto (fun _ token => parseOverrideToken upper token) (group.overrides.getD ∅) ∅

/-- `__s2_admin_parseGroups`. -/
def parseGroups (obj : Table String (Option Group)) : Table String GroupInfo :=
  Table.collectInto (fun name value => if name = "_help" then none else value.map (groupInfo upper)) obj ∅

/-- One round of the loop over the groups an entry lists. -/
def listGroup (groups : Table String GroupInfo) (resolved : Resolved) (name : String) : Resolved :=
  match groups.lookup name with
  | none => resolved
  | some group =>
    { mask := resolved.mask ||| group.flags, immunity := max resolved.immunity group.immunity,
      groups := resolved.groups ++ [name],
      overrides := Table.collectInto (fun _ override => some override) group.overrides resolved.overrides }

/-- `__s2_admin_resolveEntry`. -/
def resolveEntry (groups : Table String GroupInfo) : Entry → Resolved
  | .list texts => ⟨parseFlags upper (.tokens texts),0,[],∅⟩
  | .record flags immunity listed =>
    (listed.getD []).foldl (listGroup groups) ⟨parseFlags upper flags,max 0 (immunity.getD 0),[],∅⟩
  | .other => ⟨0,0,[],∅⟩

end Parsing

/-- The state of `admin.rs`. -/
structure Cache where
  file : Table String Flags
  runtime : Table String Flags
  loaded : Bool
  fileImmunity : Table String Int
  runtimeImmunity : Table String Int
  overrides : FoldTable String Override
  globalOverrides : Table String Override

namespace Cache

def empty : Cache := ⟨∅,∅,false,∅,∅,.new,∅⟩

/-- A number handed over as a u64: a negative one saturates to zero. -/
def unsigned (flags : Flags) : Flags := if flags.msb then 0 else flags

/-- `__s2_admin_set`. -/
def set (cache : Cache) (sid : String) (flags : Flags) (immunity : Int) (runtime : Bool) : Cache :=
  if runtime then
    { cache with runtime := cache.runtime.insert sid (unsigned flags),
                 runtimeImmunity := cache.runtimeImmunity.insert sid immunity }
  else
    { cache with file := cache.file.insert sid (unsigned flags),
                 fileImmunity := cache.fileImmunity.insert sid immunity }

/-- `__s2_admin_get`. -/
def get (cache : Cache) (sid : String) : Flags :=
  (cache.file.lookup sid).getD 0 ||| (cache.runtime.lookup sid).getD 0

/-- `__s2_admin_get_immunity`. -/
def getImmunity (cache : Cache) (sid : String) : Int :=
  max ((cache.fileImmunity.lookup sid).getD 0) ((cache.runtimeImmunity.lookup sid).getD 0)

/-- `__s2_admin_add_override`. -/
def addOverride (cache : Cache) (sid cmd : String) (mask : Flags) (isPublic : Bool) : Cache :=
  { cache with overrides := cache.overrides.insert sid cmd ⟨unsigned mask,isPublic⟩ }

/-- `__s2_admin_set_global_override`. -/
def setGlobalOverride (cache : Cache) (cmd : String) (mask : Flags) (isPublic : Bool) : Cache :=
  { cache with globalOverrides := cache.globalOverrides.insert cmd ⟨unsigned mask,isPublic⟩ }

/-- `__s2_admin_override`: an admin's own override beats the global one. -/
def override (cache : Cache) (sid cmd : String) : Option Override :=
  (cache.overrides.get sid cmd).or (cache.globalOverrides.lookup cmd)

/-- `__s2_admin_remove`. -/
def remove (cache : Cache) (sid : String) (runtime : Bool) : Cache :=
  if runtime then
    { cache with runtime := cache.runtime.erase sid, runtimeImmunity := cache.runtimeImmunity.erase sid }
  else
    { cache with file := cache.file.erase sid, fileImmunity := cache.fileImmunity.erase sid }

/-- `__s2_admin_clear_file`. -/
def clearFile (cache : Cache) : Cache :=
  { cache with file := ∅, fileImmunity := ∅, overrides := .new, globalOverrides := ∅ }

/-- `__s2_admin_mark_loaded`. -/
def markLoaded (cache : Cache) : Cache × Bool := ({ cache with loaded := true },cache.loaded)

end Cache

/-- What a context parsed for itself. -/
structure Registry where
  groups : Table String GroupInfo
  adminGroups : Table String (List String)

structure Disk where
  groups : FileText (Option Group)
  admins : FileText Entry
  overrides : FileText FlagsValue

/-- The cache, the contexts that are open, the files and the SteamIDs of the slots. -/
structure Host where
  cache : Cache
  contexts : Table String Registry
  disk : Disk
  clients : Table Int String

/-- `Admin.get` and `Admin.forSlot`. -/
structure AdminInfo where
  steamId : String
  flags : Flags
  immunity : Int
  groups : List String

namespace Host

def start (disk : Disk) : Host := ⟨.empty,∅,disk,∅⟩

section Loading

variable (upper : String → String)

def pushOverride (sid : String) (cache : Cache) (cmd : String) (override : Override) : Cache :=
  cache.addOverride sid cmd override.mask override.isPublic

/-- An entry of `admins.json` goes to the host's cache with the overrides of its groups. -/
def pushEntry (cache : Cache) (sid : String) (resolved : Resolved) : Cache :=
  Table.visit (pushOverride sid) resolved.overrides (cache.set sid resolved.mask resolved.immunity false)

/-- One round of the loop over `admins.json`. -/
def parseAdmin (groups : Table String GroupInfo) (pushCore : Bool) (found : Table String (List String) × Cache)
    (sid : String) (entry : Entry) : Table String (List String) × Cache :=
  if sid = "_help" then found
  else
    let resolved := resolveEntry upper groups entry
    (found.1.insert sid resolved.groups,if pushCore then pushEntry found.2 sid resolved else found.2)

/-- `__s2_admin_parseAdmins`. -/
def parseAdmins (groups : Table String GroupInfo) (obj : Table String Entry) (pushCore : Bool) (cache : Cache) :
    Table String (List String) × Cache :=
  Table.visit (parseAdmin upper groups pushCore) obj (∅,cache)

/-- One round of the loop over `admin_overrides.json`. -/
def parseOverride (cache : Cache) (cmd : String) (value : FlagsValue) : Cache :=
  if cmd = "_help" then cache
  else match parseOverrideToken upper value with
    | some override => cache.setGlobalOverride cmd override.mask override.isPublic
    | none => cache

/-- `__s2_admin_parseOverrides`. -/
def parseOverrides (obj : Table String FlagsValue) (cache : Cache) : Cache :=
  Table.visit (parseOverride upper) obj cache

/-- `__s2_admin_reloadAll` in a context. -/
def reloadAll (host : Host) (context : String) (pushCore : Bool) : Host :=
  let groupsRead := readOrTemplate none host.disk.groups
  let groups := parseGroups upper groupsRead.1
  let adminsRead := readOrTemplate Entry.other host.disk.admins
  let parsed := parseAdmins upper groups adminsRead.1 pushCore host.cache
  let disk := { host.disk with groups := groupsRead.2, admins := adminsRead.2 }
  let contexts := host.contexts.insert context ⟨groups,parsed.1⟩
  if pushCore then
    let overridesRead := readOrTemplate FlagsValue.other disk.overrides
    { host with cache := parseOverrides upper overridesRead.1 parsed.2, contexts := contexts,
                disk := { disk with overrides := overridesRead.2 } }
  else { host with cache := parsed.2, contexts := contexts, disk := disk }

/-- The prelude runs in a new context; the first one ever fills the cache. -/
def openContext (host : Host) (context : String) : Host :=
  let marked := host.cache.markLoaded
  ({ host with cache := marked.1 }).reloadAll upper context !marked.2

/-- `Admin.reload`. -/
def reload (host : Host) (context : String) : Host :=
  ({ host with cache := host.cache.clearFile }).reloadAll upper context true

end Loading

/-- `__s2_client_steamid`. -/
def clientSteamid (host : Host) (slot : Int) : String := (host.clients.lookup slot).getD "0"

/-- `Admin.get` in a context. -/
def get (host : Host) (context sid : String) : Option AdminInfo :=
  if host.cache.get sid = 0 ∧ host.cache.getImmunity sid = 0 then none
  else some
    { steamId := sid, flags := host.cache.get sid, immunity := host.cache.getImmunity sid,
      groups := ((host.contexts.lookup context).bind fun registry => registry.adminGroups.lookup sid).getD [] }

/-- `Admin.forSlot`: a bot, or a client that is not authenticated yet, is never an admin. -/
def forSlot (host : Host) (context : String) (slot : Int) : Option AdminInfo :=
  if host.clientSteamid slot = "0" ∨ host.clientSteamid slot = "" then none
  else host.get context (host.clientSteamid slot)

/-- `__s2_admin_check`. -/
def check (host : Host) (context : String) (slot : Int) (requiredMask : Flags) (cmdName : String) : Bool :=
  match if cmdName = "" then none else host.cache.override (host.clientSteamid slot) cmdName with
  | some ⟨_,true⟩ => true
  | some ⟨mask,false⟩ => (host.forSlot context slot).any fun admin => hasFlags admin.flags mask
  | none => (host.forSlot context slot).any fun admin => hasFlags admin.flags requiredMask

/-- `__s2_canTargetImm`. -/
def canTargetImm (callerSlot : Int) (callerImm targetImm : Int) : Bool :=
  if callerSlot < 0 then true
  else if targetImm ≤ 0 then true
  else decide (targetImm ≤ callerImm)

/-- `Admin.canTarget`. -/
def canTarget (host : Host) (context : String) (callerSlot targetSlot : Int) : Bool :=
  canTargetImm callerSlot ((host.forSlot context callerSlot).elim 0 AdminInfo.immunity)
    ((host.forSlot context targetSlot).elim 0 AdminInfo.immunity)

end Host

/-- What the cache is subject to. -/
inductive Action
  | openContext (context : String)
  | closeContext (context : String)
  | add (sid : String) (flags : Flags) (immunity : Int)
  | remove (sid : String)
  | reload (context : String)
  | edit (disk : Disk)
  | connect (slot : Int) (sid : String)
  | disconnect (slot : Int)
  | reinit

/-- `Admin.add` and `Admin.remove` speak to the runtime tier. A core re-init drops the contexts and every tier. -/
def Host.step (upper : String → String) (host : Host) : Action → Host
  | .openContext context => host.openContext upper context
  | .closeContext context => { host with contexts := host.contexts.erase context }
  | .add sid flags immunity => { host with cache := host.cache.set sid flags immunity true }
  | .remove sid => { host with cache := host.cache.remove sid true }
  | .reload context => if context ∈ host.contexts then host.reload upper context else host
  | .edit disk => { host with disk := disk }
  | .connect slot sid => { host with clients := host.clients.insert slot sid }
  | .disconnect slot => { host with clients := host.clients.erase slot }
  | .reinit => { host with cache := .empty, contexts := ∅ }

def Host.run (upper : String → String) (host : Host) (actions : List Action) : Host :=
  actions.foldl (Host.step upper) host

end S2Script.Admin
