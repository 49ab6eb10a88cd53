import S2Script.CookieStore
import S2Script.Liveness

/-! Connection caches over the cookie outbox. A session is made by the first operation of its
connection, seeded from the account cache; the persistence plugin loads a session from a
`SELECT` it took once the account's earlier writes were stored. -/
namespace S2Script.Cookies

open WriteBehind Liveness

structure Entry where
  value : String
  dirty : Bool
  updated : Int
  deriving DecidableEq

structure ClientCookies where
  cached : Bool := false
  entries : Table String Entry := ∅

structure Session where
  steamId : String
  cookies : ClientCookies

/-- One row of the plugin's `SELECT`. -/
structure Row where
  name : String
  value : String
  updated : Int
  deriving DecidableEq

/-- A load waiting for its fence, and the rows once its query ran. -/
structure Load where
  token : Nat
  steamId : String
  fence : Int
  rows : Option (List Row) := none

/-- `applied` records the rows each session was loaded from. -/
structure Host where
  store : Persistence
  cache : Table String ClientCookies := ∅
  sessions : Table (Int × Nat) Session := ∅
  connections : LiveTable Int String := .new 1
  loads : Table Int Load := ∅
  applied : Table (Int × Nat) (List Row) := ∅

inductive Op where
  | get (name : String)
  | time (name : String)
  | cached
  | set (name value : String) (updated : Int)
  | load (rows : List Row)

inductive Reply where
  | null
  | text (value : String)
  | number (value : Int)
  | flag (value : Bool)
  deriving DecidableEq

def ClientCookies.write (cookies : ClientCookies) (name value : String) (updated : Int) : ClientCookies :=
  { cookies with entries := cookies.entries.insert name ⟨value,true,updated⟩ }

def ClientCookies.loadRow (cookies : ClientCookies) (row : Row) : ClientCookies :=
  if (cookies.entries.lookup row.name).any Entry.dirty then cookies
  else { cookies with entries := cookies.entries.insert row.name ⟨row.value,false,row.updated⟩ }

def ClientCookies.load (cookies : ClientCookies) (rows : List Row) : ClientCookies :=
  { rows.foldl ClientCookies.loadRow cookies with cached := true }

/-- Bots and unauthenticated clients have no account of their own. -/
def isPlayer (sid : String) : Bool := !(sid.isEmpty || sid == "0")

abbrev AccountCache := Table String ClientCookies

def cacheSet (cache : AccountCache) (account name value : String) (updated : Int) : AccountCache :=
  cache.insert account (((cache.lookup account).getD {}).write name value updated)

/-- An entry an online write finds in the account cache is overwritten; none is made. -/
def cacheRefresh (cache : AccountCache) (account name value : String) (updated : Int) : AccountCache :=
  match cache.lookup account with
  | none => cache
  | some cookies =>
    if name ∈ cookies.entries then cache.insert account (cookies.write name value updated) else cache

def cacheEvict (cache : AccountCache) (key : CookieKey) : AccountCache :=
  match cache.lookup key.1 with
  | none => cache
  | some cookies =>
    let entries := cookies.entries.erase key.2
    if entries.entries.isEmpty then cache.erase key.1 else cache.insert key.1 { cookies with entries := entries }

/-- The plugin's `SELECT name, value, updated FROM cookies WHERE steamid = ?`. -/
def select (rows : Database) (account : String) : List Row :=
  (rows.entries.filter fun e => e.1.1 == account).map fun e => ⟨e.1.2,e.2.value,e.2.updated⟩

/-- The run after the outbox was offered a write. -/
def Run.offered (run : Run) (sid name value : String) (updated : Int) : Run :=
  let after := run.box.accept sid name value updated
  ⟨after.1,if after.2 then run.ledger.accept ⟨(sid,name),(value,updated),after.1.revision⟩ else run.ledger⟩

namespace Host

def accept (host : Host) (sid name value : String) (updated : Int) : Host × Bool :=
  ({ host with store := { host.store with run := host.store.run.offered sid name value updated } },
    (host.store.run.box.accept sid name value updated).2)

/-- The session an operation acts on: the one there is, or a new one from the account cache. -/
def sessionOf (host : Host) (slot : Int) (token : Nat) (sid : String) : Session :=
  (host.sessions.lookup (slot,token)).getD ⟨sid,(host.cache.lookup sid).getD {}⟩

def putSession (host : Host) (slot : Int) (token : Nat) (session : Session) : Host :=
  { host with sessions := host.sessions.insert (slot,token) session }

def sessionOp (host : Host) (slot : Int) (token : Nat) (sid : String) (op : Op) : Host × Reply :=
  if !(token != 0 && host.connections.isLive slot token) then (host,.null)
  else if !isPlayer sid then (host,.null)
  else
    match op with
    | .get name =>
      let session := host.sessionOf slot token sid
      (host.putSession slot token session,((session.cookies.entries.lookup name).map fun e => Reply.text e.value).getD .null)
    | .time name =>
      let session := host.sessionOf slot token sid
      (host.putSession slot token session,.number (((session.cookies.entries.lookup name).map Entry.updated).getD 0))
    | .cached =>
      let session := host.sessionOf slot token sid
      (host.putSession slot token session,.flag session.cookies.cached)
    | .set name value updated =>
      match host.accept sid name value updated with
      | (host,false) => (host,.flag false)
      | (host,true) =>
        let host := { host with cache := cacheRefresh host.cache sid name value updated }
        let session := host.sessionOf slot token sid
        (host.putSession slot token { session with cookies := session.cookies.write name value updated },.flag true)
    | .load rows =>
      let session := host.sessionOf slot token sid
      (host.putSession slot token { session with cookies := session.cookies.load rows },.flag true)

def set (host : Host) (sid name value : String) (updated : Int) : Host × Bool :=
  match host.accept sid name value updated with
  | (host,false) => (host,false)
  | (host,true) => ({ host with cache := cacheSet host.cache sid name value updated },true)

def setAuthid (host : Host) (sid name value : String) (updated : Int) : Host × Bool :=
  match host.set sid name value updated with
  | (host,false) => (host,false)
  | (host,true) =>
    ({ host with sessions := host.sessions.mapValues fun _ session =>
        if session.steamId == sid then { session with cookies := session.cookies.write name value updated } else session },
      true)

/-- `client::end` of whoever is in the slot. -/
def endSlot (host : Host) (slot : Int) : Host :=
  match host.connections.entries slot with
  | none => host
  | some (token,_) =>
    { host with connections := host.connections.remove slot, sessions := host.sessions.erase (slot,token) }

def begin (host : Host) (slot : Int) (account : String) : Host :=
  let host := host.endSlot slot
  { host with connections := (host.connections.insert slot account).1 }

/-- A player's account is connected in another slot. -/
def elsewhere (host : Host) (slot : Int) (account : String) : Bool :=
  isPlayer account &&
    (List.range 64).any fun other => (other : Int) != slot && (host.connections.entries other).any fun c => c.2 == account

/-- The plugin's `loadCookies`: it takes a fence and replaces an earlier load of the slot. -/
def loadCookies (host : Host) (slot : Int) : Host :=
  match host.connections.entries slot with
  | none => host
  | some (token,account) =>
    if account == "0" then host
    else { host with loads := host.loads.insert slot ⟨token,account,host.store.run.box.fence,none⟩ }

/-- The client a load was started for is still the one in the slot. -/
def valid (host : Host) (slot : Int) (load : Load) : Bool := host.connections.isLive slot load.token

/-- The pump starts the query of a load whose fence is reached. -/
def startSelect (host : Host) (slot : Int) : Host :=
  match host.loads.lookup slot with
  | none => host
  | some load =>
    if !host.valid slot load then { host with loads := host.loads.erase slot }
    else if load.rows.isNone && host.store.run.box.done load.steamId load.fence then
      { host with loads := host.loads.insert slot { load with rows := some (select host.store.rows load.steamId) } }
    else host

/-- The query's rows arrive, unless it failed. -/
def finishSelect (host : Host) (slot : Int) (failed : Bool) : Host :=
  match host.loads.lookup slot with
  | none => host
  | some load =>
    match load.rows with
    | none => host
    | some rows =>
      let host := { host with loads := host.loads.erase slot }
      if failed || !host.valid slot load then host
      else
        match host.sessionOp slot load.token load.steamId (.load rows) with
        | (host,.flag true) => { host with applied := host.applied.insert (slot,load.token) rows }
        | (host,_) => host

end Host

inductive Event where
  | connect (slot : Int) (account : String)
  | disconnect (slot : Int)
  | session (slot : Int) (token : Nat) (op : Op)
  | setAuthid (account name value : String) (updated : Int)
  | loadCookies (slot : Int)
  | startSelect (slot : Int)
  | finishSelect (slot : Int) (failed : Bool)
  | lease (owner : WriterOwner) (maxItems maxBytes now : Nat)
  | execute (id : Nat)
  | ack (owner : WriterOwner) (id : Nat) (revision : Int) (success : Bool) (now : Nat)
  | reclaim (owner : Option String)

namespace Host

/-- The key whose cached value an acknowledgement evicts. -/
def evicts (host : Host) : Event → Option CookieKey
  | .ack owner id revision success now =>
    if host.store.reports (.ack owner id revision success now) then
      (host.store.run.box.ack owner id revision success now).bind fun after => after.2.evicted
    else none
  | _ => none

/-- The outbox step of an event. -/
def advanceStore (host : Host) (step : Step) : Option Host :=
  (host.store.advance step).map fun store => { host with store := store }

/-- An account is connected once, and only the plugin's load reads rows into a session. -/
def advance (host : Host) : Event → Option Host
  | .connect slot account =>
    if slot < 0 || 64 ≤ slot || host.elsewhere slot account then some host else some (host.begin slot account)
  | .disconnect slot => some (host.endSlot slot)
  | .session slot token op =>
    match op, host.connections.entries slot with
    | .load _, _ => some host
    | _, none => some host
    | op, some (_,account) => some (host.sessionOp slot token account op).1
  | .setAuthid account name value updated => some (host.setAuthid account name value updated).1
  | .loadCookies slot => some (host.loadCookies slot)
  | .startSelect slot => some (host.startSelect slot)
  | .finishSelect slot failed => some (host.finishSelect slot failed)
  | .lease owner maxItems maxBytes now => host.advanceStore (.outbox (.lease owner maxItems maxBytes now))
  | .execute id => host.advanceStore (.execute id)
  | .ack owner id revision success now =>
    let event := Event.ack owner id revision success now
    (host.advanceStore (.outbox (.ack owner id revision success now))).map fun after =>
      { after with cache := ((host.evicts event).map (cacheEvict host.cache)).getD host.cache }
  | .reclaim owner => host.advanceStore (.outbox (.reclaim owner))

def execute : List Event → Host → Option Host
  | [], host => some host
  | event :: rest, host => (host.advance event).bind (execute rest)

def start (policy : OutboxPolicy) (epoch : String) (rows : Database) : Host := { store := .start policy epoch rows }

end Host

end S2Script.Cookies
