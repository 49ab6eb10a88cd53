import S2Script.Table
import S2Script.WriteBehind

/-! The cookie outbox: accepted writes wait as ready payloads, one attempt of an account
at a time is leased to the persistence plugin, and failed or reclaimed attempts merge
back. `none` is a failed unwrap. -/
namespace S2Script.Cookies

/-- The largest `usize` and `u64`. -/
def wordMax : Nat := 2 ^ 64 - 1

/-- The largest `i64`. -/
def revisionMax : Int := 2 ^ 63 - 1

def satAdd (a b : Nat) : Nat := min (a + b) wordMax

/-- Account and cookie name. -/
abbrev CookieKey := String × String

/-- Plugin id and generation. -/
abbrev WriterOwner := String × Nat

/-- Limits of the outbox. The policy loader keeps sizes far below the word size. -/
structure OutboxPolicy where
  versions : Nat
  bytes : Nat
  writeBytes : Nat
  batchItems : Nat := 4
  batchBytes : Nat := 256 * 1024
  concurrent : Nat := 4
  bytes_bound : bytes ≤ (2 ^ 63 - 1) / 16

structure Payload where
  steamId : String
  name : String
  value : String
  updated : Int
  revision : Int
  coversFrom : Int
  deriving DecidableEq

def Payload.key (payload : Payload) : CookieKey := (payload.steamId,payload.name)

def Payload.bytes (payload : Payload) : Nat :=
  128 + payload.steamId.utf8ByteSize + payload.name.utf8ByteSize + payload.value.utf8ByteSize

structure Attempt where
  id : Nat
  owner : WriterOwner
  payload : Payload
  deriving DecidableEq

structure Pending where
  ready : Option Payload := none
  attempt : Option Attempt := none
  failures : Nat := 0
  nextAttempt : Nat := 0
  deriving DecidableEq

namespace Pending

/-- The ready payload, then the leased one. -/
def held (p : Pending) : List Payload := p.ready.toList ++ (p.attempt.map Attempt.payload).toList

def count (p : Pending) : Nat := p.held.length

def bytes (p : Pending) : Nat := (p.held.map Payload.bytes).sum

/-- The attempt an acknowledgement names. -/
def isLease (owner : WriterOwner) (id : Nat) (revision : Int) (p : Pending) : Bool :=
  p.attempt.any fun a => a.id == id && a.owner == owner && a.payload.revision == revision

def restore (p : Pending) (payload : Payload) : Pending :=
  match p.ready with
  | some v => { p with ready := some { v with coversFrom := min v.coversFrom payload.coversFrom } }
  | none => { p with ready := some payload }

/-- Take the attempt back when the owner is the named one, or any when none is named. -/
def reclaim (owner : Option String) (p : Pending) : Pending :=
  match p.attempt with
  | none => p
  | some a =>
    if owner.all (· == a.owner.1) then { restore { p with attempt := none } a.payload with nextAttempt := 0 } else p

/-- Milliseconds until the next attempt after this many failures. -/
def backoff (failures : Nat) : Nat := min (100 <<< min failures 6) 5000

/-- The entry once its attempt was answered. -/
def answered (p : Pending) (a : Attempt) (success : Bool) (now : Nat) : Pending :=
  if success then { p with attempt := none, failures := 0, nextAttempt := 0 }
  else { restore { p with attempt := none } a.payload with
    nextAttempt := satAdd now (backoff p.failures), failures := min (p.failures + 1) (2 ^ 32 - 1) }

end Pending

structure Outbox where
  entries : Table CookieKey Pending := ∅
  order : List CookieKey := []
  policy : OutboxPolicy
  revision : Int := 0
  leaseId : Nat := 0
  epoch : String
  accepted : Nat := 0
  coalesced : Nat := 0
  rejected : Nat := 0
  retries : Nat := 0
  staleAcks : Nat := 0

/-- The accounts with a leased payload. -/
def busyAccounts (entries : Table CookieKey Pending) : Finset String :=
  ((entries.entries.filter fun e => e.2.attempt.isSome).map fun e => e.1.1).toFinset

/-- The payloads of an account. -/
def accountHeld (entries : Table CookieKey Pending) (account : String) : List Payload :=
  (entries.entries.filter fun e => e.1.1 == account).flatMap fun e => e.2.held

/-- Where the oldest obligation of an account begins. -/
def oldest (entries : Table CookieKey Pending) (account : String) : Option Int :=
  ((accountHeld entries account).map Payload.coversFrom).min?

/-- The state of the loop in `lease`. -/
structure Round where
  entries : Table CookieKey Pending
  order : List CookieKey
  busy : Finset String
  bytes : Nat := 0
  leaseId : Nat
  result : List Attempt := []

/-- What `lease` computes before its loop. -/
structure Terms where
  owner : WriterOwner
  limit : Nat
  maxBytes : Nat
  now : Nat
  oldest : String → Option Int

namespace Round

def admits (terms : Terms) (round : Round) (key : CookieKey) (p : Pending) : Bool :=
  round.result.length < terms.limit && key.1 ∉ round.busy && p.nextAttempt ≤ terms.now && p.attempt.isNone

def fits (terms : Terms) (round : Round) (key : CookieKey) (payload : Payload) : Bool :=
  terms.oldest key.1 == some payload.coversFrom && round.bytes + payload.bytes ≤ terms.maxBytes &&
    round.leaseId < wordMax

def take (terms : Terms) (round : Round) (key : CookieKey) (p : Pending) (payload : Payload) : Round :=
  let a : Attempt := ⟨round.leaseId + 1,terms.owner,payload⟩
  { round with
    entries := round.entries.insert key { p with ready := none, attempt := some a }
    busy := insert key.1 round.busy
    bytes := round.bytes + payload.bytes
    leaseId := round.leaseId + 1
    result := round.result ++ [a] }

def visit (terms : Terms) (round : Round) (key : CookieKey) : Option Round :=
  match round.entries.lookup key with
  | none => none
  | some p =>
    match p.ready with
    | none => some round
    | some payload =>
      if round.admits terms key p && round.fits terms key payload then some (round.take terms key p payload)
      else some round

/-- `for _ in 0..order.len()`: each key is popped, offered, and pushed back. -/
def loop (terms : Terms) : Nat → Round → Option Round
  | 0, round => some round
  | n + 1, round =>
    match round.order with
    | [] => none
    | key :: rest =>
      (visit terms { round with order := rest } key).bind fun round =>
        loop terms n { round with order := round.order ++ [key] }

end Round

/-- Move a key to the back. -/
def toBack (order : List CookieKey) (key : CookieKey) : List CookieKey := order.filter (· != key) ++ [key]

namespace Outbox

def usage (box : Outbox) : Nat × Nat :=
  (box.entries.weight fun _ p => p.count,box.entries.weight fun _ p => p.bytes)

/-- The ready payload a write of this key would replace. -/
def replaced (box : Outbox) (key : CookieKey) : Option Payload := (box.entries.lookup key).bind Pending.ready

def refuses (box : Outbox) (sid name value : String) : Bool :=
  let old := box.replaced (sid,name)
  let charge := satAdd (satAdd (satAdd 128 sid.utf8ByteSize) name.utf8ByteSize) value.utf8ByteSize
  sid.isEmpty || sid == "0" || box.policy.writeBytes < charge ||
    box.policy.versions < box.usage.1 + (if old.isNone then 1 else 0) ||
    box.policy.bytes < satAdd (box.usage.2 - (old.map Payload.bytes).getD 0) charge ||
    box.revision == revisionMax

def accept (box : Outbox) (sid name value : String) (updated : Int) : Outbox × Bool :=
  if box.refuses sid name value then ({ box with rejected := satAdd box.rejected 1 },false)
  else
    let key := (sid,name)
    let old := box.replaced key
    let revision := box.revision + 1
    let payload : Payload := ⟨sid,name,value,updated,revision,(old.map Payload.coversFrom).getD revision⟩
    ({ box with
      revision := revision
      coalesced := if old.isSome then satAdd box.coalesced 1 else box.coalesced
      order := if key ∈ box.entries then box.order else box.order ++ [key]
      entries := box.entries.insert key { (box.entries.lookup key).getD {} with ready := some payload }
      accepted := satAdd box.accepted 1 },true)

def fence (box : Outbox) : Int := box.revision

def done (box : Outbox) (account : String) (fence : Int) : Bool :=
  (accountHeld box.entries account).all fun v => fence < v.coversFrom

def terms (box : Outbox) (owner : WriterOwner) (maxItems maxBytes now : Nat) : Terms where
  owner := owner
  limit := min (min maxItems box.policy.batchItems) (box.policy.concurrent - (busyAccounts box.entries).card)
  maxBytes := min maxBytes box.policy.batchBytes
  now := now
  oldest := oldest box.entries

def lease (box : Outbox) (owner : WriterOwner) (maxItems maxBytes now : Nat) : Option (Outbox × List Attempt) :=
  let start : Round := { entries := box.entries, order := box.order, busy := busyAccounts box.entries, leaseId := box.leaseId }
  (start.loop (box.terms owner maxItems maxBytes now) box.order.length).map fun round =>
    ({ box with
      entries := round.entries
      leaseId := round.leaseId
      order := round.result.foldl (fun order a => toBack order a.payload.key) round.order },round.result)

/-- The key of the lease an acknowledgement names. -/
def leased (box : Outbox) (owner : WriterOwner) (id : Nat) (revision : Int) : Option CookieKey :=
  (box.entries.entries.find? fun e => e.2.isLease owner id revision).map Sigma.fst

/-- What `ack` answers, and the key whose cached value it evicts. -/
structure Acked where
  known : Bool
  evicted : Option CookieKey := none

def ack (box : Outbox) (owner : WriterOwner) (id : Nat) (revision : Int) (success : Bool) (now : Nat) :
    Option (Outbox × Acked) :=
  match box.leased owner id revision with
  | none => some ({ box with staleAcks := satAdd box.staleAcks 1 },{ known := false })
  | some key =>
    match box.entries.lookup key with
    | none => none
    | some p =>
      match p.attempt with
      | none => none
      | some a =>
        let p := p.answered a success now
        let box := if success then box else { box with retries := satAdd box.retries 1 }
        if p.ready.isNone then
          some ({ box with entries := box.entries.erase key, order := box.order.filter (· != key) },
            { known := true, evicted := if success then some key else none })
        else some ({ box with entries := box.entries.insert key p },{ known := true })

def reclaim (box : Outbox) (owner : Option String) : Outbox :=
  { box with entries := box.entries.mapValues fun _ p => p.reclaim owner }

end Outbox

end S2Script.Cookies
