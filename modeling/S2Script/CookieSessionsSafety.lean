import S2Script.CookieSessionsRuns

/-! A loaded session shows the newest accepted value in every run whose acknowledgements
evict only values that the queries in flight have read. -/
namespace S2Script.Cookies

open WriteBehind Liveness

namespace Host

/-- What an acknowledgement evicts was read by every query in flight of a connected client
that has no session yet. -/
def readBefore (host : Host) (event : Event) : Bool :=
  match host.evicts event with
  | none => true
  | some key =>
    match ((host.cache.lookup key.1).getD {}).entries.lookup key.2 with
    | none => true
    | some e => host.loads.entries.all fun ⟨slot,load⟩ =>
      load.rows.all fun rows => host.connections.entries slot != some (load.token,load.steamId) || load.steamId != key.1 ||
        (slot,load.token) ∈ host.sessions || (rowOf rows key.2).map Row.value == some e.value

/-- Every acknowledgement of the run evicts only what was read. -/
def careful : List Event → Host → Bool
  | [], _ => true
  | event :: rest, host => host.readBefore event && (host.advance event).all (careful rest)

/-- A query in flight that missed the value an acknowledgement evicts. -/
structure Missed (host : Host) (key : CookieKey) (e : Entry) (slot : Int) (load : Load) (rows : List Row) : Prop where
  cached : ((host.cache.lookup key.1).getD {}).entries.lookup key.2 = some e
  loading : host.loads.lookup slot = some load
  ran : load.rows = some rows
  connected : Connected host slot load
  account : load.steamId = key.1
  unseen : (slot,load.token) ∉ host.sessions
  other : (rowOf rows key.2).map Row.value ≠ some e.value

theorem readBefore_eq_false (host : Host) (event : Event) :
    host.readBefore event = false ↔ ∃ key e slot load rows, host.evicts event = some key ∧ host.Missed key e slot load rows := by
  rw [readBefore]
  constructor
  · intro missed
    split at missed
    · exact nomatch missed
    · next key evicted =>
      split at missed
      · exact nomatch missed
      · next e cached =>
        obtain ⟨⟨slot,load⟩,entry,missed⟩ := List.all_eq_false.mp missed
        have here := (Table.lookup_iff_entry host.loads slot load).mpr entry
        cases ran : load.rows with
        | none => simp [ran] at missed
        | some rows =>
          simp only [ran,Option.all_some,Bool.or_eq_true,bne_iff_ne,beq_iff_eq,decide_eq_true_eq,not_or,not_not,ne_eq] at missed
          obtain ⟨⟨⟨connected,account⟩,unseen⟩,other⟩ := missed
          exact ⟨key,e,slot,load,rows,evicted,cached,here,ran,connected,account,unseen,other⟩
  · rintro ⟨key,e,slot,load,rows,evicted,missed⟩
    rw [evicted]
    simp only [missed.cached]
    refine List.all_eq_false.mpr ⟨⟨slot,load⟩,(Table.lookup_iff_entry host.loads slot load).mp missed.loading,?_⟩
    simp only [missed.ran,Option.all_some,Bool.or_eq_true,bne_iff_ne,beq_iff_eq,decide_eq_true_eq,not_or,not_not,ne_eq]
    exact ⟨⟨⟨missed.connected,missed.account⟩,missed.unseen⟩,missed.other⟩

end Host

/-- After its load was applied, a live session's `get` returns the newest accepted value, or
the value its query read when none was accepted. -/
def ShowsLatest (host : Host) : Prop :=
  ∀ slot token account rows name, host.connections.entries slot = some (token,account) →
    host.applied.lookup (slot,token) = some rows →
    (∀ w, host.ledger.Last w → w.key = (account,name) →
      (host.sessionOp slot token account (.get name)).2 = .text w.value.1) ∧
    (Unwritten host.ledger (account,name) →
      (host.sessionOp slot token account (.get name)).2 = ((rowOf rows name).map fun row => Reply.text row.value).getD .null)

section Steps

variable {initial : Database} {host : Host}

/-- A step of the outbox other than an accepted write. -/
structure Quiet (before after : Persistence) : Prop where
  writes : after.run.ledger.writes = before.run.ledger.writes
  settled : ∀ key revision, before.run.ledger.Settled key revision → after.run.ledger.Settled key revision
  untouched : ∀ key, Unwritten before.run.ledger key → after.rows.lookup key = before.rows.lookup key

theorem Quiet.refl (sys : Persistence) : Quiet sys sys := ⟨rfl,fun _ _ settled => settled,fun _ _ => rfl⟩

theorem upsert_other (epoch : String) (rows : Database) {payload : Payload} {key : CookieKey} (apart : key ≠ payload.key) :
    (upsert epoch rows payload).lookup key = rows.lookup key := by
  simp only [upsert]
  split
  · exact AList.lookup_insert_ne apart
  · split
    · exact AList.lookup_insert_ne apart
    · rfl

theorem Quiet.execute {sys after : Persistence} (converging : Converging sys) {id : Nat}
    (step : sys.advance (.execute id) = some after) : Quiet sys after := by
  rw [Persistence.advance] at step
  cases found : sys.issued.find? fun a => a.id == id with
  | none =>
    rw [found] at step
    obtain rfl := Option.some.inj step
    exact .refl sys
  | some a =>
    rw [found] at step
    by_cases ran : id ∈ sys.executed
    · obtain rfl := Option.some.inj ((if_pos ran).symm.trans step)
      exact .refl sys
    · obtain rfl := Option.some.inj ((if_neg ran).symm.trans step)
      refine ⟨rfl,fun _ _ settled => settled,fun key unwritten => upsert_other _ _ ?_⟩
      exact fun same => unwritten _ (converging.written a (List.mem_of_find?_eq_some found)) same.symm

/-- An action that is not a write keeps the writes and settles no less. -/
theorem Quiet.outbox {sys after : Persistence} {action : Action}
    (other : ∀ sid name value updated, action ≠ .accept sid name value updated)
    (step : sys.advance (.outbox action) = some after) : Quiet sys after := by
  rw [Persistence.advance] at step
  split at step
  · obtain ⟨run,ran,rfl⟩ := Option.map_eq_some_iff.mp step
    cases action with
    | accept sid name value updated => exact absurd rfl (other sid name value updated)
    | lease owner maxItems maxBytes now =>
      obtain ⟨out,_,rfl⟩ := Option.map_eq_some_iff.mp ran
      exact ⟨rfl,fun _ _ settled => settled,fun _ _ => rfl⟩
    | ack owner id revision success now =>
      obtain ⟨out,_,rfl⟩ := Option.map_eq_some_iff.mp ran
      cases found : sys.run.box.leased owner id revision with
      | none => exact ⟨rfl,fun _ _ settled => settled,fun _ _ => rfl⟩
      | some key =>
        cases success with
        | false => exact ⟨rfl,fun _ _ settled => settled,fun _ _ => rfl⟩
        | true =>
          exact ⟨rfl,fun other revision settled => (Ledger.settled_acknowledge _ _ _ _ _).mpr (.inl settled),
            fun _ _ => rfl⟩
    | reclaim owner =>
      obtain rfl := Option.some.inj ran
      exact ⟨rfl,fun _ _ settled => settled,fun _ _ => rfl⟩
  · obtain rfl := Option.some.inj step
    exact .refl sys

/-- The outbox takes every step, and a quiet one keeps what the sessions show. -/
theorem Showing.advanceStore (showing : Showing initial host) (step : Step)
    (quiet : ∀ after, host.store.advance step = some after → Quiet host.store after) :
    ∃ store, host.store.advance step = some store ∧ Quiet host.store store ∧ Showing initial { host with store := store } := by
  obtain ⟨store,stepped,converging,_⟩ := showing.converging.advance step
  have still := quiet store stepped
  exact ⟨store,stepped,still,showing.store converging still.writes still.settled still.untouched⟩

theorem Showing.endSlot (showing : Showing initial host) (slot : Int) :
    Showing initial (host.endSlot slot) ∧ (host.endSlot slot).connections.entries slot = none ∧
      ∀ other, other ≠ slot → (host.endSlot slot).connections.entries other = host.connections.entries other := by
  rw [Host.endSlot]
  split
  · next free => exact ⟨showing,free,fun _ _ => rfl⟩
  · next token account connected =>
    exact ⟨showing.leave connected,Function.update_self _ _ _,fun other apart => Function.update_of_ne apart _ _⟩

theorem Showing.begin (showing : Showing initial host) {slot : Int} {account : String} (inside : 0 ≤ slot ∧ slot < 64)
    (alone : host.elsewhere slot account = false) : Showing initial (host.begin slot account) := by
  obtain ⟨ended,free,others⟩ := showing.endSlot slot
  refine ended.join free inside fun player other token connected => ?_
  have apart : other ≠ slot := by
    rintro rfl
    rw [free] at connected
    exact nomatch connected
  rw [others other apart] at connected
  obtain ⟨low,high⟩ := showing.slots other _ connected
  have present : host.elsewhere slot account = true := by
    simp only [Host.elsewhere,player,Bool.true_and,List.any_eq_true,List.mem_range]
    refine ⟨other.toNat,by omega,?_⟩
    have same : (other.toNat : Int) = other := Int.toNat_of_nonneg low
    simp [same,apart,connected]
  rw [alone] at present
  exact nomatch present

/-- A refused write changes a counter. -/
theorem Showing.refused (showing : Showing initial host) {sid name value : String} (updated : Int)
    (refused : host.store.run.box.refuses sid name value = true) :
    Showing initial (host.accept sid name value updated).1 ∧ (host.accept sid name value updated).2 = false := by
  have ledger : (host.store.run.offered sid name value updated).ledger = host.ledger := by
    rw [Run.offered,Outbox.accept_refused refused]
    rfl
  have converging := showing.converging.outbox (.accept sid name value updated) rfl rfl
  simp only [Run.admitted,List.append_nil] at converging
  refine ⟨showing.store converging (congrArg Ledger.writes ledger) ?_ fun _ _ => rfl,?_⟩
  · exact fun key revision settled => ledger.symm ▸ settled
  · rw [Host.accept,Outbox.accept_refused refused]

/-- A write through a session reaches that session and an entry the cache has for it. -/
theorem Showing.setOnline (showing : Showing initial host) {slot : Int} {token : Nat} {account name value : String}
    {updated : Int} (player : isPlayer account) (connected : host.connections.entries slot = some (token,account))
    (admits : host.store.run.box.refuses account name value = false) :
    let refreshed : Host := { (host.accept account name value updated).1 with
      cache := cacheRefresh host.cache account name value updated }
    let session := refreshed.sessionOf slot token account
    Showing initial (refreshed.putSession slot token { session with cookies := session.cookies.write name value updated }) := by
  intro refreshed session
  have seeded : ∀ other id sid n, (sid,n) ≠ (account,name) →
      (refreshed.view other id sid).lookup n = (host.view other id sid).lookup n := by
    intro other id sid n apart
    cases here : host.sessions.lookup (other,id) with
    | some s =>
      rw [Host.view_of_session here sid,@Host.view_of_session refreshed _ _ _ here sid]
    | none =>
      rw [Host.view_of_none here sid,@Host.view_of_none refreshed _ _ here sid]
      exact (lookup_cacheRefresh _ _ _ _ _ _ _).trans (if_neg fun both => apart both.1)
  have owner : session.steamId = account := by
    cases here : host.sessions.lookup (slot,token) with
    | none =>
      have : session = ⟨account,(refreshed.cache.lookup account).getD {}⟩ := by
        simp only [session,Host.sessionOf]
        rw [show refreshed.sessions.lookup (slot,token) = none from here]
        rfl
      rw [this]
    | some s =>
      have same : session = s := by
        simp only [session,Host.sessionOf]
        rw [show refreshed.sessions.lookup (slot,token) = some s from here]
        rfl
      have owned := showing.owner connected
      simp only [Host.sessionOf,here,Option.getD_some] at owned
      rw [same,owned]
  refine showing.written admits rfl rfl rfl rfl ?_ ?_ ?_ ?_
  · intro other n e here
    have found : ((cacheRefresh host.cache account name value updated).lookup other |>.getD {}).entries.lookup n = some e := here
    rw [lookup_cacheRefresh] at found
    by_cases same : (other,n) = (account,name)
    · refine .inl ⟨same,?_⟩
      split at found
      · exact (Option.some.inj found).symm
      · next absent =>
        obtain ⟨rfl,rfl⟩ := Prod.mk.inj same
        exact absurd ⟨rfl,Table.mem_of_lookup found⟩ absent
    · rw [if_neg fun both => same both.1] at found
      exact .inr ⟨same,found⟩
  · intro other id s here
    change (host.sessions.insert (slot,token) _).lookup (other,id) = some s at here
    rw [Table.lookup_insert_eq] at here
    split at here
    · next same =>
      obtain ⟨rfl,rfl⟩ := Prod.mk.inj same.symm
      obtain rfl := Option.some.inj here
      simp only [owner]
      exact ⟨player,connected⟩
    · exact showing.live other id s here
  · exact fun key member => (AList.mem_insert _).mpr (.inr member)
  · intro other id sid there n
    rw [Host.view_putSession]
    by_cases same : (other,id) = (slot,token)
    · obtain ⟨rfl,rfl⟩ := Prod.mk.inj same.symm
      rw [connected] at there
      obtain ⟨_,rfl⟩ := Prod.mk.inj (Option.some.inj there)
      simp only [if_true,ClientCookies.write,Table.lookup_insert_eq,Prod.mk.injEq,true_and]
      split
      · rfl
      · next apart => exact seeded slot token account n fun both => apart (Prod.mk.inj both).2
    · -- no other connection is the account's
      have others : sid ≠ account := by
        rintro rfl
        obtain rfl := showing.single slot other token id sid player connected there
        rw [connected] at there
        exact same (by rw [(Prod.mk.inj (Option.some.inj there)).1])
      have apart : (sid,n) ≠ (account,name) := fun both => others (Prod.mk.inj both).1
      rw [if_neg same,if_neg apart]
      exact seeded other id sid n apart

/-- An offline write reaches the cache and every session of the account. -/
theorem Showing.setAuthid (showing : Showing initial host) (sid name value : String) (updated : Int) :
    Showing initial (host.setAuthid sid name value updated).1 := by
  cases refused : host.store.run.box.refuses sid name value with
  | true =>
    obtain ⟨still,no⟩ := showing.refused updated refused
    have whole : (host.setAuthid sid name value updated).1 = (host.accept sid name value updated).1 := by
      have : host.accept sid name value updated = ((host.accept sid name value updated).1,false) := Prod.ext rfl no
      rw [Host.setAuthid,Host.set,this]
    exact whole ▸ still
  | false =>
    have yes : host.accept sid name value updated = ((host.accept sid name value updated).1,true) :=
      Prod.ext rfl (Outbox.accept_admitted refused updated)
    rw [Host.setAuthid,Host.set,yes]
    refine showing.written refused rfl rfl rfl rfl ?_ ?_ ?_ ?_
    · intro other n e here
      have here : ((cacheSet host.cache sid name value updated).lookup other |>.getD {}).entries.lookup n = some e := here
      rw [lookup_cacheSet] at here
      split at here
      · next same => exact .inl ⟨same,(Option.some.inj here).symm⟩
      · next apart => exact .inr ⟨apart,here⟩
    · intro slot token s here
      simp only [Host.accept,Table.lookup_mapValues,Option.map_eq_some_iff] at here
      obtain ⟨old,found,rfl⟩ := here
      have live := showing.live slot token old found
      split
      · exact live
      · exact live
    · intro key member
      obtain ⟨s,here⟩ := Table.lookup_of_mem member
      exact Table.mem_of_lookup ((Table.lookup_mapValues _ _ _).trans (congrArg _ here))
    · intro slot token account connected n
      cases here : host.sessions.lookup (slot,token) with
      | some s =>
        have owner := (showing.live slot token s here).2
        rw [connected] at owner
        have owner : account = s.steamId := (Prod.mk.inj (Option.some.inj owner)).2
        rw [Host.view_of_session here account,
          @Host.view_of_session _ _ _ (if s.steamId == sid then { s with cookies := s.cookies.write name value updated } else s)
            ((Table.lookup_mapValues _ _ _).trans (congrArg _ here)) account]
        by_cases same : s.steamId = sid
        · rw [if_pos (beq_iff_eq.mpr same),owner,same]
          simp only [ClientCookies.write,Table.lookup_insert_eq,Prod.mk.injEq,true_and]
        · rw [if_neg (fun equal => same (beq_iff_eq.mp equal)),if_neg fun both => same (owner ▸ (Prod.mk.inj both).1)]
      | none =>
        rw [Host.view_of_none here account,
          @Host.view_of_none _ _ _ ((Table.lookup_mapValues _ _ _).trans (congrArg _ here)) account]
        exact lookup_cacheSet _ _ _ _ _ _ _

/-- An operation of a live player's connection. -/
theorem Host.sessionOp_live (minted : host.connections.Minted) {slot : Int} {token : Nat} {account : String}
    (player : isPlayer account) (connected : host.connections.entries slot = some (token,account)) :
    (!(token != 0 && host.connections.isLive slot token)) = false ∧ (!isPlayer account) = false := by
  have live : host.connections.idOf slot = some token := by rw [LiveTable.idOf,connected]; rfl
  have positive : token ≠ 0 := Nat.pos_iff_ne_zero.mp (minted.minted live).1
  simp [LiveTable.isLive,live,player,positive]

theorem Host.sessionOp_dead {slot : Int} {token : Nat} {account : String}
    (dead : (!(token != 0 && host.connections.isLive slot token) || !isPlayer account) = true) (op : Op) :
    host.sessionOp slot token account op = (host,.null) := by
  simp only [Host.sessionOp]
  split
  · rfl
  · next alive =>
    rw [if_pos (by simpa [alive] using dead)]

theorem Showing.sessionOp (showing : Showing initial host) {slot : Int} {token id : Nat} {account : String} {op : Op}
    (connected : host.connections.entries slot = some (id,account)) (unloaded : ∀ rows, op ≠ .load rows) :
    Showing initial (host.sessionOp slot token account op).1 := by
  by_cases refused : (!(token != 0 && host.connections.isLive slot token)) || !isPlayer account
  · rw [Host.sessionOp_dead refused]
    exact showing
  · have both : (token != 0 && host.connections.isLive slot token) = true ∧ isPlayer account = true := by simpa using refused
    obtain ⟨live,player⟩ := both
    have same : id = token := by simpa [LiveTable.isLive,LiveTable.idOf,connected] using (Bool.and_eq_true_iff.mp live).2
    subst same
    obtain ⟨alive,known⟩ := Host.sessionOp_live showing.minted player connected
    cases op with
    | get name =>
      simp only [Host.sessionOp,alive,known,Bool.false_eq_true,if_false]
      exact showing.touch player connected
    | time name =>
      simp only [Host.sessionOp,alive,known,Bool.false_eq_true,if_false]
      exact showing.touch player connected
    | cached =>
      simp only [Host.sessionOp,alive,known,Bool.false_eq_true,if_false]
      exact showing.touch player connected
    | set name value updated =>
      simp only [Host.sessionOp,alive,known,Bool.false_eq_true,if_false]
      cases refused : host.store.run.box.refuses account name value with
      | true =>
        obtain ⟨still,no⟩ := showing.refused updated refused
        rw [show host.accept account name value updated = ((host.accept account name value updated).1,false) from Prod.ext rfl no]
        exact still
      | false =>
        have yes := Outbox.accept_admitted refused updated
        rw [show host.accept account name value updated = ((host.accept account name value updated).1,true) from Prod.ext rfl yes]
        exact showing.setOnline player connected refused
    | load rows => exact absurd rfl (unloaded rows)

theorem Showing.startSelect (showing : Showing initial host) (slot : Int) : Showing initial (host.startSelect slot) := by
  rw [Host.startSelect]
  split
  · exact showing
  · next load here =>
    split
    · exact showing.forget slot
    · split
      · next eligible =>
        obtain ⟨waiting,done⟩ := Bool.and_eq_true_iff.mp eligible
        exact showing.arrange (LoadSound.query showing here (Option.isNone_iff_eq_none.mp waiting) done)
      · exact showing

/-- A finished query changes nothing but the session of the client it was run for. -/
theorem Host.finishSelect_load (minted : host.connections.Minted) {slot : Int} {load : Load} {rows : List Row}
    (here : host.loads.lookup slot = some load) (ran : load.rows = some rows) (connected : Connected host slot load)
    (player : isPlayer load.steamId) :
    host.finishSelect slot false = { host with
      loads := host.loads.erase slot
      applied := host.applied.insert (slot,load.token) rows
      sessions := host.sessions.insert (slot,load.token)
        { host.sessionOf slot load.token load.steamId with
          cookies := (host.sessionOf slot load.token load.steamId).cookies.load rows } } := by
  obtain ⟨alive,known⟩ :=
    @Host.sessionOp_live { host with loads := host.loads.erase slot } minted slot load.token load.steamId player connected
  have valid : host.valid slot load = true := by
    simp [Host.valid,LiveTable.isLive,LiveTable.idOf,show host.connections.entries slot = _ from connected]
  have valid' : Host.valid { host with loads := host.loads.erase slot } slot load = true := valid
  simp only [Host.finishSelect,here,ran,valid',Bool.not_true,Bool.or_false,Bool.false_eq_true,if_false]
  simp only [Host.sessionOp,alive,known,Bool.false_eq_true,if_false]
  rfl

theorem Showing.finishSelect (showing : Showing initial host) (slot : Int) (failed : Bool) :
    Showing initial (host.finishSelect slot failed) := by
  cases here : host.loads.lookup slot with
  | none =>
    rw [Host.finishSelect,here]
    exact showing
  | some load =>
    cases ran : load.rows with
    | none =>
      simp only [Host.finishSelect,here,ran]
      exact showing
    | some rows =>
      by_cases dropped : failed || !host.valid slot load
      · have same : host.finishSelect slot failed = { host with loads := host.loads.erase slot } := by
          simp only [Host.finishSelect,here,ran]
          exact if_pos dropped
        exact same ▸ showing.forget slot
      · have both : failed = false ∧ host.valid slot load = true := by simpa using dropped
        obtain ⟨rfl,valid⟩ := both
        have sound := showing.loading slot load here
        have connected : Connected host slot load := by
          simp only [Host.valid,LiveTable.isLive,LiveTable.idOf,beq_iff_eq,Option.map_eq_some_iff] at valid
          obtain ⟨⟨token,account⟩,there,rfl⟩ := valid
          rw [Connected,← sound.account account there]
          exact there
        by_cases player : isPlayer load.steamId
        · rw [Host.finishSelect_load showing.minted here ran connected player]
          exact showing.load here ran connected player
        · have same : host.finishSelect slot false = { host with loads := host.loads.erase slot } := by
            have valid' : Host.valid { host with loads := host.loads.erase slot } slot load = true := valid
            simp only [Host.finishSelect,here,ran,valid',Bool.not_true,Bool.or_false,Bool.false_eq_true,if_false]
            rw [Host.sessionOp_dead (by simp [player])]
          exact same ▸ showing.forget slot

/-- Whatever an acknowledgement evicts was the last thing the outbox held for its key. -/
theorem Host.evicts_settled {owner : WriterOwner} {id : Nat} {revision : Int}
    {success : Bool} {now : Nat} {store : Persistence}
    (stepped : host.store.advance (.outbox (.ack owner id revision success now)) = some store) {key : CookieKey}
    (evicted : host.evicts (.ack owner id revision success now) = some key) : key ∉ store.run.box.entries := by
  simp only [Host.evicts] at evicted
  split at evicted
  · next reports =>
    rw [Persistence.advance,if_pos reports] at stepped
    obtain ⟨run,ran,rfl⟩ := Option.map_eq_some_iff.mp stepped
    obtain ⟨out,acked,rfl⟩ := Option.map_eq_some_iff.mp ran
    rw [acked,Option.bind_some] at evicted
    cases found : host.store.run.box.leased owner id revision with
    | none =>
      simp only [Outbox.ack,found,Option.some.injEq] at acked
      rw [← acked] at evicted
      cases evicted
    | some other =>
      obtain ⟨p,a,here,leased,_⟩ := Outbox.leased_some found
      obtain ⟨after,answer,step⟩ := Outbox.ack_known found here leased success now
      obtain rfl := Option.some.inj (answer.symm.trans acked)
      obtain ⟨last,same⟩ := Option.ite_none_right_eq_some.mp evicted
      obtain rfl := Option.some.inj same
      change other ∉ after.entries
      rw [step.entries,if_pos (Bool.and_eq_true_iff.mp last).2]
      simp [AList.mem_erase]
  · cases evicted

theorem Showing.ack (showing : Showing initial host) (owner : WriterOwner) (id : Nat) (revision : Int) (success : Bool)
    (now : Nat) (read : host.readBefore (.ack owner id revision success now)) :
    ∃ after, host.advance (.ack owner id revision success now) = some after ∧ Showing initial after := by
  obtain ⟨store,stepped,_,still⟩ := showing.advanceStore (.outbox (.ack owner id revision success now))
    fun after step => Quiet.outbox (by simp) step
  refine ⟨_,by simp only [Host.advance,Host.advanceStore,stepped,Option.map_some]; rfl,?_⟩
  cases evicted : host.evicts (.ack owner id revision success now) with
  | none => exact still
  | some key =>
    have gone := Host.evicts_settled stepped evicted
    refine still.evict (fun w last same => ?_) fun e cached slot load rows here ran connected account unseen => ?_
    rotate_left
    · by_contra other
      rw [(host.readBefore_eq_false _).mpr ⟨key,e,slot,load,rows,evicted,cached,here,ran,connected,account,unseen,other⟩] at read
      exact nomatch read
    refine still.converging.sound.keeps.settled_of_empty last.1 ?_
    rw [same,pieces,heldAt,AList.lookup_eq_none.mpr gone]
    rfl

theorem Showing.advance (showing : Showing initial host) (event : Event) (read : host.readBefore event) :
    ∃ after, host.advance event = some after ∧ Showing initial after := by
  cases event with
  | connect slot account =>
    by_cases barred : slot < 0 || 64 ≤ slot || host.elsewhere slot account
    · exact ⟨host,if_pos barred,showing⟩
    · refine ⟨_,if_neg barred,?_⟩
      simp only [Bool.or_eq_true,decide_eq_true_eq,not_or,Bool.not_eq_true] at barred
      obtain ⟨⟨low,high⟩,alone⟩ := barred
      exact showing.begin ⟨by omega,by omega⟩ alone
  | disconnect slot => exact ⟨_,rfl,(showing.endSlot slot).1⟩
  | session slot token op =>
    cases connected : host.connections.entries slot with
    | none => exact ⟨host,by cases op <;> simp [Host.advance,connected],showing⟩
    | some c =>
      cases op with
      | load rows => exact ⟨host,rfl,showing⟩
      | _ => exact ⟨_,by simp only [Host.advance,connected]; rfl,showing.sessionOp connected (by simp)⟩
  | setAuthid account name value updated => exact ⟨_,rfl,showing.setAuthid account name value updated⟩
  | loadCookies slot =>
    refine ⟨_,rfl,?_⟩
    rw [Host.loadCookies]
    split
    · exact showing
    · next token account connected =>
      split
      · exact showing
      · exact showing.arrange (.begin showing connected)
  | startSelect slot => exact ⟨_,rfl,showing.startSelect slot⟩
  | finishSelect slot failed => exact ⟨_,rfl,showing.finishSelect slot failed⟩
  | lease owner maxItems maxBytes now =>
    obtain ⟨store,stepped,_,still⟩ := showing.advanceStore (.outbox (.lease owner maxItems maxBytes now))
      fun after step => Quiet.outbox (by simp) step
    exact ⟨_,by rw [Host.advance,Host.advanceStore,stepped]; rfl,still⟩
  | execute id =>
    obtain ⟨store,stepped,_,still⟩ := showing.advanceStore (.execute id)
      fun after step => Quiet.execute showing.converging step
    exact ⟨_,by rw [Host.advance,Host.advanceStore,stepped]; rfl,still⟩
  | ack owner id revision success now => exact showing.ack owner id revision success now read
  | reclaim owner =>
    obtain ⟨store,stepped,_,still⟩ := showing.advanceStore (.outbox (.reclaim owner))
      fun after step => Quiet.outbox (by simp) step
    exact ⟨_,by rw [Host.advance,Host.advanceStore,stepped]; rfl,still⟩

theorem Showing.execute (events : List Event) : ∀ {host : Host}, Showing initial host → Host.careful events host →
    ∃ after, host.execute events = some after ∧ Showing initial after := by
  induction events with
  | nil => exact fun showing _ => ⟨_,rfl,showing⟩
  | cons event rest ih =>
    intro host showing careful
    obtain ⟨read,later⟩ := Bool.and_eq_true_iff.mp careful
    obtain ⟨mid,stepped,still⟩ := showing.advance event read
    rw [stepped,Option.all_some] at later
    obtain ⟨after,ran,kept⟩ := ih still later
    exact ⟨after,by rw [Host.execute,stepped,Option.bind_some,ran],kept⟩

theorem Showing.start (policy : OutboxPolicy) (epoch : String)
    (foreign : ∀ key row, initial.lookup key = some row → row.writerEpoch ≠ some epoch) :
    Showing initial (Host.start policy epoch initial) where
  converging := Converging.start policy epoch foreign
  players _ member := nomatch member
  untouched _ _ := rfl
  minted := LiveTable.Minted.new
  slots _ _ here := nomatch here
  single _ _ _ _ _ _ here := nomatch here
  live _ _ _ here := nomatch here
  cached _ _ _ here := nomatch here
  authored _ _ _ _ _ here := nomatch here
  loaded _ _ _ _ _ here := nomatch here
  loading _ _ here := nomatch here
  applied_lt _ _ member := absurd member (AList.notMem_empty _)
  present _ _ _ member := absurd member (AList.notMem_empty _)
  shown _ _ _ member := absurd member (AList.notMem_empty _)
  stored _ _ _ _ here := nomatch here

theorem Host.get_reply (minted : host.connections.Minted) {slot : Int} {token : Nat} {account : String}
    (player : isPlayer account) (connected : host.connections.entries slot = some (token,account)) (name : String) :
    (host.sessionOp slot token account (.get name)).2 =
      (((host.view slot token account).lookup name).map fun e => Reply.text e.value).getD .null := by
  obtain ⟨alive,known⟩ := Host.sessionOp_live minted player connected
  simp only [Host.sessionOp,alive,known,Bool.false_eq_true,if_false]
  rfl

theorem Showing.showsLatest (showing : Showing initial host) : ShowsLatest host := by
  intro slot token account rows name connected applied
  have loaded := Table.mem_of_lookup applied
  obtain ⟨session,here⟩ := Table.lookup_of_mem (showing.present slot token account loaded connected)
  obtain ⟨player,there⟩ := showing.live slot token session here
  rw [connected] at there
  obtain ⟨_,rfl⟩ := Prod.mk.inj (Option.some.inj there)
  rw [Host.get_reply showing.minted player connected]
  constructor
  · rintro w last same
    have shown := showing.shown slot token session.steamId loaded connected w last (congrArg Prod.fst same)
    rw [congrArg Prod.snd same] at shown
    obtain ⟨e,found,value⟩ := Option.map_eq_some_iff.mp shown
    simp only [found,Option.map_some,Option.getD_some,value]
  · intro unwritten
    have stored := congrArg (Option.map Reply.text) (showing.stored slot token session.steamId rows applied connected name unwritten)
    rw [Option.map_map,Option.map_map] at stored
    exact congrArg (fun reply => Option.getD reply .null) stored

/-- The condition is exact: when the query's client takes its rows after such an eviction, it
shows another value than the newest accepted one. -/
theorem missed_value_is_lost (showing : Showing initial host) {event : Event} (unread : host.readBefore event = false) :
    ∃ slot after final, host.advance event = some after ∧ after.advance (.finishSelect slot false) = some final ∧
      ¬ShowsLatest final := by
  obtain ⟨key,e,slot,load,rows,evicted,missed⟩ := (host.readBefore_eq_false event).mp unread
  obtain ⟨w,last,named,value⟩ := (showing.cached key.1 key.2 e missed.cached).2
  obtain rfl : w.key = key := named
  cases event with
  | ack owner id revision success now =>
    obtain ⟨store,stepped,quiet,_⟩ := showing.advanceStore (.outbox (.ack owner id revision success now))
      fun after step => Quiet.outbox (by simp) step
    let after : Host := { host with store := store, cache := cacheEvict host.cache w.key }
    have moved : host.advance (.ack owner id revision success now) = some after := by
      simp only [Host.advance,Host.advanceStore,stepped,evicted,Option.map_some,Option.getD_some]
      rfl
    have player : isPlayer load.steamId := missed.account ▸ showing.players w last.1
    have loaded := @Host.finishSelect_load after showing.minted slot load rows missed.loading missed.ran missed.connected player
    refine ⟨slot,after,_,moved,rfl,fun shows => missed.other ?_⟩
    have same : w.key = (load.steamId,w.key.2) := key_of_account missed.account.symm
    have newest := (shows slot load.token load.steamId rows w.key.2 (loaded ▸ missed.connected)
      (loaded ▸ AList.lookup_insert _)).1 w (loaded ▸ (last_congr quiet.writes).mpr last) same
    rw [Host.get_reply (loaded ▸ showing.minted) player (loaded ▸ missed.connected),loaded,
      Host.view_of_session (AList.lookup_insert _)] at newest
    have empty : (after.sessionOf slot load.token load.steamId).cookies.entries.lookup w.key.2 = none := by
      have view := @Host.view_of_none after slot load.token (AList.lookup_eq_none.mpr missed.unseen) load.steamId
      rw [Host.view] at view
      rw [view,lookup_cacheEvict,if_pos same.symm]
    rw [lookup_load ((showing.loading slot load missed.loading).names rows missed.ran),empty] at newest
    cases row : rowOf rows w.key.2 with
    | none => simp [row] at newest
    | some r =>
      simp only [row,Option.any_none,Bool.false_eq_true,if_false,Option.map_some,Option.some_or,Option.getD_some,
        Reply.text.injEq] at newest
      rw [Option.map_some,← value,← newest]
      rfl
  | _ => simp [Host.evicts] at evicted

end Steps

/-- Limits under which the examples run. -/
def smallPolicy : OutboxPolicy := { versions := 8, bytes := 4096, writeBytes := 1024, bytes_bound := by decide }

/-- A value an earlier process stored. -/
def storedBefore : Database := (∅ : Database).insert ("A","k") ⟨"old",1,none,0⟩

/-- An offline write is accepted and stored while the query of a connecting client is in
flight; acknowledging it evicts it before the client has a session. -/
def overtaken : List Event := [.connect 3 "A",.loadCookies 3,.startSelect 3,.setAuthid "A" "k" "new" 2,
  .lease ("writer",1) 4 4096 0,.execute 1,.ack ("writer",1) 1 1 true 0,.finishSelect 3 false]

/-- The loaded session shows the overwritten value. -/
theorem overtaken_load_shows_old :
    ∃ host, (Host.start smallPolicy "epoch" storedBefore).execute overtaken = some host ∧ ¬ShowsLatest host := by
  have facts : ((Host.start smallPolicy "epoch" storedBefore).execute overtaken).any (fun host =>
      host.connections.entries 3 == some (1,"A") && host.applied.lookup (3,1) == some [⟨"k","old",1⟩] &&
        host.ledger.writes == [⟨("A","k"),("new",2),1⟩] && (host.sessionOp 3 1 "A" (.get "k")).2 == .text "old") = true := by
    decide +kernel
  obtain ⟨host,ran,facts⟩ := (Option.any_eq_true _ _).mp facts
  simp only [Bool.and_eq_true,beq_iff_eq] at facts
  obtain ⟨⟨⟨connected,applied⟩,writes⟩,reply⟩ := facts
  refine ⟨host,ran,fun shows => ?_⟩
  have last : host.ledger.Last ⟨("A","k"),("new",2),1⟩ := by
    rw [Ledger.Last,writes]
    exact ⟨List.mem_singleton.mpr rfl,fun v member _ => by rw [List.mem_singleton.mp member]⟩
  have newest := (shows 3 1 "A" _ "k" connected applied).1 _ last rfl
  rw [reply] at newest
  exact absurd newest (by decide)

/-- In every run whose acknowledgements evict only what the queries in flight have read, a
loaded session shows the newest accepted value. -/
theorem loaded_sessions_show_latest (policy : OutboxPolicy) (epoch : String) (rows : Database)
    (foreign : ∀ key row, rows.lookup key = some row → row.writerEpoch ≠ some epoch) (events : List Event)
    (careful : Host.careful events (Host.start policy epoch rows)) :
    ∃ host, (Host.start policy epoch rows).execute events = some host ∧ ShowsLatest host := by
  obtain ⟨host,ran,showing⟩ := (Showing.start policy epoch foreign).execute events careful
  exact ⟨host,ran,showing.showsLatest⟩

/-- The load is applied before the overtaking write is acknowledged. -/
theorem loaded_sessions_show_latest_in_order :
    let events : List Event := [.connect 3 "A",.loadCookies 3,.startSelect 3,.setAuthid "A" "k" "new" 2,
      .lease ("writer",1) 4 4096 0,.execute 1,.finishSelect 3 false,.ack ("writer",1) 1 1 true 0]
    ∃ host, (Host.start smallPolicy "epoch" storedBefore).execute events = some host ∧ ShowsLatest host := by
  refine loaded_sessions_show_latest smallPolicy "epoch" storedBefore (fun key row here => ?_) _ (by decide +kernel)
  rw [storedBefore,Table.lookup_insert_eq] at here
  split at here
  · rw [← Option.some.inj here]
    exact fun own => nomatch own
  · exact nomatch here

end S2Script.Cookies
