import S2Script.CookieSessionsViews

/-! Every event keeps the sessions in line with the newest accepted writes, as long as no
acknowledgement evicts a value that a query in flight has missed. -/
namespace S2Script.Cookies

open WriteBehind Liveness

/-- A load whose client is still the one it was started for. -/
def Connected (host : Host) (slot : Int) (load : Load) : Prop :=
  host.connections.entries slot = some (load.token,load.steamId)

/-- What a load knows: a waiting one misses no write beyond its fence, and one whose query
ran has read every newest value that no session or cache entry carries. -/
structure LoadSound (initial : Database) (host : Host) (slot : Int) (load : Load) : Prop where
  token_lt : load.token < host.connections.nextId
  account : ∀ account, host.connections.entries slot = some (load.token,account) → account = load.steamId
  waiting : load.rows = none → Connected host slot load → ∀ w, host.ledger.Last w → w.key.1 = load.steamId →
    load.fence < w.revision → host.ledger.Settled w.key w.revision ∨ host.Authored slot load.token load.steamId w.key.2
  names : ∀ rows, load.rows = some rows → rows.Pairwise fun row other => row.name ≠ other.name
  unwritten : ∀ rows, load.rows = some rows → ∀ name, Unwritten host.ledger (load.steamId,name) →
    (rowOf rows name).map Row.value = (initial.lookup (load.steamId,name)).map Stored.value
  read : ∀ rows, load.rows = some rows → Connected host slot load → ∀ w, host.ledger.Last w → w.key.1 = load.steamId →
    host.Authored slot load.token load.steamId w.key.2 ∨ (rowOf rows w.key.2).map Row.value = some w.value.1

/-- What every careful run keeps. -/
structure Showing (initial : Database) (host : Host) : Prop where
  converging : Converging host.store
  players : ∀ w ∈ host.ledger.writes, isPlayer w.key.1
  untouched : ∀ key, Unwritten host.ledger key → host.store.rows.lookup key = initial.lookup key
  minted : host.connections.Minted
  slots : ∀ slot connection, host.connections.entries slot = some connection → 0 ≤ slot ∧ slot < 64
  single : ∀ slot other token id account, isPlayer account → host.connections.entries slot = some (token,account) →
    host.connections.entries other = some (id,account) → slot = other
  live : ∀ slot token session, host.sessions.lookup (slot,token) = some session →
    isPlayer session.steamId ∧ host.connections.entries slot = some (token,session.steamId)
  cached : ∀ account name e, ((host.cache.lookup account).getD {}).entries.lookup name = some e →
    e.dirty ∧ Newest host.ledger (account,name) e.value
  authored : ∀ slot token account name e, host.connections.entries slot = some (token,account) →
    (host.view slot token account).lookup name = some e → e.dirty → Newest host.ledger (account,name) e.value
  loaded : ∀ slot token account name e, host.connections.entries slot = some (token,account) →
    (host.view slot token account).lookup name = some e → e.dirty = false → Unwritten host.ledger (account,name) →
    (initial.lookup (account,name)).map Stored.value = some e.value
  loading : ∀ slot load, host.loads.lookup slot = some load → LoadSound initial host slot load
  applied_lt : ∀ slot token, (slot,token) ∈ host.applied → token < host.connections.nextId
  present : ∀ slot token account, (slot,token) ∈ host.applied → host.connections.entries slot = some (token,account) →
    (slot,token) ∈ host.sessions
  shown : ∀ slot token account, (slot,token) ∈ host.applied → host.connections.entries slot = some (token,account) →
    ∀ w, host.ledger.Last w → w.key.1 = account →
    ((host.view slot token account).lookup w.key.2).map Entry.value = some w.value.1
  stored : ∀ slot token account rows, host.applied.lookup (slot,token) = some rows →
    host.connections.entries slot = some (token,account) → ∀ name, Unwritten host.ledger (account,name) →
    ((host.view slot token account).lookup name).map Entry.value = (rowOf rows name).map Row.value

theorem key_of_account {key : CookieKey} {account : String} (same : key.1 = account) : key = (account,key.2) :=
  Prod.ext same rfl

section Steps

variable {initial : Database} {host after : Host}

theorem Host.token_lt (showing : Showing initial host) {slot : Int} {token : Nat} {account : String}
    (here : host.connections.entries slot = some (token,account)) : token < host.connections.nextId := by
  have live : host.connections.idOf slot = some token := by rw [LiveTable.idOf,here]; rfl
  exact (showing.minted.minted live).2

/-- The stored value of a key whose newest write is settled. -/
theorem Converging.settled_value {sys : Persistence} (converging : Converging sys) {w : Write CookieKey (String × Int)}
    (last : sys.run.ledger.Last w) (settled : sys.run.ledger.Settled w.key w.revision) :
    (sys.rows.lookup w.key).map Stored.value = some w.value.1 := by
  have cell := converging.follows.converged converging.sound.keeps last settled
  obtain ⟨row,found,own⟩ := Option.bind_eq_some_iff.mp cell
  obtain ⟨_,equal⟩ := Option.ite_none_right_eq_some.mp own
  have same : (row.value,row.updated) = w.value := congrArg Cell.value (Option.some.inj equal)
  rw [found,← same]
  rfl

theorem last_congr {ledger other : Ledger CookieKey (String × Int)} (same : other.writes = ledger.writes)
    {w : Write CookieKey (String × Int)} : other.Last w ↔ ledger.Last w := by
  rw [Ledger.Last,Ledger.Last,same]

theorem newest_congr {ledger other : Ledger CookieKey (String × Int)} (same : other.writes = ledger.writes)
    {key : CookieKey} {value : String} : Newest other key value ↔ Newest ledger key value := by
  simp only [Newest,last_congr same]

theorem unwritten_congr {ledger other : Ledger CookieKey (String × Int)} (same : other.writes = ledger.writes)
    {key : CookieKey} : Unwritten other key ↔ Unwritten ledger key := by
  rw [Unwritten,Unwritten,same]

/-- A step of the outbox that accepts nothing. -/
theorem Showing.store (showing : Showing initial host) {store : Persistence} (converging : Converging store)
    (writes : store.run.ledger.writes = host.ledger.writes)
    (settled : ∀ key revision, host.ledger.Settled key revision → store.run.ledger.Settled key revision)
    (untouched : ∀ key, Unwritten host.ledger key → store.rows.lookup key = host.store.rows.lookup key) :
    Showing initial { host with store := store } where
  converging := converging
  players := fun w member => showing.players w (writes ▸ member)
  untouched key unwritten :=
    have before := (unwritten_congr writes).mp unwritten
    (untouched key before).trans (showing.untouched key before)
  minted := showing.minted
  slots := showing.slots
  single := showing.single
  live := showing.live
  cached account name e here := (showing.cached account name e here).imp_right (newest_congr writes).mpr
  authored slot token account name e connected here dirty :=
    (newest_congr writes).mpr (showing.authored slot token account name e connected here dirty)
  loaded slot token account name e connected here clean unwritten :=
    showing.loaded slot token account name e connected here clean ((unwritten_congr writes).mp unwritten)
  loading slot load here :=
    have sound := showing.loading slot load here
    { token_lt := sound.token_lt
      account := sound.account
      waiting := fun waiting connected w last same later =>
        (sound.waiting waiting connected w ((last_congr writes).mp last) same later).imp_left (settled _ _)
      names := sound.names
      unwritten := fun rows ran name unwritten => sound.unwritten rows ran name ((unwritten_congr writes).mp unwritten)
      read := fun rows ran connected w last same => sound.read rows ran connected w ((last_congr writes).mp last) same }
  applied_lt := showing.applied_lt
  present := showing.present
  shown slot token account applied connected w last same :=
    showing.shown slot token account applied connected w ((last_congr writes).mp last) same
  stored slot token account rows applied connected name unwritten :=
    showing.stored slot token account rows applied connected name ((unwritten_congr writes).mp unwritten)

/-- A connection's session is its account's. -/
theorem Showing.owner (showing : Showing initial host) {slot : Int} {token : Nat} {account : String}
    (connected : host.connections.entries slot = some (token,account)) :
    (host.sessionOf slot token account).steamId = account := by
  cases here : host.sessions.lookup (slot,token) with
  | none => simp [Host.sessionOf,here]
  | some session =>
    have := (showing.live slot token session here).2
    rw [connected] at this
    simp only [Host.sessionOf,here,Option.getD_some]
    exact (Prod.mk.inj (Option.some.inj this)).2.symm

/-- An operation that only makes the session it looks at. -/
theorem Showing.touch (showing : Showing initial host) {slot : Int} {token : Nat} {account : String}
    (player : isPlayer account) (connected : host.connections.entries slot = some (token,account)) :
    Showing initial (host.putSession slot token (host.sessionOf slot token account)) := by
  have view : ∀ other id sid, host.connections.entries other = some (id,sid) →
      (host.putSession slot token (host.sessionOf slot token account)).view other id sid = host.view other id sid := by
    intro other id sid there
    rw [Host.view_putSession]
    split
    · next same =>
      obtain ⟨rfl,rfl⟩ := Prod.mk.inj same
      rw [connected] at there
      obtain ⟨_,rfl⟩ := Prod.mk.inj (Option.some.inj there)
      rfl
    · rfl
  have authored : ∀ {other load name}, Connected host other load →
      (host.Authored other load.token load.steamId name ↔
        (host.putSession slot token (host.sessionOf slot token account)).Authored other load.token load.steamId name) := by
    intro other load name there
    rw [Host.Authored,Host.Authored,view other load.token load.steamId there]
  constructor
  · exact showing.converging
  · exact showing.players
  · exact showing.untouched
  · exact showing.minted
  · exact showing.slots
  · exact showing.single
  · intro other id session here
    rw [Host.putSession,Table.lookup_insert_eq] at here
    split at here
    · next same =>
      obtain ⟨rfl,rfl⟩ := Prod.mk.inj same
      obtain rfl := Option.some.inj here
      rw [showing.owner connected]
      exact ⟨player,connected⟩
    · exact showing.live other id session here
  · exact showing.cached
  · intro other id sid name e there here
    rw [view other id sid there] at here
    exact showing.authored other id sid name e there here
  · intro other id sid name e there here
    rw [view other id sid there] at here
    exact showing.loaded other id sid name e there here
  · intro other load here
    have sound := showing.loading other load here
    exact
      { token_lt := sound.token_lt
        account := sound.account
        waiting := fun waiting there w last same later =>
          (sound.waiting waiting there w last same later).imp_right (authored there).mp
        names := sound.names
        unwritten := sound.unwritten
        read := fun rows ran there w last same => (sound.read rows ran there w last same).imp_left (authored there).mp }
  · exact showing.applied_lt
  · exact fun other id sid applied there => (AList.mem_insert _).mpr (.inr (showing.present other id sid applied there))
  · intro other id sid applied there
    rw [view other id sid there]
    exact showing.shown other id sid applied there
  · intro other id sid rows applied there
    rw [view other id sid there]
    exact showing.stored other id sid rows applied there

/-- An accepted write reaches every place that shows the account. -/
theorem Showing.written (showing : Showing initial host) {sid name value : String} {updated : Int}
    (admits : host.store.run.box.refuses sid name value = false)
    (store : after.store = { host.store with run := host.store.run.offered sid name value updated })
    (connections : after.connections = host.connections) (loads : after.loads = host.loads)
    (applied : after.applied = host.applied)
    (cached : ∀ account n e, ((after.cache.lookup account).getD {}).entries.lookup n = some e →
      (account,n) = (sid,name) ∧ e = ⟨value,true,updated⟩ ∨
        (account,n) ≠ (sid,name) ∧ ((host.cache.lookup account).getD {}).entries.lookup n = some e)
    (live : ∀ slot token session, after.sessions.lookup (slot,token) = some session →
      isPlayer session.steamId ∧ host.connections.entries slot = some (token,session.steamId))
    (kept : ∀ key, key ∈ host.sessions → key ∈ after.sessions)
    (view : ∀ slot token account, host.connections.entries slot = some (token,account) → ∀ n,
      (after.view slot token account).lookup n =
        if (account,n) = (sid,name) then some ⟨value,true,updated⟩ else (host.view slot token account).lookup n) :
    Showing initial after := by
  have accepted := Outbox.accept_admitted admits updated
  let w : Write CookieKey (String × Int) := ⟨(sid,name),(value,updated),(host.store.run.box.accept sid name value updated).1.revision⟩
  have ledger : after.ledger = host.ledger.accept w := by
    rw [Host.ledger,store]
    simp only [Run.offered,accepted,if_true]
    rfl
  have revision : w.revision = host.store.run.box.revision + 1 := by
    simp only [w,Outbox.accept,admits,Bool.false_eq_true,if_false]
  have above : ∀ v ∈ host.ledger.writes, v.revision < w.revision := fun v member => by
    have := showing.converging.sound.newest v member
    omega
  have converging : Converging after.store := by
    have step := showing.converging.outbox (.accept sid name value updated) rfl rfl
    simp only [Run.admitted,List.append_nil] at step
    rw [store]
    exact step
  -- what the write does not name is shown as before
  have other : ∀ {slot token account n}, host.connections.entries slot = some (token,account) → (account,n) ≠ w.key →
      (after.view slot token account).lookup n = (host.view slot token account).lookup n :=
    fun connected apart => (view _ _ _ connected _).trans (if_neg apart)
  have authored : ∀ {slot token account n}, host.connections.entries slot = some (token,account) →
      host.Authored slot token account n → after.Authored slot token account n := by
    rintro slot token account n connected ⟨e,here,dirty⟩
    by_cases same : (account,n) = (sid,name)
    · exact ⟨_,(view _ _ _ connected n).trans (if_pos same),rfl⟩
    · exact ⟨e,(other connected same).trans here,dirty⟩
  have written : ∀ {slot token account}, host.connections.entries slot = some (token,account) → w.key.1 = account →
      (after.view slot token account).lookup w.key.2 = some ⟨value,true,updated⟩ := by
    rintro slot token _ connected rfl
    exact (view _ _ _ connected _).trans (if_pos rfl)
  constructor
  · exact converging
  · intro v member
    rw [ledger] at member
    rcases List.mem_append.mp member with old | new
    · exact showing.players v old
    · rw [List.mem_singleton.mp new]
      exact Outbox.admitted_player admits
  · intro key unwritten
    rw [ledger,unwritten_accept] at unwritten
    rw [store]
    exact showing.untouched key unwritten.2
  · exact connections ▸ showing.minted
  · exact connections ▸ showing.slots
  · exact connections ▸ showing.single
  · exact fun slot token session here => connections ▸ live slot token session here
  · intro account n e here
    rw [ledger]
    rcases cached account n e here with ⟨same,rfl⟩ | ⟨apart,old⟩
    · exact ⟨rfl,same ▸ newest_accept above⟩
    · exact (showing.cached account n e old).imp_right fun newest => newest.accept above apart
  · intro slot token account n e connected here dirty
    rw [connections] at connected
    rw [ledger]
    by_cases same : (account,n) = (sid,name)
    · rw [view slot token account connected n,if_pos same] at here
      obtain rfl := Option.some.inj here
      exact same ▸ newest_accept above
    · rw [other connected same] at here
      exact (showing.authored slot token account n e connected here dirty).accept above same
  · intro slot token account n e connected here clean unwritten
    rw [connections] at connected
    rw [ledger,unwritten_accept] at unwritten
    rw [other connected unwritten.1] at here
    exact showing.loaded slot token account n e connected here clean unwritten.2
  · intro slot load here
    rw [loads] at here
    have sound := showing.loading slot load here
    constructor
    · exact connections ▸ sound.token_lt
    · exact connections ▸ sound.account
    · intro waiting connected v last same later
      rw [Connected,connections] at connected
      rw [ledger] at last ⊢
      rcases (last_accept above).mp last with rfl | ⟨apart,old⟩
      · exact .inr ⟨_,written connected same,rfl⟩
      · exact (sound.waiting waiting connected v old same later).imp_right (authored connected)
    · exact sound.names
    · intro rows ran n unwritten
      rw [ledger,unwritten_accept] at unwritten
      exact sound.unwritten rows ran n unwritten.2
    · intro rows ran connected v last same
      rw [Connected,connections] at connected
      rw [ledger] at last
      rcases (last_accept above).mp last with rfl | ⟨apart,old⟩
      · exact .inl ⟨_,written connected same,rfl⟩
      · exact (sound.read rows ran connected v old same).imp_left (authored connected)
  · exact applied ▸ connections ▸ showing.applied_lt
  · intro slot token account loaded connected
    exact kept _ (showing.present slot token account (applied ▸ loaded) (connections ▸ connected))
  · intro slot token account loaded connected v last same
    rw [connections] at connected
    rw [ledger] at last
    rcases (last_accept above).mp last with rfl | ⟨apart,old⟩
    · rw [written connected same]
      rfl
    · rw [other connected fun equal => apart ((key_of_account same).trans equal)]
      exact showing.shown slot token account (applied ▸ loaded) connected v old same
  · intro slot token account rows loaded connected n unwritten
    rw [connections] at connected
    rw [ledger,unwritten_accept] at unwritten
    rw [other connected unwritten.1]
    exact showing.stored slot token account rows (applied ▸ loaded) connected n unwritten.2

/-- Evicting a settled value that no query in flight has missed. -/
theorem Showing.evict (showing : Showing initial host) {key : CookieKey}
    (settled : ∀ w, host.ledger.Last w → w.key = key → host.ledger.Settled w.key w.revision)
    (read : ∀ e, ((host.cache.lookup key.1).getD {}).entries.lookup key.2 = some e → ∀ slot load rows,
      host.loads.lookup slot = some load → load.rows = some rows → Connected host slot load → load.steamId = key.1 →
      (slot,load.token) ∉ host.sessions → (rowOf rows key.2).map Row.value = some e.value) :
    Showing initial { host with cache := cacheEvict host.cache key } := by
  let after : Host := { host with cache := cacheEvict host.cache key }
  have view : ∀ slot token account n, (after.view slot token account).lookup n =
      if (slot,token) ∉ host.sessions ∧ (account,n) = key then none else (host.view slot token account).lookup n := by
    intro slot token account n
    cases here : host.sessions.lookup (slot,token) with
    | some session =>
      have same : after.view slot token account = host.view slot token account := by
        rw [Host.view_of_session here account]
        exact @Host.view_of_session after _ _ _ here account
      rw [same,if_neg fun both => both.1 (Table.mem_of_lookup here)]
    | none =>
      have before := Host.view_of_none here account
      have later : after.view slot token account = ((cacheEvict host.cache key).lookup account |>.getD {}).entries :=
        @Host.view_of_none after _ _ here account
      rw [later,before,lookup_cacheEvict]
      simp only [AList.lookup_eq_none.mp here,not_false_eq_true,true_and]
  have subset : ∀ {slot token account n e}, (after.view slot token account).lookup n = some e →
      (host.view slot token account).lookup n = some e := by
    intro slot token account n e here
    rw [view] at here
    split at here
    · exact nomatch here
    · exact here
  have same : ∀ {slot token}, (slot,token) ∈ host.sessions → ∀ account n,
      (after.view slot token account).lookup n = (host.view slot token account).lookup n :=
    fun present account n => (view _ _ account n).trans (if_neg fun both => both.1 present)
  -- what a connection no longer sees was a cached value of the evicted key
  have lost : ∀ {slot token account n}, host.Authored slot token account n →
      after.Authored slot token account n ∨ (slot,token) ∉ host.sessions ∧ (account,n) = key ∧
        ∃ e, ((host.cache.lookup account).getD {}).entries.lookup n = some e := by
    rintro slot token account n ⟨e,here,dirty⟩
    by_cases gone : (slot,token) ∉ host.sessions ∧ (account,n) = key
    · rw [Host.view_of_none (AList.lookup_eq_none.mpr gone.1)] at here
      exact .inr ⟨gone.1,gone.2,e,here⟩
    · exact .inl ⟨e,(view _ _ _ _).trans ((if_neg gone).trans here),dirty⟩
  constructor
  · exact showing.converging
  · exact showing.players
  · exact showing.untouched
  · exact showing.minted
  · exact showing.slots
  · exact showing.single
  · exact showing.live
  · intro account name e here
    simp only [lookup_cacheEvict] at here
    split at here
    · exact nomatch here
    · exact showing.cached account name e here
  · exact fun slot token account name e connected here => showing.authored slot token account name e connected (subset here)
  · exact fun slot token account name e connected here => showing.loaded slot token account name e connected (subset here)
  · intro slot load here
    have sound := showing.loading slot load here
    constructor
    · exact sound.token_lt
    · exact sound.account
    · intro waiting connected w last account later
      rcases sound.waiting waiting connected w last account later with old | authored
      · exact .inl old
      · rcases lost authored with still | ⟨_,equal,_⟩
        · exact .inr still
        · exact .inl (settled w last ((key_of_account account).trans equal))
    · exact sound.names
    · exact sound.unwritten
    · intro rows ran connected w last account
      rcases sound.read rows ran connected w last account with authored | old
      · rcases lost authored with still | ⟨absent,equal,e,cached⟩
        · exact .inl still
        · subst equal
          have value := read e cached slot load rows here ran connected rfl absent
          have newest := (showing.cached _ _ e cached).2
          rw [← key_of_account account] at newest
          exact .inr (value.trans (congrArg some (newest.value_eq showing.converging.sound.keeps last)))
      · exact .inr old
  · exact showing.applied_lt
  · exact showing.present
  · intro slot token account applied connected w last equal
    rw [same (showing.present slot token account applied connected)]
    exact showing.shown slot token account applied connected w last equal
  · intro slot token account rows applied connected name unwritten
    rw [same (showing.present slot token account (Table.mem_of_lookup applied) connected)]
    exact showing.stored slot token account rows applied connected name unwritten

/-- A connection ends, and its session with it. -/
theorem Showing.leave (showing : Showing initial host) {slot : Int} {token : Nat} {account : String}
    (connected : host.connections.entries slot = some (token,account)) :
    Showing initial { host with connections := host.connections.remove slot, sessions := host.sessions.erase (slot,token) } := by
  let after : Host := { host with connections := host.connections.remove slot, sessions := host.sessions.erase (slot,token) }
  have entries : ∀ other, after.connections.entries other = if other = slot then none else host.connections.entries other :=
    fun other => Function.update_apply _ _ _ _
  have remains : ∀ {other c}, after.connections.entries other = some c → other ≠ slot ∧ host.connections.entries other = some c := by
    intro other c here
    rw [entries] at here
    split at here
    · cases here
    · next apart => exact ⟨apart,here⟩
  have sessions : ∀ other id, other ≠ slot → after.sessions.lookup (other,id) = host.sessions.lookup (other,id) :=
    fun other id apart => AList.lookup_erase_ne fun same => apart (Prod.mk.inj same).1
  have view : ∀ other id sid, other ≠ slot → after.view other id sid = host.view other id sid := by
    intro other id sid apart
    simp only [Host.view,Host.sessionOf,sessions other id apart]
    rfl
  constructor
  · exact showing.converging
  · exact showing.players
  · exact showing.untouched
  · exact showing.minted.evolves (.remove _ _)
  · exact fun other c here => showing.slots other c (remains here).2
  · exact fun one other id id' sid player here there =>
      showing.single one other id id' sid player (remains here).2 (remains there).2
  · intro other id session here
    have old : host.sessions.lookup (other,id) = some session := by
      rw [Table.lookup_erase_eq] at here
      split at here
      · cases here
      · exact here
    obtain ⟨player,there⟩ := showing.live other id session old
    refine ⟨player,(entries other).trans ((if_neg ?_).trans there)⟩
    rintro rfl
    rw [connected] at there
    obtain ⟨rfl,_⟩ := Prod.mk.inj (Option.some.inj there)
    rw [AList.lookup_erase] at here
    cases here
  · exact showing.cached
  · intro other id sid name e here
    rw [view other id sid (remains here).1]
    exact showing.authored other id sid name e (remains here).2
  · intro other id sid name e here
    rw [view other id sid (remains here).1]
    exact showing.loaded other id sid name e (remains here).2
  · intro other load here
    have sound := showing.loading other load here
    have authored : ∀ {name}, Connected after other load → host.Authored other load.token load.steamId name →
        after.Authored other load.token load.steamId name := by
      intro name there
      rw [Host.Authored,Host.Authored,view _ _ _ (remains there).1]
      exact id
    exact
      { token_lt := sound.token_lt
        account := fun sid there => sound.account sid (remains there).2
        waiting := fun waiting there w last same later =>
          (sound.waiting waiting (remains there).2 w last same later).imp_right (authored there)
        names := sound.names
        unwritten := sound.unwritten
        read := fun rows ran there w last same => (sound.read rows ran (remains there).2 w last same).imp_left (authored there) }
  · exact showing.applied_lt
  · intro other id sid applied here
    have present := showing.present other id sid applied (remains here).2
    exact AList.mem_erase.mpr ⟨fun same => (remains here).1 (Prod.mk.inj same).1,present⟩
  · intro other id sid applied here
    rw [view other id sid (remains here).1]
    exact showing.shown other id sid applied (remains here).2
  · intro other id sid rows applied here
    rw [view other id sid (remains here).1]
    exact showing.stored other id sid rows applied (remains here).2

/-- A new connection sees the account cache: nothing known of an earlier one is its own. -/
theorem Showing.join (showing : Showing initial host) {slot : Int} {account : String}
    (free : host.connections.entries slot = none) (inside : 0 ≤ slot ∧ slot < 64)
    (alone : isPlayer account → ∀ other token, host.connections.entries other ≠ some (token,account)) :
    Showing initial { host with connections := (host.connections.insert slot account).1 } := by
  let after : Host := { host with connections := (host.connections.insert slot account).1 }
  have entries : ∀ other, after.connections.entries other =
      if other = slot then some (host.connections.nextId,account) else host.connections.entries other :=
    fun other => Function.update_apply _ _ _ _
  have cases : ∀ {other id sid}, after.connections.entries other = some (id,sid) →
      other = slot ∧ id = host.connections.nextId ∧ sid = account ∨ other ≠ slot ∧ host.connections.entries other = some (id,sid) := by
    intro other id sid here
    rw [entries] at here
    split at here
    · next same =>
      obtain ⟨rfl,rfl⟩ := Prod.mk.inj (Option.some.inj here)
      exact .inl ⟨same,rfl,rfl⟩
    · next apart => exact .inr ⟨apart,here⟩
  have unseen : ∀ id, (slot,id) ∉ host.sessions := by
    intro id member
    obtain ⟨session,here⟩ := Table.lookup_of_mem member
    have := (showing.live slot id session here).2
    rw [free] at this
    exact nomatch this
  have fresh : ∀ {other : Int} {id : Nat} {sid}, id < host.connections.nextId → after.connections.entries other = some (id,sid) →
      host.connections.entries other = some (id,sid) := by
    intro other id sid old here
    rcases cases here with ⟨_,rfl,_⟩ | ⟨_,there⟩
    · exact absurd old (Nat.lt_irrefl _)
    · exact there
  constructor
  · exact showing.converging
  · exact showing.players
  · exact showing.untouched
  · exact showing.minted.evolves (.insert _ _ _)
  · intro other c here
    obtain ⟨id,sid⟩ := c
    rcases cases here with ⟨rfl,_⟩ | ⟨_,there⟩
    · exact inside
    · exact showing.slots other _ there
  · intro one other id id' sid player here there
    rcases cases here with ⟨same,_,own⟩ | ⟨_,old⟩
    · subst own
      rcases cases there with ⟨equal,_⟩ | ⟨_,old'⟩
      · exact same.trans equal.symm
      · exact absurd old' (alone player other id')
    · rcases cases there with ⟨_,_,own⟩ | ⟨_,old'⟩
      · subst own
        exact absurd old (alone player one id)
      · exact showing.single one other id id' sid player old old'
  · intro other id session here
    obtain ⟨player,there⟩ := showing.live other id session here
    refine ⟨player,(entries other).trans ((if_neg ?_).trans there)⟩
    rintro rfl
    exact unseen id (Table.mem_of_lookup here)
  · exact showing.cached
  · intro other id sid name e here seen dirty
    rcases cases here with ⟨rfl,rfl,rfl⟩ | ⟨_,there⟩
    · have seen := @Host.view_of_none host other _ (AList.lookup_eq_none.mpr (unseen _)) sid ▸ seen
      exact (showing.cached sid name e seen).2
    · exact showing.authored other id sid name e there seen dirty
  · intro other id sid name e here seen clean
    rcases cases here with ⟨rfl,rfl,rfl⟩ | ⟨_,there⟩
    · have seen := @Host.view_of_none host other _ (AList.lookup_eq_none.mpr (unseen _)) sid ▸ seen
      have dirty := (showing.cached sid name e seen).1
      rw [clean] at dirty
      exact nomatch dirty
    · exact showing.loaded other id sid name e there seen clean
  · intro other load here
    have sound := showing.loading other load here
    exact
      { token_lt := Nat.lt_succ_of_lt sound.token_lt
        account := fun sid there => sound.account sid (fresh sound.token_lt there)
        waiting := fun waiting there => sound.waiting waiting (fresh sound.token_lt there)
        names := sound.names
        unwritten := sound.unwritten
        read := fun rows ran there => sound.read rows ran (fresh sound.token_lt there) }
  · exact fun other id applied => Nat.lt_succ_of_lt (showing.applied_lt other id applied)
  · exact fun other id sid applied here =>
      showing.present other id sid applied (fresh (showing.applied_lt other id applied) here)
  · exact fun other id sid applied here =>
      showing.shown other id sid applied (fresh (showing.applied_lt other id applied) here)
  · exact fun other id sid rows applied here =>
      showing.stored other id sid rows applied (fresh (showing.applied_lt other id (Table.mem_of_lookup applied)) here)

/-- Loads may change as long as each is sound. -/
theorem Showing.reload (showing : Showing initial host) {loads : Table Int Load}
    (sound : ∀ slot load, loads.lookup slot = some load → LoadSound initial host slot load) :
    Showing initial { host with loads := loads } where
  converging := showing.converging
  players := showing.players
  untouched := showing.untouched
  minted := showing.minted
  slots := showing.slots
  single := showing.single
  live := showing.live
  cached := showing.cached
  authored := showing.authored
  loaded := showing.loaded
  loading slot load here :=
    have sound := sound slot load here
    { token_lt := sound.token_lt
      account := sound.account
      waiting := sound.waiting
      names := sound.names
      unwritten := sound.unwritten
      read := sound.read }
  applied_lt := showing.applied_lt
  present := showing.present
  shown := showing.shown
  stored := showing.stored

theorem Showing.forget (showing : Showing initial host) (slot : Int) :
    Showing initial { host with loads := host.loads.erase slot } := by
  refine showing.reload fun other load here => ?_
  rw [Table.lookup_erase_eq] at here
  split at here
  · exact nomatch here
  · exact showing.loading other load here

theorem Showing.arrange (showing : Showing initial host) {slot : Int} {load : Load}
    (sound : LoadSound initial host slot load) : Showing initial { host with loads := host.loads.insert slot load } := by
  refine showing.reload fun other found here => ?_
  rw [Table.lookup_insert_eq] at here
  split at here
  · next same =>
    obtain rfl := Option.some.inj here
    exact same ▸ sound
  · exact showing.loading other found here

/-- A load begins: every write so far is behind its fence. -/
theorem LoadSound.begin (showing : Showing initial host) {slot : Int} {token : Nat} {account : String}
    (connected : host.connections.entries slot = some (token,account)) :
    LoadSound initial host slot ⟨token,account,host.store.run.box.fence,none⟩ where
  token_lt := Host.token_lt showing connected
  account sid there := by
    rw [connected] at there
    exact (Prod.mk.inj (Option.some.inj there)).2.symm
  waiting _ _ w last _ later := by
    have := showing.converging.sound.newest w last.1
    simp only [Outbox.fence] at later
    omega
  names _ ran := nomatch ran
  unwritten _ ran := nomatch ran
  read _ ran := nomatch ran

/-- A query run once its fence is reached misses no newest value but those a write made
since, which the session or the cache carries. -/
theorem LoadSound.query (showing : Showing initial host) {slot : Int} {load : Load}
    (here : host.loads.lookup slot = some load) (waiting : load.rows = none)
    (done : host.store.run.box.done load.steamId load.fence) :
    LoadSound initial host slot { load with rows := some (select host.store.rows load.steamId) } := by
  have sound := showing.loading slot load here
  have value : ∀ key : CookieKey, (rowOf (select host.store.rows key.1) key.2).map Row.value =
      (host.store.rows.lookup key).map Stored.value := by
    intro key
    rw [rowOf_select,Option.map_map]
    rfl
  constructor
  · exact sound.token_lt
  · exact sound.account
  · exact fun none => nomatch none
  · rintro rows ⟨⟩
    exact select_names _ _
  · rintro rows ⟨⟩ name unwritten
    exact (value (load.steamId,name)).trans (congrArg (Option.map Stored.value) (showing.untouched _ unwritten))
  · rintro rows ⟨⟩ connected w last same
    have read : host.ledger.Settled w.key w.revision →
        (rowOf (select host.store.rows load.steamId) w.key.2).map Row.value = some w.value.1 := by
      intro settled
      rw [← same,value w.key]
      exact showing.converging.settled_value last settled
    by_cases behind : w.revision ≤ load.fence
    · exact .inr (read ((showing.converging.sound.done_iff _ _).mp done w last.1 same behind))
    · rcases sound.waiting waiting connected w last same (Int.not_le.mp behind) with settled | authored
      · exact .inr (read settled)
      · exact .inl authored

/-- The rows arrive in the session of a client that is still connected. -/
theorem Showing.load (showing : Showing initial host) {slot : Int} {load : Load} {rows : List Row}
    (here : host.loads.lookup slot = some load) (ran : load.rows = some rows) (connected : Connected host slot load)
    (player : isPlayer load.steamId) :
    Showing initial { host with
      loads := host.loads.erase slot
      applied := host.applied.insert (slot,load.token) rows
      sessions := host.sessions.insert (slot,load.token)
        { host.sessionOf slot load.token load.steamId with
          cookies := (host.sessionOf slot load.token load.steamId).cookies.load rows } } := by
  let entries := ((host.sessionOf slot load.token load.steamId).cookies.load rows).entries
  let after : Host := { host with
    loads := host.loads.erase slot
    applied := host.applied.insert (slot,load.token) rows
    sessions := host.sessions.insert (slot,load.token)
      { host.sessionOf slot load.token load.steamId with
        cookies := (host.sessionOf slot load.token load.steamId).cookies.load rows } }
  have sound := showing.loading slot load here
  have view : ∀ other id sid, after.view other id sid = if (other,id) = (slot,load.token) then entries else host.view other id sid :=
    fun other id sid => Host.view_putSession host slot other load.token id _ sid
  have own : after.view slot load.token load.steamId = entries := (view _ _ _).trans (if_pos rfl)
  have elsewhere : ∀ {other id sid}, (other,id) ≠ (slot,load.token) → after.view other id sid = host.view other id sid :=
    fun apart => (view _ _ _).trans (if_neg apart)
  have lookup : ∀ n, entries.lookup n =
      if ((host.view slot load.token load.steamId).lookup n).any Entry.dirty then (host.view slot load.token load.steamId).lookup n
      else ((rowOf rows n).map Row.entry).or ((host.view slot load.token load.steamId).lookup n) :=
    fun n => lookup_load (sound.names rows ran) n _
  -- the rows are clean, so what is dirty afterwards was so before
  have dirtyBefore : ∀ {n e}, entries.lookup n = some e → e.dirty →
      (host.view slot load.token load.steamId).lookup n = some e := by
    intro n e found dirty
    rw [lookup] at found
    split at found
    · exact found
    · next clean =>
      cases row : rowOf rows n with
      | none => simpa [row] using found
      | some r =>
        rw [row,Option.map_some,Option.some_or] at found
        rw [← Option.some.inj found] at dirty
        exact nomatch dirty
  have kept : ∀ {n e}, (host.view slot load.token load.steamId).lookup n = some e → e.dirty → entries.lookup n = some e := by
    intro n e found dirty
    rw [lookup,found,if_pos (by simpa using dirty)]
  have cases : ∀ other id sid, host.connections.entries other = some (id,sid) →
      (other,id) = (slot,load.token) ∧ sid = load.steamId ∨ (other,id) ≠ (slot,load.token) := by
    intro other id sid there
    by_cases same : (other,id) = (slot,load.token)
    · obtain ⟨rfl,rfl⟩ := Prod.mk.inj same.symm
      exact .inl ⟨rfl,sound.account sid there⟩
    · exact .inr same
  constructor
  · exact showing.converging
  · exact showing.players
  · exact showing.untouched
  · exact showing.minted
  · exact showing.slots
  · exact showing.single
  · intro other id session found
    rw [Table.lookup_insert_eq] at found
    split at found
    · next same =>
      obtain ⟨rfl,rfl⟩ := Prod.mk.inj same.symm
      obtain rfl := Option.some.inj found
      simp only [showing.owner connected]
      exact ⟨player,connected⟩
    · exact showing.live other id session found
  · exact showing.cached
  · intro other id sid name e there found dirty
    rcases cases other id sid there with ⟨same,rfl⟩ | apart
    · obtain ⟨rfl,rfl⟩ := Prod.mk.inj same.symm
      rw [own] at found
      exact showing.authored slot load.token load.steamId name e connected (dirtyBefore found dirty) dirty
    · rw [elsewhere apart] at found
      exact showing.authored other id sid name e there found dirty
  · intro other id sid name e there found clean unwritten
    rcases cases other id sid there with ⟨same,rfl⟩ | apart
    · obtain ⟨rfl,rfl⟩ := Prod.mk.inj same.symm
      rw [own,lookup] at found
      have before : (host.view slot load.token load.steamId).lookup name = some e →
          (initial.lookup (load.steamId,name)).map Stored.value = some e.value :=
        fun old => showing.loaded slot load.token load.steamId name e connected old clean unwritten
      split at found
      · exact before found
      · cases row : rowOf rows name with
        | none =>
          rw [row,Option.map_none,Option.none_or] at found
          exact before found
        | some r =>
          rw [row,Option.map_some,Option.some_or] at found
          rw [← sound.unwritten rows ran name unwritten,row,← Option.some.inj found]
          rfl
    · rw [elsewhere apart] at found
      exact showing.loaded other id sid name e there found clean unwritten
  · intro other another found
    have apart : other ≠ slot := by
      rintro rfl
      rw [AList.lookup_erase] at found
      exact nomatch found
    rw [AList.lookup_erase_ne apart] at found
    have others := showing.loading other another found
    have authored : ∀ {name}, host.Authored other another.token another.steamId name →
        after.Authored other another.token another.steamId name := by
      intro name
      rw [Host.Authored,Host.Authored,elsewhere fun same => apart (Prod.mk.inj same).1]
      exact id
    exact
      { token_lt := others.token_lt
        account := others.account
        waiting := fun waiting there w last same later => (others.waiting waiting there w last same later).imp_right authored
        names := others.names
        unwritten := others.unwritten
        read := fun rows ran there w last same => (others.read rows ran there w last same).imp_left authored }
  · intro other id applied
    rcases (AList.mem_insert _).mp applied with same | old
    · obtain ⟨rfl,rfl⟩ := Prod.mk.inj same.symm
      exact sound.token_lt
    · exact showing.applied_lt other id old
  · intro other id sid applied there
    refine (AList.mem_insert _).mpr ?_
    rcases (AList.mem_insert _).mp applied with same | old
    · exact .inl same
    · exact .inr (showing.present other id sid old there)
  · intro other id sid applied there w last same
    rcases cases other id sid there with ⟨equal,rfl⟩ | apart
    · obtain ⟨rfl,rfl⟩ := Prod.mk.inj equal.symm
      rw [own]
      have dirty : ∀ e, (host.view slot load.token load.steamId).lookup w.key.2 = some e → e.dirty → e.value = w.value.1 := by
        intro e found dirty
        have newest := showing.authored slot load.token load.steamId w.key.2 e connected found dirty
        rw [← key_of_account same] at newest
        exact newest.value_eq showing.converging.sound.keeps last
      rcases sound.read rows ran connected w last same with ⟨e,found,written⟩ | read
      · rw [kept found written,Option.map_some,dirty e found written]
      · rw [lookup]
        split
        · next some =>
          obtain ⟨e,found,written⟩ := (Option.any_eq_true _ _).mp some
          rw [found,Option.map_some,dirty e found written]
        · obtain ⟨r,row,value⟩ := Option.map_eq_some_iff.mp read
          rw [row,Option.map_some,Option.some_or,Option.map_some,← value]
          rfl
    · rw [elsewhere apart]
      exact showing.shown other id sid ((AList.mem_insert _).mp applied |>.resolve_left apart) there w last same
  · intro other id sid found applied there name unwritten
    rw [Table.lookup_insert_eq] at applied
    rcases cases other id sid there with ⟨equal,rfl⟩ | apart
    · rw [if_pos equal] at applied
      obtain rfl := Option.some.inj applied
      obtain ⟨rfl,rfl⟩ := Prod.mk.inj equal.symm
      rw [own,lookup]
      split
      · next some =>
        obtain ⟨e,there,dirty⟩ := (Option.any_eq_true _ _).mp some
        exact absurd unwritten (showing.authored slot load.token load.steamId name e connected there dirty).not_unwritten
      · next clean =>
        cases row : rowOf rows name with
        | some r => rfl
        | none =>
          cases old : (host.view slot load.token load.steamId).lookup name with
          | none => rfl
          | some e =>
            rw [old] at clean
            have stored := showing.loaded slot load.token load.steamId name e connected old (by simpa using clean) unwritten
            rw [← sound.unwritten rows ran name unwritten,row] at stored
            exact nomatch stored
    · rw [if_neg apart] at applied
      rw [elsewhere apart]
      exact showing.stored other id sid found applied there name unwritten

end Steps

end S2Script.Cookies
