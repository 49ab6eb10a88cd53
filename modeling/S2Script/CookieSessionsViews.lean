import S2Script.CookieSessions

/-! What an operation would see in a session. A connection without a session sees the
account cache; loading rows fills in what no write has made dirty. -/
namespace S2Script.Cookies

open WriteBehind Liveness

/-- The value of the newest accepted write of a key. -/
def Newest (ledger : Ledger CookieKey (String × Int)) (key : CookieKey) (value : String) : Prop :=
  ∃ w, ledger.Last w ∧ w.key = key ∧ w.value.1 = value

/-- No write of a key was accepted. -/
def Unwritten (ledger : Ledger CookieKey (String × Int)) (key : CookieKey) : Prop :=
  ∀ w ∈ ledger.writes, w.key ≠ key

section Ledgers

variable {ledger : Ledger CookieKey (String × Int)} {w : Write CookieKey (String × Int)} {key : CookieKey} {value : String}

theorem Newest.not_unwritten (newest : Newest ledger key value) : ¬Unwritten ledger key := by
  obtain ⟨v,last,rfl,_⟩ := newest
  exact fun unwritten => unwritten v last.1 rfl

/-- The newest write after one more was accepted. -/
theorem last_accept (above : ∀ v ∈ ledger.writes, v.revision < w.revision) {v : Write CookieKey (String × Int)} :
    (ledger.accept w).Last v ↔ v = w ∨ v.key ≠ w.key ∧ ledger.Last v := by
  constructor
  · rintro ⟨member,newest⟩
    rcases List.mem_append.mp member with old | new
    · have apart : v.key ≠ w.key := fun same => by
        have := newest w (List.mem_append_right _ (List.mem_singleton.mpr rfl)) same.symm
        have := above v old
        omega
      exact .inr ⟨apart,old,fun u inside => newest u (List.mem_append_left _ inside)⟩
    · exact .inl (List.mem_singleton.mp new)
  · rintro (rfl | ⟨apart,member,newest⟩)
    · refine ⟨List.mem_append_right _ (List.mem_singleton.mpr rfl),fun u inside same => ?_⟩
      rcases List.mem_append.mp inside with old | new
      · exact Int.le_of_lt (above u old)
      · rw [List.mem_singleton.mp new]
    · refine ⟨List.mem_append_left _ member,fun u inside same => ?_⟩
      rcases List.mem_append.mp inside with old | new
      · exact newest u old same
      · rw [List.mem_singleton.mp new] at same
        exact absurd same.symm apart

theorem newest_accept (above : ∀ v ∈ ledger.writes, v.revision < w.revision) : Newest (ledger.accept w) w.key w.value.1 :=
  ⟨w,(last_accept above).mpr (.inl rfl),rfl,rfl⟩

theorem Newest.accept (newest : Newest ledger key value) (above : ∀ v ∈ ledger.writes, v.revision < w.revision)
    (apart : key ≠ w.key) : Newest (ledger.accept w) key value := by
  obtain ⟨v,last,rfl,same⟩ := newest
  exact ⟨v,(last_accept above).mpr (.inr ⟨apart,last⟩),rfl,same⟩

theorem unwritten_accept : Unwritten (ledger.accept w) key ↔ key ≠ w.key ∧ Unwritten ledger key := by
  constructor
  · exact fun unwritten => ⟨(unwritten w (List.mem_append_right _ (List.mem_singleton.mpr rfl))).symm,
      fun v member => unwritten v (List.mem_append_left _ member)⟩
  · rintro ⟨apart,unwritten⟩ v member
    rcases List.mem_append.mp member with old | new
    · exact unwritten v old
    · rw [List.mem_singleton.mp new]
      exact apart.symm

/-- A key has one newest value. -/
theorem Newest.value_eq {held : CookieKey → List (Piece (String × Int))} (keeps : Keeps ledger held)
    (newest : Newest ledger w.key value) (last : ledger.Last w) : value = w.value.1 := by
  obtain ⟨v,other,same,rfl⟩ := newest
  have le := last.2 v other.1 same
  have ge := other.2 w last.1 same.symm
  rw [keeps.unique other.1 last.1 (Int.le_antisymm le ge)]

end Ledgers

/-- The outbox takes no write without an account. -/
theorem Outbox.admitted_player {box : Outbox} {sid name value : String} (admits : box.refuses sid name value = false) :
    isPlayer sid := by
  simp only [refuses,Bool.or_eq_false_iff] at admits
  obtain ⟨⟨⟨⟨⟨empty,zero⟩,_⟩,_⟩,_⟩,_⟩ := admits
  simp [isPlayer,empty,zero]

/-- The row a `SELECT` read for a name. -/
def rowOf (rows : List Row) (name : String) : Option Row := rows.find? fun row => row.name == name

theorem select_names (rows : Database) (account : String) :
    (select rows account).Pairwise fun row other => row.name ≠ other.name := by
  refine List.pairwise_map.mpr ?_
  have keys : rows.entries.Pairwise fun e d => e.1 ≠ d.1 := List.pairwise_map.mp rows.nodupKeys
  refine (List.Pairwise.filter _ keys).imp_of_mem fun {e d} inE inD apart same => apart ?_
  have left := (List.mem_filter.mp inE).2
  have right := (List.mem_filter.mp inD).2
  simp only [beq_iff_eq] at left right
  exact Prod.ext (left.trans right.symm) same

theorem rowOf_select (rows : Database) (account name : String) :
    rowOf (select rows account) name = (rows.lookup (account,name)).map fun row => ⟨name,row.value,row.updated⟩ := by
  apply Option.ext
  intro row
  simp only [rowOf,Option.map_eq_some_iff,Table.lookup_iff_entry]
  constructor
  · intro found
    have named : row.name = name := by simpa using List.find?_some found
    obtain ⟨⟨⟨sid,_⟩,stored⟩,entry,rfl⟩ := List.mem_map.mp (List.mem_of_find?_eq_some found)
    obtain ⟨inside,same⟩ := List.mem_filter.mp entry
    simp only [beq_iff_eq] at same
    subst same
    subst named
    exact ⟨stored,inside,rfl⟩
  · rintro ⟨stored,inside,rfl⟩
    have entry : (⟨name,stored.value,stored.updated⟩ : Row) ∈ select rows account :=
      List.mem_map.mpr ⟨⟨(account,name),stored⟩,List.mem_filter.mpr ⟨inside,by simp⟩,rfl⟩
    obtain ⟨found,first⟩ := Option.isSome_iff_exists.mp
      (List.find?_isSome (p := fun row : Row => row.name == name) |>.mpr ⟨_,entry,by simp⟩)
    have named : found.name = name := by simpa using List.find?_some first
    rw [first]
    by_contra differ
    have symmetric : Std.Symm fun row other : Row => row.name ≠ other.name := ⟨fun _ _ ne => ne.symm⟩
    have apart := (select_names rows account).forall (List.mem_of_find?_eq_some first) entry fun same => differ (congrArg some same)
    exact apart named

/-- The entry a loaded row makes. -/
def Row.entry (row : Row) : Entry := ⟨row.value,false,row.updated⟩

theorem lookup_loadRow (cookies : ClientCookies) (row : Row) (name : String) :
    (cookies.loadRow row).entries.lookup name =
      if row.name = name ∧ (cookies.entries.lookup name).any Entry.dirty = false then some row.entry
      else cookies.entries.lookup name := by
  rw [ClientCookies.loadRow]
  by_cases same : row.name = name
  · subst same
    cases dirty : (cookies.entries.lookup row.name).any Entry.dirty
    · simp [AList.lookup_insert,Row.entry]
    · simp
  · have apart : name ≠ row.name := fun equal => same equal.symm
    have right : ¬(row.name = name ∧ (cookies.entries.lookup name).any Entry.dirty = false) := fun both => same both.1
    rw [if_neg right]
    split
    · rfl
    · exact AList.lookup_insert_ne apart

/-- Loading keeps dirty entries, takes the rows for the rest, and keeps what no row is for. -/
theorem lookup_load {rows : List Row} (names : rows.Pairwise fun row other => row.name ≠ other.name) (name : String) :
    ∀ cookies : ClientCookies, (cookies.load rows).entries.lookup name =
      if (cookies.entries.lookup name).any Entry.dirty then cookies.entries.lookup name
      else ((rowOf rows name).map Row.entry).or (cookies.entries.lookup name) := by
  simp only [ClientCookies.load]
  induction rows with
  | nil => simp [rowOf]
  | cons row rest ih =>
    intro cookies
    obtain ⟨apart,restNames⟩ := List.pairwise_cons.mp names
    rw [List.foldl_cons,ih restNames,lookup_loadRow]
    by_cases same : row.name = name
    · have absent : rowOf rest name = none :=
        List.find?_eq_none.mpr fun other member equal => apart other member (same.trans (beq_iff_eq.mp equal).symm)
      have here : rowOf (row :: rest) name = some row := by simp [rowOf,same]
      rw [absent,here]
      cases dirty : (cookies.entries.lookup name).any Entry.dirty
      · simp [same,Row.entry]
      · simp [dirty]
    · have skip : rowOf (row :: rest) name = rowOf rest name := by simp [rowOf,same]
      simp only [skip,same,false_and,if_false]

namespace Host

/-- The entries an operation of the connection would find. -/
def view (host : Host) (slot : Int) (token : Nat) (account : String) : Table String Entry :=
  (host.sessionOf slot token account).cookies.entries

abbrev ledger (host : Host) : Ledger CookieKey (String × Int) := host.store.run.ledger

theorem view_of_session {host : Host} {slot : Int} {token : Nat} {session : Session}
    (here : host.sessions.lookup (slot,token) = some session) (account : String) :
    host.view slot token account = session.cookies.entries := by
  simp [view,sessionOf,here]

theorem view_of_none {host : Host} {slot : Int} {token : Nat} (none : host.sessions.lookup (slot,token) = none)
    (account : String) : host.view slot token account = ((host.cache.lookup account).getD {}).entries := by
  simp [view,sessionOf,none]

theorem view_putSession (host : Host) (slot other : Int) (token id : Nat) (session : Session) (account : String) :
    (host.putSession slot token session).view other id account =
      if (other,id) = (slot,token) then session.cookies.entries else host.view other id account := by
  simp only [view,sessionOf,putSession,Table.lookup_insert_eq]
  split <;> rfl

/-- The connection sees an entry a write made. -/
def Authored (host : Host) (slot : Int) (token : Nat) (account name : String) : Prop :=
  ∃ e, (host.view slot token account).lookup name = some e ∧ e.dirty

end Host

theorem lookup_cacheSet (cache : AccountCache) (account name value : String) (updated : Int) (other n : String) :
    (((cacheSet cache account name value updated).lookup other).getD {}).entries.lookup n =
      if (other,n) = (account,name) then some ⟨value,true,updated⟩ else ((cache.lookup other).getD {}).entries.lookup n := by
  rw [cacheSet,Table.lookup_insert_eq]
  by_cases same : other = account
  · subst same
    simp only [if_true,Option.getD_some,ClientCookies.write,Table.lookup_insert_eq,Prod.mk.injEq,true_and]
  · rw [if_neg same,if_neg fun both => same (Prod.mk.inj both).1]

theorem lookup_cacheRefresh (cache : AccountCache) (account name value : String) (updated : Int) (other n : String) :
    (((cacheRefresh cache account name value updated).lookup other).getD {}).entries.lookup n =
      if (other,n) = (account,name) ∧ name ∈ ((cache.lookup account).getD {}).entries then some ⟨value,true,updated⟩
      else ((cache.lookup other).getD {}).entries.lookup n := by
  cases here : cache.lookup account with
  | none =>
    rw [cacheRefresh,here]
    exact (if_neg fun both => AList.notMem_empty name both.2).symm
  | some cookies =>
    rw [cacheRefresh,here]
    simp only [Option.getD_some]
    by_cases member : name ∈ cookies.entries
    · rw [if_pos member,Table.lookup_insert_eq]
      by_cases same : other = account
      · subst same
        simp only [if_true,Option.getD_some,ClientCookies.write,Table.lookup_insert_eq,Prod.mk.injEq,true_and,member,
          and_true,here]
      · rw [if_neg same,if_neg fun both => same (Prod.mk.inj both.1).1]
    · rw [if_neg member,if_neg fun both => member both.2]

theorem lookup_cacheEvict (cache : AccountCache) (key : CookieKey) (other n : String) :
    (((cacheEvict cache key).lookup other).getD {}).entries.lookup n =
      if (other,n) = key then none else ((cache.lookup other).getD {}).entries.lookup n := by
  obtain ⟨account,name⟩ := key
  cases here : cache.lookup account with
  | none =>
    simp only [cacheEvict,here]
    split
    · next same =>
      obtain ⟨rfl,rfl⟩ := Prod.mk.inj same
      rw [here]
      rfl
    · rfl
  | some cookies =>
    simp only [cacheEvict,here]
    have erased : ∀ m, (cookies.entries.erase name).lookup m = if m = name then none else cookies.entries.lookup m :=
      fun m => Table.lookup_erase_eq cookies.entries name m
    by_cases same : other = account
    · subst same
      split
      · next empty =>
        have gone : (cookies.entries.erase name).lookup n = none := by
          rw [AList.lookup_eq_none,AList.mem_keys,AList.keys,List.isEmpty_iff.mp empty]
          exact List.not_mem_nil
        rw [AList.lookup_erase]
        rw [erased] at gone
        simp only [Option.getD_none,Prod.mk.injEq,true_and,here,Option.getD_some]
        split
        · rfl
        · next differ => exact ((if_neg differ).symm.trans gone).symm ▸ rfl
      · rw [AList.lookup_insert]
        simp only [Option.getD_some,erased,Prod.mk.injEq,true_and,here]
    · have apart : ((if (cookies.entries.erase name).entries.isEmpty then cache.erase account
          else cache.insert account { cookies with entries := cookies.entries.erase name }) : AccountCache).lookup other =
          cache.lookup other := by
        split
        · exact AList.lookup_erase_ne same
        · exact AList.lookup_insert_ne same
      rw [apart,if_neg fun both => same (Prod.mk.inj both).1]

end S2Script.Cookies
