import S2Script.MenuSessions

/-! Through every nesting of displays and handlers a slot has one live session, the one it is
active for. A session is opened once at most and its menu told of its end once at most, and what a
number picks is what the player saw under it. -/
namespace S2Script.MenuSessions

namespace Menu

theorem pageItems_grows {menu grown : Menu} (items : menu.items <+: grown.items) (page : Nat) :
    menu.pageItems page <+: grown.pageItems page := by
  have longer := items.length_le
  rw [pageItems,pageItems]
  have shorter : min itemsPerPage (menu.items.length - page * itemsPerPage) ≤
      min itemsPerPage (grown.items.length - page * itemsPerPage) := by omega
  obtain ⟨more,split⟩ := Nat.exists_eq_add_of_le shorter
  rw [split,← List.range'_append_1]
  exact List.prefix_append _ _

theorem mem_pageItems (menu : Menu) (page index : Nat) (member : index ∈ menu.pageItems page) :
    index < menu.items.length := by
  rw [pageItems,List.mem_range'_1] at member
  omega

theorem disabled_kept {menu grown : Menu} (items : menu.items <+: grown.items) {index : Nat}
    (within : index < menu.items.length) : grown.disabled index = menu.disabled index := by
  obtain ⟨more,split⟩ := items
  rw [disabled,disabled,← split,List.getElem?_append_left within]

/-- Items are only ever added behind the others, so that a number keeps its item. -/
theorem selectable_grows {menu grown : Menu} (items : menu.items <+: grown.items) (page : Nat) :
    menu.selectable page <+: grown.selectable page := by
  obtain ⟨more,split⟩ := pageItems_grows items page
  have same : menu.selectable page = (menu.pageItems page).filter fun index => !grown.disabled index := by
    apply List.filter_congr
    intro index member
    rw [disabled_kept items (menu.mem_pageItems page index member)]
  rw [same,selectable,← split,List.filter_append]
  exact List.prefix_append _ _

theorem selectable_length (menu : Menu) (page : Nat) : (menu.selectable page).length ≤ itemsPerPage := by
  have bounded := List.length_filter_le (fun index => !menu.disabled index) (menu.pageItems page)
  rw [pageItems,List.length_range'] at bounded
  rw [selectable,pageItems]
  omega

theorem mem_itemLines (menu : Menu) (marked : Option Target) (indexes : List Nat) (keyNum : Nat) (line : Line)
    (member : line ∈ menu.itemLines marked indexes keyNum) {key : Nat} (numbered : line.key = some key) :
    ∃ index, line.target = .item index ∧ keyNum ≤ key ∧
      (indexes.filter fun index => !menu.disabled index)[key - keyNum]? = some index := by
  induction indexes generalizing keyNum with
  | nil => cases member
  | cons index rest ih =>
    rw [itemLines] at member
    split at member
    next off =>
      rcases List.mem_cons.mp member with rfl | later
      · cases numbered
      · rw [List.filter_cons_of_neg (by simp [off])]
        exact ih keyNum later
    next on =>
      rw [List.filter_cons_of_pos (by simp [on])]
      rcases List.mem_cons.mp member with rfl | later
      · cases numbered
        exact ⟨index,rfl,Nat.le_refl _,by simp⟩
      · obtain ⟨found,target,above,here⟩ := ih (keyNum + 1) later
        refine ⟨found,target,by omega,?_⟩
        have next : key - keyNum = key - (keyNum + 1) + 1 := by omega
        rw [next,List.getElem?_cons_succ]
        exact here

/-- An item's line with a number shows the item that the number counts to. -/
theorem view_numbers (menu : Menu) (page : Nat) (cursor : Int) {line : Line} (member : line ∈ (menu.view page cursor).lines)
    {key index : Nat} (numbered : line.key = some key) (item : line.target = .item index) :
    1 ≤ key ∧ (menu.selectable page)[key - 1]? = some index := by
  simp only [view,List.mem_append,List.mem_map] at member
  rcases member with shown | ⟨control,offered,rfl⟩
  · obtain ⟨found,target,above,here⟩ := mem_itemLines menu _ _ 1 line shown numbered
    rw [item] at target
    cases target
    exact ⟨above,here⟩
  · exfalso
    cases control with
    | item other =>
      simp only [controls,List.mem_append] at offered
      rcases offered with (before | after) | out
      · split at before <;> simp at before
      · split at after <;> simp at after
      · split at out <;> simp at out
    | back => cases item
    | next => cases item
    | exit => cases item

end Menu

namespace Host

/-- What a screen showed of a session: the menu's items as they were then, on the page it is on. -/
def Shows (menu : Menu) (page : Nat) (view : View) : Prop :=
  ∃ before : Menu, before.items <+: menu.items ∧ ∃ cursor, view = before.view page cursor

/-- Live sessions are those that their slots are active for. -/
structure Invariant (host : Host) : Prop where
  created : ∀ slot session, host.activeBySlot slot = some session → session < host.nextSession
  active : ∀ slot session, host.activeBySlot slot = some session →
    (host.sessions session).slot = slot ∧ (host.sessions session).ended = false
  live : ∀ session, (host.sessions session).ended = false → host.activeBySlot (host.sessions session).slot = some session
  fresh : ∀ session, host.nextSession ≤ session → (host.sessions session).ended = true ∧ (host.sessions session).opened = false
  chat : ∀ session, (host.sessions session).ended = false → (host.sessions session).opened = true →
    (host.sessions session).renderer = "chat" → host.chatSessions (host.sessions session).slot = some session
  chatSlot : ∀ slot session, host.chatSessions slot = some session → session < host.nextSession ∧ (host.sessions session).slot = slot
  waits : ∀ session, session ∈ host.waiting → session < host.nextSession ∧ (host.sessions session).opened = false
  waitsOnce : host.waiting.Nodup
  minted : host.connections.Minted
  token : ∀ session, (host.sessions session).token < host.connections.nextId
  painted : ∀ session, (host.sessions session).ended = false → (host.sessions session).opened = true →
    host.connections.idOf (host.sessions session).slot = some (host.sessions session).token →
      ∃ view, (host.sessions session).painted = some view ∧ Shows (host.menuOf session) (host.sessions session).page view

theorem change_sessions (host : Host) (session other : Nat) (edit : Session → Session) :
    (host.change session edit).sessions other =
      if other = session then edit (host.sessions session) else host.sessions other := by
  simp only [change,Function.update_apply]

theorem retire_sessions (host : Host) (session other : Nat) :
    (host.retire session).sessions other =
      if other = session then { host.sessions session with ended := true } else host.sessions other := by
  simp only [retire,change_sessions]

theorem replaced_eq_false {host : Host} {session : Nat}
    (holds : host.connections.idOf (host.sessions session).slot = some (host.sessions session).token) :
    host.replaced session = false := by
  simp [replaced,generation,holds]

namespace Invariant

theorem start : Invariant Host.start where
  created _ _ active := nomatch active
  active _ _ active := nomatch active
  live _ live := nomatch live
  fresh _ _ := ⟨rfl,rfl⟩
  chat _ live := nomatch live
  chatSlot _ _ shown := nomatch shown
  waits _ waits := nomatch waits
  waitsOnce := List.nodup_nil
  minted := .new
  token _ := Nat.one_pos
  painted _ live := nomatch live

variable {host : Host}

/-- A live session was created. -/
theorem below (invariant : Invariant host) {session : Nat} (live : (host.sessions session).ended = false) :
    session < host.nextSession := invariant.created _ _ (invariant.live session live)

/-- What edits of one session's page, cursor and picture need. -/
theorem edit (invariant : Invariant host) (session : Nat) (edit : Session → Session)
    (same : (edit (host.sessions session)).slot = (host.sessions session).slot ∧
      (edit (host.sessions session)).token = (host.sessions session).token ∧
      (edit (host.sessions session)).renderer = (host.sessions session).renderer ∧
      (edit (host.sessions session)).ended = (host.sessions session).ended ∧
      (edit (host.sessions session)).opened = (host.sessions session).opened)
    (painted : (host.sessions session).ended = false → (host.sessions session).opened = true →
      host.connections.idOf (host.sessions session).slot = some (host.sessions session).token →
        ∃ view, (edit (host.sessions session)).painted = some view ∧
          Shows (host.menus (edit (host.sessions session)).menu) (edit (host.sessions session)).page view) :
    Invariant (host.change session edit) := by
  obtain ⟨slot,token,renderer,ended,opened⟩ := same
  have all (other : Nat) : ((host.change session edit).sessions other).slot = (host.sessions other).slot ∧
      ((host.change session edit).sessions other).token = (host.sessions other).token ∧
      ((host.change session edit).sessions other).renderer = (host.sessions other).renderer ∧
      ((host.change session edit).sessions other).ended = (host.sessions other).ended ∧
      ((host.change session edit).sessions other).opened = (host.sessions other).opened := by
    rw [change_sessions]
    split
    next here =>
      subst here
      exact ⟨slot,token,renderer,ended,opened⟩
    next => exact ⟨rfl,rfl,rfl,rfl,rfl⟩
  constructor
  · exact invariant.created
  · intro slot other active
    rw [(all other).1,(all other).2.2.2.1]
    exact invariant.active slot other active
  · intro other live
    rw [(all other).2.2.2.1] at live
    rw [(all other).1]
    exact invariant.live other live
  · intro other beyond
    rw [(all other).2.2.2.1,(all other).2.2.2.2]
    exact invariant.fresh other beyond
  · intro other live shown chat
    rw [(all other).2.2.2.1] at live
    rw [(all other).2.2.2.2] at shown
    rw [(all other).2.2.1] at chat
    rw [(all other).1]
    exact invariant.chat other live shown chat
  · intro slot other shown
    rw [(all other).1]
    exact invariant.chatSlot slot other shown
  · intro other waits
    rw [(all other).2.2.2.2]
    exact invariant.waits other waits
  · exact invariant.waitsOnce
  · exact invariant.minted
  · intro other
    rw [(all other).2.1]
    exact invariant.token other
  · intro other live shown holds
    rw [(all other).2.2.2.1] at live
    rw [(all other).2.2.2.2] at shown
    rw [(all other).1,(all other).2.1] at holds
    rw [menuOf,change_sessions]
    split
    next here =>
      subst here
      exact painted live shown holds
    next => exact invariant.painted other live shown holds

theorem paint (invariant : Invariant host) (session : Nat) : Invariant (host.paint session).1 :=
  invariant.edit session (.shown _) ⟨rfl,rfl,rfl,rfl,rfl⟩ fun _ _ _ => ⟨_,rfl,_,List.prefix_refl _,_,rfl⟩

/-- A page or a cursor that changes is painted again, unless someone else has the slot. -/
theorem repaint (invariant : Invariant host) (session page : Nat) (cursor : Int) :
    Invariant ((host.change session (.moveTo page cursor)).repaint session).1 := by
  have found : (host.change session (.moveTo page cursor)).sessions session = (host.sessions session).moveTo page cursor := by
    rw [change_sessions,if_pos rfl]
  have slotReplaced : (host.change session (.moveTo page cursor)).replaced session = host.replaced session := by
    rw [Host.replaced,found]
    rfl
  rw [Host.repaint]
  split
  next unpainted =>
    rw [slotReplaced,found] at unpainted
    refine invariant.edit session _ ⟨rfl,rfl,rfl,rfl,rfl⟩ fun live _ holds => ?_
    rw [replaced_eq_false holds] at unpainted
    simp [Session.moveTo,live] at unpainted
  next =>
    have shown : ((host.change session (.moveTo page cursor)).paint session).1 =
        host.change session fun found => (found.moveTo page cursor).shown ((host.menuOf session).view page cursor) := by
      simp only [Host.paint,Host.menuOf,found]
      simp only [change,Function.update_self,Function.update_idem]
      rfl
    rw [shown]
    exact invariant.edit session _ ⟨rfl,rfl,rfl,rfl,rfl⟩ fun _ _ _ => ⟨_,rfl,_,List.prefix_refl _,_,rfl⟩

end Invariant

end Host

/-- The menu's handlers are told that a session is over. -/
def Event.tells (session : Nat) : Event → Bool
  | .selected other _ _ => other == session
  | .cancelled other _ _ => other == session
  | _ => false

def Event.opens (session : Nat) : Event → Bool
  | .opened other => other == session
  | _ => false

namespace Host

/-- A session that was created and is over may have been told of, once. -/
def concluded (host : Host) (session : Nat) : Nat :=
  if session < host.nextSession ∧ (host.sessions session).ended = true then 1 else 0

def shown (host : Host) (session : Nat) : Nat := if (host.sessions session).opened = true then 1 else 0

/-- What is told and opened is paid for by sessions that end and open. -/
structure Advances (host after : Host) (events : List Event) : Prop where
  tells : ∀ session, events.countP (Event.tells session) + host.concluded session ≤ after.concluded session
  opens : ∀ session, events.countP (Event.opens session) + host.shown session ≤ after.shown session

namespace Advances

theorem refl (host : Host) : Advances host host [] := ⟨fun _ => by simp,fun _ => by simp⟩

theorem trans {host middle after : Host} {before later : List Event} (one : Advances host middle before)
    (two : Advances middle after later) : Advances host after (before ++ later) where
  tells session := by
    have first := one.tells session
    have second := two.tells session
    rw [List.countP_append]
    omega
  opens session := by
    have first := one.opens session
    have second := two.opens session
    rw [List.countP_append]
    omega

/-- Nothing is told, and no session ends or opens. -/
theorem quiet {host after : Host} {events : List Event} (created : after.nextSession = host.nextSession)
    (same : ∀ session, (after.sessions session).ended = (host.sessions session).ended ∧
      (after.sessions session).opened = (host.sessions session).opened)
    (silent : ∀ event ∈ events, ∀ session, event.tells session = false ∧ event.opens session = false) :
    Advances host after events where
  tells session := by
    have none : events.countP (Event.tells session) = 0 :=
      List.countP_eq_zero.mpr fun event member => by simp [(silent event member session).1]
    simp [none,concluded,created,(same session).1]
  opens session := by
    have none : events.countP (Event.opens session) = 0 :=
      List.countP_eq_zero.mpr fun event member => by simp [(silent event member session).2]
    simp [none,shown,(same session).2]

end Advances

structure Stepped (host : Host) (result : Host × List Event) : Prop where
  invariant : Invariant result.1
  advances : Advances host result.1 result.2

theorem Stepped.refl {host : Host} (invariant : Invariant host) : Stepped host (host,[]) := ⟨invariant,.refl host⟩

theorem Stepped.trans {host : Host} {result later : Host × List Event} (one : Stepped host result)
    (two : Stepped result.1 later) : Stepped host (later.1,result.2 ++ later.2) :=
  ⟨two.invariant,one.advances.trans two.advances⟩

namespace Invariant

variable {host : Host}

theorem retire (invariant : Invariant host) {session : Nat} (live : (host.sessions session).ended = false) :
    Invariant (host.retire session) := by
  have holds := invariant.live session live
  have slots (other : Nat) : ((host.retire session).sessions other).slot = (host.sessions other).slot := by
    rw [retire_sessions]
    split
    next here => rw [here]
    next => rfl
  have elsewhere {other : Nat} (different : other ≠ session) : (host.retire session).sessions other = host.sessions other := by
    rw [retire_sessions,if_neg different]
  have apart {other : Nat} (alive : ((host.retire session).sessions other).ended = false) : other ≠ session := by
    rintro rfl
    simp [retire_sessions] at alive
  have freed : (host.retire session).activeBySlot = Function.update host.activeBySlot (host.sessions session).slot none :=
    if_pos holds
  constructor
  · intro slot other active
    rw [freed,Function.update_apply] at active
    split at active
    · cases active
    · exact invariant.created slot other active
  · intro slot other active
    rw [freed,Function.update_apply] at active
    split at active
    · cases active
    next away =>
      have before := invariant.active slot other active
      have different : other ≠ session := by
        rintro rfl
        exact away before.1.symm
      rwa [elsewhere different]
  · intro other alive
    have different := apart alive
    rw [elsewhere different] at alive ⊢
    have before := invariant.live other alive
    rw [freed,Function.update_apply,if_neg]
    · exact before
    · intro same
      rw [same,holds] at before
      exact different (Option.some.inj before).symm
  · intro other beyond
    have old := invariant.fresh other beyond
    rw [retire_sessions]
    split
    next here =>
      subst here
      rw [live] at old
      cases old.1
    next => exact old
  · intro other alive opened chat
    have different := apart alive
    rw [elsewhere different] at alive opened chat ⊢
    exact invariant.chat other alive opened chat
  · intro slot other held
    rw [slots]
    exact invariant.chatSlot slot other held
  · intro other waits
    have before := invariant.waits other waits
    rw [retire_sessions]
    split
    next here =>
      subst here
      exact before
    next => exact before
  · exact invariant.waitsOnce
  · exact invariant.minted
  · intro other
    rw [retire_sessions]
    split
    next here =>
      subst here
      exact invariant.token other
    next => exact invariant.token other
  · intro other alive opened holds
    have different := apart alive
    rw [menuOf,elsewhere different] at *
    exact invariant.painted other alive opened holds

/-- Closing at a slot takes nothing from a live session if the slot is free. -/
theorem rendererClose (invariant : Invariant host) {session : Nat} (free : host.activeBySlot (host.sessions session).slot = none) :
    Invariant (host.rendererClose session).1 := by
  rw [Host.rendererClose]
  split
  next =>
    refine { invariant with chat := fun other live opened chat => ?_, chatSlot := fun slot other held => ?_ }
    · have active := invariant.live other live
      dsimp only
      rw [Function.update_apply,if_neg]
      · exact invariant.chat other live opened chat
      · intro same
        rw [same,free] at active
        cases active
    · dsimp only at held
      rw [Function.update_apply] at held
      split at held
      · cases held
      · exact invariant.chatSlot slot other held
  next => exact invariant

theorem retire_advances {session : Nat} (live : (host.sessions session).ended = false) (below : session < host.nextSession)
    {after : Host} (same : after.sessions = (host.retire session).sessions) (created : after.nextSession = host.nextSession)
    {events : List Event} (tells : ∀ other, events.countP (Event.tells other) ≤ if other = session then 1 else 0)
    (opens : ∀ other, events.countP (Event.opens other) = 0) : Advances host after events where
  tells other := by
    have told := tells other
    rw [concluded,concluded,created,same,retire_sessions]
    by_cases here : other = session
    · subst here
      simpa [live,below] using told
    · rw [if_neg here] at told
      refine Nat.le_of_eq ?_
      rw [if_neg here,Nat.le_zero.mp told,Nat.zero_add]
  opens other := by
    rw [opens other,Nat.zero_add,shown,shown,same,retire_sessions]
    by_cases here : other = session
    · subst here
      exact Nat.le_of_eq (by rw [if_pos rfl])
    · exact Nat.le_of_eq (by rw [if_neg here])

theorem retired_free (invariant : Invariant host) {session : Nat} (live : (host.sessions session).ended = false) :
    (host.retire session).activeBySlot ((host.retire session).sessions session).slot = none := by
  have holds := invariant.live session live
  simp [Host.retire,change,holds]

theorem rendererClose_sessions (host : Host) (session : Nat) :
    (host.rendererClose session).1.sessions = host.sessions ∧ (host.rendererClose session).1.nextSession = host.nextSession ∧
      (host.rendererClose session).2 = [.closed session (host.sessions session).slot] := by
  rw [Host.rendererClose]
  split <;> exact ⟨rfl,rfl,rfl⟩

/-- A session is over, its renderer closes, and its menu is told if it listens. -/
theorem conclude (invariant : Invariant host) {session : Nat} (live : (host.sessions session).ended = false) (event : Event)
    (tells : ∀ other, event.tells other = (session == other)) (opens : ∀ other, event.opens other = false) (listens : Bool) :
    Stepped host (((host.retire session).rendererClose session).1,
      ((host.retire session).rendererClose session).2 ++ if listens = true then [event] else []) := by
  obtain ⟨sessions,created,events⟩ := rendererClose_sessions (host.retire session) session
  refine ⟨(invariant.retire live).rendererClose (invariant.retired_free live),?_⟩
  apply retire_advances live (invariant.below live) sessions created
  · intro other
    have closed : Event.tells other (.closed session ((host.retire session).sessions session).slot) = false := rfl
    rw [events,List.singleton_append,List.countP_cons_of_neg (by simp [closed])]
    cases listens with
    | false => exact Nat.zero_le _
    | true =>
      rw [if_pos rfl,List.countP_singleton,tells]
      by_cases here : other = session
      · simp [here]
      · simp [here,Ne.symm here]
  · intro other
    have closed : Event.opens other (.closed session ((host.retire session).sessions session).slot) = false := rfl
    rw [events,List.singleton_append,List.countP_cons_of_neg (by simp [closed])]
    cases listens with
    | false => rfl
    | true => rw [if_pos rfl,List.countP_singleton,opens,if_neg Bool.false_ne_true]

theorem endSession (invariant : Invariant host) (session : Nat) (reason : CancelReason) :
    Stepped host (host.endSession session reason) := by
  rw [Host.endSession]
  split
  · exact .refl invariant
  next alive =>
    have live : (host.sessions session).ended = false := by simpa using alive
    dsimp only
    split
    · refine ⟨invariant.retire live,?_⟩
      exact retire_advances live (invariant.below live) rfl rfl (fun _ => by simp) fun _ => rfl
    · exact invariant.conclude live (.cancelled session _ reason) (fun _ => rfl) (fun _ => rfl) _

theorem select (invariant : Invariant host) {session : Nat} (live : (host.sessions session).ended = false) (itemIndex : Nat) :
    Stepped host (host.select session itemIndex) := by
  rw [Host.select]
  split
  · exact .refl invariant
  · split
    · exact .refl invariant
    · split
      · exact .refl invariant
      · exact invariant.conclude live (.selected session _ itemIndex) (fun _ => rfl) (fun _ => rfl) _

/-- The record of a session that has just opened. -/
def openedSession (host : Host) (session : Nat) : Session :=
  ({ host.sessions session with opened := true } : Session).shown
    ((host.menuOf session).view (host.sessions session).page (host.sessions session).cursor)

theorem startSession_eq (host : Host) (session : Nat) :
    (host.startSession session).1 =
      { host with
        sessions := Function.update host.sessions session (openedSession host session),
        chatSessions := if (host.sessions session).renderer = "chat"
          then Function.update host.chatSessions (host.sessions session).slot (some session) else host.chatSessions,
        armed := if 0 < (host.sessions session).seconds then session :: host.armed else host.armed } ∧
    (host.startSession session).2 = [.opened session,.updated session
      ((host.menuOf session).view (host.sessions session).page (host.sessions session).cursor)] := by
  simp only [Host.startSession]
  by_cases chat : (host.sessions session).renderer = "chat"
  · simp [chat,Host.paint,change,menuOf,openedSession]
  · simp [chat,Host.paint,change,menuOf,openedSession]

/-- The session that its slot is active for opens, for the first time. -/
theorem startSession (invariant : Invariant host) {session : Nat} (live : (host.sessions session).ended = false)
    (unopened : (host.sessions session).opened = false) (ready : session ∉ host.waiting) : Stepped host (host.startSession session) := by
  obtain ⟨state,events⟩ := startSession_eq host session
  have active := invariant.live session live
  have at' (other : Nat) : (host.startSession session).1.sessions other =
      if other = session then openedSession host session else host.sessions other := by
    rw [state]
    exact Function.update_apply _ _ _ _
  have same (other : Nat) : ((host.startSession session).1.sessions other).slot = (host.sessions other).slot ∧
      ((host.startSession session).1.sessions other).token = (host.sessions other).token ∧
      ((host.startSession session).1.sessions other).renderer = (host.sessions other).renderer ∧
      ((host.startSession session).1.sessions other).ended = (host.sessions other).ended := by
    rw [at']
    split
    next here =>
      subst here
      exact ⟨rfl,rfl,rfl,rfl⟩
    next => exact ⟨rfl,rfl,rfl,rfl⟩
  have opens (other : Nat) : ((host.startSession session).1.sessions other).opened =
      if other = session then true else (host.sessions other).opened := by
    rw [at']
    split <;> rfl
  have chats : (host.startSession session).1.chatSessions = if (host.sessions session).renderer = "chat"
      then Function.update host.chatSessions (host.sessions session).slot (some session) else host.chatSessions := by
    rw [state]
  have created : (host.startSession session).1.nextSession = host.nextSession := by rw [state]
  have actives : (host.startSession session).1.activeBySlot = host.activeBySlot := by rw [state]
  have waits : (host.startSession session).1.waiting = host.waiting := by rw [state]
  have connections : (host.startSession session).1.connections = host.connections := by rw [state]
  have menus : (host.startSession session).1.menus = host.menus := by rw [state]
  constructor
  · constructor
    · intro slot other held
      rw [actives] at held
      rw [created]
      exact invariant.created slot other held
    · intro slot other held
      rw [actives] at held
      rw [(same other).1,(same other).2.2.2]
      exact invariant.active slot other held
    · intro other alive
      rw [(same other).2.2.2] at alive
      rw [actives,(same other).1]
      exact invariant.live other alive
    · intro other beyond
      rw [created] at beyond
      have old := invariant.fresh other beyond
      rw [(same other).2.2.2,opens,if_neg]
      · exact old
      · rintro rfl
        rw [live] at old
        cases old.1
    · intro other alive opened chat
      rw [(same other).2.2.2] at alive
      rw [(same other).2.2.1] at chat
      rw [chats,(same other).1]
      by_cases here : other = session
      · subst here
        rw [if_pos chat,Function.update_self]
      · rw [opens,if_neg here] at opened
        have shown := invariant.chat other alive opened chat
        split
        · rw [Function.update_of_ne]
          · exact shown
          · intro slots
            have clash := invariant.live other alive
            rw [slots,active] at clash
            exact here (Option.some.inj clash).symm
        · exact shown
    · intro slot other held
      rw [created,(same other).1]
      rw [chats] at held
      split at held
      · rw [Function.update_apply] at held
        split at held
        next here =>
          cases held
          exact ⟨invariant.below live,here.symm⟩
        next => exact invariant.chatSlot slot other held
      · exact invariant.chatSlot slot other held
    · intro other held
      rw [waits] at held
      rw [created,opens,if_neg]
      · exact invariant.waits other held
      · rintro rfl
        exact ready held
    · rw [waits]
      exact invariant.waitsOnce
    · rw [connections]
      exact invariant.minted
    · intro other
      rw [connections,(same other).2.1]
      exact invariant.token other
    · intro other alive opened holds
      rw [menuOf,menus,at']
      split
      · exact ⟨_,rfl,_,List.prefix_refl _,_,rfl⟩
      next here =>
        rw [(same other).2.2.2] at alive
        rw [opens,if_neg here] at opened
        rw [connections,(same other).1,(same other).2.1] at holds
        exact invariant.painted other alive opened holds
  · constructor
    · intro other
      rw [events,concluded,concluded,created,(same other).2.2.2]
      simp [Event.tells]
    · intro other
      rw [events,shown,shown,opens]
      by_cases here : other = session
      · subst here
        simp [Event.opens,unopened]
      · simp [Event.opens,here,Ne.symm here]

theorem finish (invariant : Invariant host) {session : Nat} (unopened : (host.sessions session).opened = false)
    (ready : session ∉ host.waiting) : Stepped host (host.finish session) := by
  rw [Host.finish]
  split
  next active => exact invariant.startSession (invariant.active _ _ active).2 unopened ready
  next => exact .refl invariant

/-- A new session at a free slot. -/
theorem install (invariant : Invariant host) (menu : Nat) {slot : Int} (seconds : Nat) (renderer : String)
    (free : host.activeBySlot slot = none) : Stepped host (host.install menu slot seconds renderer,[]) := by
  have fresh := invariant.fresh host.nextSession (Nat.le_refl _)
  have at' (other : Nat) : (host.install menu slot seconds renderer).sessions other =
      if other = host.nextSession then ⟨menu,slot,host.generation slot,renderer,seconds,0,0,false,false,none⟩
      else host.sessions other := Function.update_apply _ _ _ _
  have known {other : Nat} (below : other < host.nextSession) :
      (host.install menu slot seconds renderer).sessions other = host.sessions other := by
    rw [at',if_neg (Nat.ne_of_lt below)]
  constructor
  · constructor
    · intro place other held
      simp only [Host.install,Function.update_apply] at held
      split at held
      · cases held
        exact Nat.lt_succ_self _
      · exact Nat.lt_succ_of_lt (invariant.created place other held)
    · intro place other held
      simp only [Host.install,Function.update_apply] at held
      split at held
      next here =>
        cases held
        rw [at',if_pos rfl]
        exact ⟨here.symm,rfl⟩
      next =>
        rw [known (invariant.created place other held)]
        exact invariant.active place other held
    · intro other alive
      rw [at'] at alive ⊢
      simp only [Host.install,Function.update_apply]
      by_cases here : other = host.nextSession
      · simp [here]
      · rw [if_neg here] at alive ⊢
        have active := invariant.live other alive
        rw [if_neg]
        · exact active
        · intro same
          rw [same,free] at active
          cases active
    · intro other beyond
      have past : host.nextSession + 1 ≤ other := beyond
      rw [at',if_neg (by omega)]
      exact invariant.fresh other (by omega)
    · intro other alive opened chat
      rw [at'] at alive opened chat ⊢
      by_cases here : other = host.nextSession
      · simp [here] at opened
      · rw [if_neg here] at alive opened chat ⊢
        exact invariant.chat other alive opened chat
    · intro place other held
      have old := invariant.chatSlot place other held
      rw [known old.1]
      exact ⟨Nat.lt_succ_of_lt old.1,old.2⟩
    · intro other held
      have old := invariant.waits other held
      rw [known old.1]
      exact ⟨Nat.lt_succ_of_lt old.1,old.2⟩
    · exact invariant.waitsOnce
    · exact invariant.minted
    · intro other
      rw [at']
      split
      · simp only [generation]
        cases minted : host.connections.idOf slot with
        | none => exact invariant.minted.minting
        | some id => exact (invariant.minted.minted minted).2
      · exact invariant.token other
    · intro other alive opened holds
      rw [menuOf,at'] at *
      by_cases here : other = host.nextSession
      · simp [here] at opened
      · rw [if_neg here] at alive opened holds ⊢
        exact invariant.painted other alive opened holds
  · constructor
    · intro other
      rw [List.countP_nil,Nat.zero_add,concluded,concluded,at']
      by_cases here : other = host.nextSession
      · simp [here]
      · rw [if_neg here]
        split
        next ended => exact Nat.le_of_eq (by rw [if_pos ⟨Nat.lt_succ_of_lt ended.1,ended.2⟩])
        next => exact Nat.zero_le _
    · intro other
      rw [List.countP_nil,Nat.zero_add,shown,shown,at']
      by_cases here : other = host.nextSession
      · rw [here,fresh.2]
        exact Nat.zero_le _
      · exact Nat.le_of_eq (by rw [if_neg here])

end Invariant

end Host

end S2Script.MenuSessions
