import S2Script.MenuSessionsSafety

/-! What a step of the menus does, and what holds after every run of them. -/
namespace S2Script.MenuSessions

namespace Host

namespace Invariant

variable {host : Host}

/-- A session that ends before its successor takes the slot, or after: it is the same. -/
theorem install_endSession (invariant : Invariant host) {slot : Int} {previous : Nat}
    (active : host.activeBySlot slot = some previous) (menu seconds : Nat) (renderer : String) :
    (host.install menu slot seconds renderer).endSession previous .newMenu =
      ((host.endSession previous .newMenu).1.install menu slot seconds renderer,(host.endSession previous .newMenu).2) := by
  obtain ⟨here,live⟩ := invariant.active slot previous active
  have different : previous ≠ host.nextSession := Nat.ne_of_lt (invariant.created slot previous active)
  have found : (host.install menu slot seconds renderer).sessions previous = host.sessions previous :=
    Function.update_of_ne different _ _
  have later : (host.install menu slot seconds renderer).activeBySlot slot = some host.nextSession := Function.update_self _ _ _
  have replaced : (host.install menu slot seconds renderer).replaced previous = host.replaced previous := by
    simp only [Host.replaced,found]
    rfl
  have menus : (host.install menu slot seconds renderer).menuOf previous = host.menuOf previous := by
    simp only [menuOf,found]
    rfl
  have kept : (host.install menu slot seconds renderer).retire previous =
      (host.retire previous).install menu slot seconds renderer := by
    simp only [Host.retire,found,here,later,active,if_true]
    rw [if_neg fun same => different (Option.some.inj same).symm]
    simp only [Host.install,change,Function.update_idem,generation,Function.update_of_ne different]
    rw [Function.update_comm (Ne.symm different)]
  have closes : ((host.retire previous).install menu slot seconds renderer).rendererClose previous =
      (((host.retire previous).rendererClose previous).1.install menu slot seconds renderer,((host.retire previous).rendererClose previous).2) := by
    have same : ((host.retire previous).install menu slot seconds renderer).sessions previous =
        (host.retire previous).sessions previous := Function.update_of_ne different _ _
    simp only [Host.rendererClose,same]
    split <;> rfl
  simp only [Host.endSession,found,live,replaced,menus,kept,closes]
  split
  · rfl
  · split <;> rfl

theorem endSession_free (invariant : Invariant host) {slot : Int} {previous : Nat}
    (active : host.activeBySlot slot = some previous) (reason : CancelReason) :
    (host.endSession previous reason).1.activeBySlot slot = none ∧
      (host.endSession previous reason).1.nextSession = host.nextSession ∧
      (host.endSession previous reason).1.waiting = host.waiting := by
  obtain ⟨here,live⟩ := invariant.active slot previous active
  have free : (host.retire previous).activeBySlot slot = none := by
    simp [Host.retire,here,active]
  simp only [Host.endSession,live]
  split
  · contradiction
  · split
    · exact ⟨free,rfl,rfl⟩
    · simp only [Host.rendererClose]
      split <;> exact ⟨free,rfl,rfl⟩

/-- The display that waits for a handler is its turn's last. -/
theorem wait (invariant : Invariant host) {session : Nat} (below : session < host.nextSession)
    (unopened : (host.sessions session).opened = false) (ready : session ∉ host.waiting) :
    Invariant { host with waiting := session :: host.waiting } :=
  { invariant with
    waits := fun other held => by
      rcases List.mem_cons.mp held with rfl | old
      · exact ⟨below,unopened⟩
      · exact invariant.waits other old
    waitsOnce := List.nodup_cons.mpr ⟨ready,invariant.waitsOnce⟩ }

theorem installed (host : Host) (menu : Nat) (slot : Int) (seconds : Nat) (renderer : String) :
    ((host.install menu slot seconds renderer).sessions host.nextSession).opened = false := by
  simp [Host.install]

theorem unawaited (invariant : Invariant host) : host.nextSession ∉ host.waiting :=
  fun held => Nat.lt_irrefl _ (invariant.waits _ held).1

theorem display (invariant : Invariant host) (menu : Nat) (slot : Int) (seconds : Nat) :
    Stepped host (host.display menu slot seconds) := by
  rw [Host.display]
  split
  · exact .refl invariant
  · split
    · exact .refl invariant
    next renderer _ =>
      cases active : host.activeBySlot slot with
      | none =>
        have placed := invariant.install menu seconds renderer active
        have opened := @Invariant.finish _ placed.invariant host.nextSession (installed host menu slot seconds renderer)
          invariant.unawaited
        exact placed.trans opened
      | some previous =>
        have ended := invariant.endSession previous .newMenu
        obtain ⟨free,next,waiting⟩ := invariant.endSession_free active .newMenu
        have placed := ended.trans (ended.invariant.install menu seconds renderer free)
        have unopened := installed (host.endSession previous .newMenu).1 menu slot seconds renderer
        have ready := ended.invariant.unawaited
        rw [next] at unopened ready
        have below : host.nextSession < ((host.endSession previous .newMenu).1.install menu slot seconds renderer).nextSession := by
          simp only [Host.install,next]
          exact Nat.lt_succ_self _
        dsimp only
        rw [invariant.install_endSession active menu seconds renderer]
        split
        · refine ⟨placed.invariant.wait below unopened ready,?_⟩
          have told := placed.advances
          rw [List.append_nil] at told
          exact ⟨told.tells,told.opens⟩
        · have finished := placed.trans (placed.invariant.finish unopened ready)
          rw [List.append_nil] at finished
          exact finished

theorem resume (invariant : Invariant host) : Stepped host host.resume := by
  rw [Host.resume]
  cases held : host.waiting with
  | nil => exact .refl invariant
  | cons session rest =>
    have once := invariant.waitsOnce
    rw [held,List.nodup_cons] at once
    have popped : Invariant { host with waiting := rest } :=
      { invariant with
        waits := fun other member => invariant.waits other (by rw [held]; exact List.mem_cons_of_mem _ member),
        waitsOnce := once.2 }
    have finished := @Invariant.finish _ popped session (invariant.waits session (by rw [held]; exact List.mem_cons_self)).2 once.1
    exact ⟨finished.invariant,finished.advances.tells,finished.advances.opens⟩

/-- Changing a page or a cursor tells nobody anything. -/
theorem move (invariant : Invariant host) (session page : Nat) (cursor : Int) :
    Stepped host ((host.change session (.moveTo page cursor)).repaint session) := by
  refine ⟨invariant.repaint session page cursor,?_⟩
  have moved (other : Nat) : ((host.change session (.moveTo page cursor)).sessions other).ended = (host.sessions other).ended ∧
      ((host.change session (.moveTo page cursor)).sessions other).opened = (host.sessions other).opened := by
    rw [change_sessions]
    split
    next here => exact here ▸ ⟨rfl,rfl⟩
    next => exact ⟨rfl,rfl⟩
  rw [Host.repaint]
  split
  · exact .quiet rfl moved fun _ none => by cases none
  · refine .quiet rfl (fun other => ?_) fun event only other => ?_
    · rw [Host.paint,change_sessions]
      split
      next here =>
        subst here
        exact moved other
      next => exact moved other
    · rw [Host.paint,List.mem_singleton] at only
      subst only
      exact ⟨rfl,rfl⟩

theorem turn (invariant : Invariant host) (session page : Nat) : Stepped host (host.turn session page) :=
  invariant.move session page 0

theorem pickNumber (invariant : Invariant host) (session : Nat) (n : Int) : Stepped host (host.pickNumber session n) := by
  simp only [Host.pickNumber]
  split
  · exact .refl invariant
  next alive =>
    have live : (host.sessions session).ended = false := by simpa using alive
    split
    · exact invariant.turn session _
    · split
      · exact invariant.turn session _
      · split
        · exact invariant.endSession session .exit
        · split
          · exact .refl invariant
          · split
            · exact invariant.select live _
            · exact .refl invariant

theorem moveCursor (invariant : Invariant host) (session : Nat) (delta : Int) : Stepped host (host.moveCursor session delta) := by
  simp only [Host.moveCursor]
  split
  · exact .refl invariant
  · exact invariant.move session _ _

theorem confirm (invariant : Invariant host) (session : Nat) : Stepped host (host.confirm session) := by
  simp only [Host.confirm]
  split
  · exact .refl invariant
  next alive =>
    have live : (host.sessions session).ended = false := by
      simp only [Bool.or_eq_true,not_or,Bool.not_eq_true] at alive
      exact alive.1
    split
    · exact .refl invariant
    · exact invariant.select live _
    · exact invariant.turn session _
    · exact invariant.turn session _
    · exact invariant.endSession session .exit

theorem chatMessage (invariant : Invariant host) (slot : Int) (text : List Char) : Stepped host (host.chatMessage slot text) := by
  rw [Host.chatMessage]
  split
  · exact .refl invariant
  · split
    · exact .refl invariant
    · split
      · split
        · exact invariant.pickNumber _ _
        · exact .refl invariant
      · exact .refl invariant

/-- A menu that keeps its items in front shows what it showed. -/
theorem editMenu (invariant : Invariant host) (menu : Nat) (edit : Menu → Menu)
    (items : (host.menus menu).items <+: (edit (host.menus menu)).items) : Stepped host (host.editMenu menu edit,[]) := by
  refine ⟨{ invariant with painted := fun session live opened holds => ?_ },.quiet rfl (fun _ => ⟨rfl,rfl⟩) fun _ none => nomatch none⟩
  obtain ⟨view,shown,before,already,painted⟩ := invariant.painted session live opened holds
  refine ⟨view,shown,before,already.trans ?_,painted⟩
  simp only [menuOf,Host.editMenu,Function.update_apply]
  split
  next here => rwa [here]
  next => exact List.prefix_refl _

/-- A new connection has an id that no session was displayed to. -/
theorem join (invariant : Invariant host) (slot : Int) : Stepped host (host.join slot,[]) := by
  refine ⟨{ invariant with
      minted := invariant.minted.evolves (.insert _ _ _), token := fun session => Nat.lt_succ_of_lt (invariant.token session),
      painted := fun session live opened holds => ?_ },.quiet rfl (fun _ => ⟨rfl,rfl⟩) fun _ none => nomatch none⟩
  simp only [Host.join,Liveness.LiveTable.idOf_insert] at holds
  split at holds
  · have older := invariant.token session
    rw [Option.some.inj holds] at older
    exact absurd older (Nat.lt_irrefl _)
  · exact invariant.painted session live opened holds

theorem leave (invariant : Invariant host) (slot : Int) (token : Nat) : Stepped host (host.leave slot token,[]) := by
  rw [Host.leave]
  split
  · refine ⟨{ invariant with
        minted := invariant.minted.evolves (.remove _ _), painted := fun session live opened holds => ?_ },
      .quiet rfl (fun _ => ⟨rfl,rfl⟩) fun _ none => nomatch none⟩
    simp only [Liveness.LiveTable.idOf_remove] at holds
    split at holds
    · cases holds
    · exact invariant.painted session live opened holds
  · exact .refl invariant

theorem step (invariant : Invariant host) (action : Action) : Stepped host (host.step action) := by
  cases action with
  | addItem menu item => exact invariant.editMenu menu _ (List.prefix_append _ _)
  | setStyle menu style => exact invariant.editMenu menu _ (List.prefix_refl _)
  | setExitButton menu exitButton => exact invariant.editMenu menu _ (List.prefix_refl _)
  | setHandlers menu onSelect onCancel => exact invariant.editMenu menu _ (List.prefix_refl _)
  | registerRenderer style => exact ⟨{ invariant with },.quiet rfl (fun _ => ⟨rfl,rfl⟩) fun _ none => nomatch none⟩
  | display menu slot seconds => exact invariant.display menu slot seconds
  | resume => exact invariant.resume
  | close menu slot =>
    rw [Host.step,Host.close]
    split
    · exact .refl invariant
    · split
      · exact invariant.endSession _ .exit
      · exact .refl invariant
  | timeout session =>
    rw [Host.step]
    split
    · exact invariant.endSession session .timeout
    · exact .refl invariant
  | pickNumber session n =>
    rw [Host.step]
    split
    · exact invariant.pickNumber session n
    · exact .refl invariant
  | moveUp session =>
    rw [Host.step]
    split
    · exact invariant.moveCursor session _
    · exact .refl invariant
  | moveDown session =>
    rw [Host.step]
    split
    · exact invariant.moveCursor session _
    · exact .refl invariant
  | confirm session =>
    rw [Host.step]
    split
    · exact invariant.confirm session
    · exact .refl invariant
  | cancel session =>
    rw [Host.step]
    split
    · exact invariant.endSession session .exit
    · exact .refl invariant
  | chatMessage slot text => exact invariant.chatMessage slot text
  | disconnected slot token =>
    rw [Host.step,Host.disconnected]
    split
    · exact .refl invariant
    · split
      · exact invariant.endSession _ .disconnect
      · exact .refl invariant
  | join slot => exact invariant.join slot
  | leave slot token => exact invariant.leave slot token

theorem run (invariant : Invariant host) (actions : List Action) : Stepped host (host.run actions) := by
  induction actions generalizing host with
  | nil => exact .refl invariant
  | cons action rest ih => exact (invariant.step action).trans (ih (invariant.step action).invariant)

/-- An item that can be picked ends its session, and the menu hears of it. -/
theorem select_told {session index : Nat}
    (holds : host.connections.idOf (host.sessions session).slot = some (host.sessions session).token)
    {page : Nat} (member : index ∈ (host.menuOf session).selectable page) :
    (host.select session index).2 = .closed session (host.sessions session).slot ::
      if (host.menuOf session).onSelect = true then [.selected session (host.sessions session).slot index] else [] := by
  obtain ⟨onPage,enabled⟩ := List.mem_filter.mp member
  have within := (host.menuOf session).mem_pageItems page index onPage
  have found := List.getElem?_eq_getElem within
  have closed := (rendererClose_sessions (host.retire session) session).2.2
  have slot : ((host.retire session).sessions session).slot = (host.sessions session).slot := by rw [retire_sessions,if_pos rfl]
  simp only [Menu.disabled,found,Option.any_some,Bool.not_eq_true'] at enabled
  simp only [Host.select,replaced_eq_false holds,found,enabled,Bool.false_eq_true,if_false,closed,slot,List.singleton_append]

/-- What a screen shows under a number is what that number picks. -/
theorem pick (invariant : Invariant host) {session : Nat} (live : (host.sessions session).ended = false)
    (opened : (host.sessions session).opened = true)
    (holds : host.connections.idOf (host.sessions session).slot = some (host.sessions session).token)
    {view : View} (painted : (host.sessions session).painted = some view) {line : Line} (shown : line ∈ view.lines)
    {key index : Nat} (numbered : line.key = some key) (item : line.target = .item index) :
    (host.pickNumber session key).2 = .closed session (host.sessions session).slot ::
      if (host.menuOf session).onSelect = true then [.selected session (host.sessions session).slot index] else [] := by
  obtain ⟨last,same,before,items,cursor,rfl⟩ := invariant.painted session live opened holds
  rw [painted] at same
  cases same
  obtain ⟨positive,counted⟩ := before.view_numbers _ cursor shown numbered item
  have few := before.selectable_length (host.sessions session).page
  have bounded : key - 1 < (before.selectable (host.sessions session).page).length := by
    rw [List.getElem?_eq_some_iff] at counted
    exact counted.1
  have still : ((host.menuOf session).selectable (host.sessions session).page)[key - 1]? = some index := by
    obtain ⟨more,split⟩ := Menu.selectable_grows items (host.sessions session).page
    rw [← split,List.getElem?_append_left bounded]
    exact counted
  have low : key ≤ 7 := by
    simp only [itemsPerPage] at few
    omega
  have number : ((key : Int) - 1).toNat = key - 1 := by omega
  -- 8, 9 and 0 are the controls' numbers, and no page has that many items
  have picks : host.pickNumber session key = host.select session index := by
    simp only [Host.pickNumber,live,number,still]
    rw [if_neg (by simp),if_neg (by omega),if_neg (by omega),if_neg (by omega),if_neg (by omega)]
  rw [picks]
  exact select_told holds (List.mem_of_getElem? still)

end Invariant

/-- After every run, while a client still has the slot that a menu was displayed to, the number of a line on its
screen picks the item of that line, whatever has been added to the menu meanwhile. -/
theorem picks_what_is_shown (actions : List Action) (session : Nat)
    (live : ((start.run actions).1.sessions session).ended = false)
    (opened : ((start.run actions).1.sessions session).opened = true)
    (holds : (start.run actions).1.connections.idOf ((start.run actions).1.sessions session).slot =
      some ((start.run actions).1.sessions session).token) :
    let host := (start.run actions).1
    ∃ view, (host.sessions session).painted = some view ∧
      ∀ line ∈ view.lines, ∀ key index, line.key = some key → line.target = .item index →
        (host.pickNumber session key).2 = .closed session (host.sessions session).slot ::
          if (host.menuOf session).onSelect = true then [.selected session (host.sessions session).slot index] else [] := by
  have ran := Invariant.start.run actions
  obtain ⟨view,painted,_⟩ := ran.invariant.painted session live opened holds
  exact ⟨view,painted,fun line shown key index numbered item => ran.invariant.pick live opened holds painted shown numbered item⟩

/-- A menu with one item that grows while a client looks at it. -/
def grows : List Action :=
  [.addItem 0 ⟨"a","First",false⟩,.setHandlers 0 true true,.join 3,.display 0 3 0,.addItem 0 ⟨"b","Second",false⟩]

theorem grows_picks :
    ∃ view, ((start.run grows).1.sessions 0).painted = some view ∧
      ∀ line ∈ view.lines, ∀ key index, line.key = some key → line.target = .item index →
        ((start.run grows).1.pickNumber 0 key).2 = .closed 0 ((start.run grows).1.sessions 0).slot ::
          if ((start.run grows).1.menuOf 0).onSelect = true
          then [.selected 0 ((start.run grows).1.sessions 0).slot index] else [] :=
  picks_what_is_shown grows 0 (by decide) (by decide) (by decide)

end Host

end S2Script.MenuSessions
