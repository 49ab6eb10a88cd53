import S2Script.Liveness
import S2Script.VersionRanges

/-! Menus that plugins display to players. A display is a session with its own page and cursor, at
most one for a slot; a handler that runs when one ends may display the next before the display that
ended it is done. -/
namespace S2Script.MenuSessions

open Liveness (LiveTable)

/-- `MENU_ITEMS_PER_PAGE`. -/
def itemsPerPage : Nat := 7

structure Item where
  info : String
  display : String
  disabled : Bool

/-- A plugin's menu. Of its handlers it matters whether they are set. -/
structure Menu where
  title : String
  style : String
  exitButton : Bool
  items : List Item
  onSelect : Bool
  onCancel : Bool

inductive CancelReason
  | exit | timeout | disconnect | newMenu
  deriving DecidableEq

/-- What a line or the cursor stands for. -/
inductive Target
  | item (index : Nat)
  | back | next | exit
  deriving DecidableEq

structure Line where
  text : String
  key : Option Nat
  target : Target
  cursor : Bool

structure View where
  title : String
  lines : List Line
  page : Nat
  pageCount : Nat
  exit : Bool

namespace Menu

def pageCount (menu : Menu) : Nat := max 1 ((menu.items.length + (itemsPerPage - 1)) / itemsPerPage)

/-- `_pageItems`. -/
def pageItems (menu : Menu) (page : Nat) : List Nat :=
  List.range' (page * itemsPerPage) (min itemsPerPage (menu.items.length - page * itemsPerPage))

def disabled (menu : Menu) (index : Nat) : Bool := (menu.items[index]?).any Item.disabled

/-- The items of a page that can be picked, in the order of their numbers. -/
def selectable (menu : Menu) (page : Nat) : List Nat := (menu.pageItems page).filter fun index => !menu.disabled index

def controls (menu : Menu) (page : Nat) : List Target :=
  (if 0 < page then [.back] else []) ++ (if page + 1 < menu.pageCount then [.next] else []) ++
    (if menu.exitButton then [.exit] else [])

/-- `_navTargets`. -/
def navTargets (menu : Menu) (page : Nat) : List Target := (menu.selectable page).map .item ++ menu.controls page

/-- The lines of items; those that are disabled take no number. -/
def itemLines (menu : Menu) (marked : Option Target) : List Nat → Nat → List Line
  | [], _ => []
  | index :: rest, keyNum =>
    let text := (menu.items[index]?.map Item.display).getD ""
    if menu.disabled index then ⟨text,none,.item index,marked == some (.item index)⟩ :: itemLines menu marked rest keyNum
    else ⟨text,some keyNum,.item index,marked == some (.item index)⟩ :: itemLines menu marked rest (keyNum + 1)

def controlLine (marked : Option Target) : Target → Line
  | .back => ⟨"Back",some 8,.back,marked == some .back⟩
  | .next => ⟨"Next",some 9,.next,marked == some .next⟩
  | target => ⟨"Exit",some 0,target,marked == some target⟩

/-- What a renderer paints. Only the center style marks the line under the cursor. -/
def view (menu : Menu) (page : Nat) (cursor : Int) : View :=
  let marked := if menu.style = "center" ∧ 0 ≤ cursor then (menu.navTargets page)[cursor.toNat]? else none
  { title := menu.title,
    lines := itemLines menu marked (menu.pageItems page) 1 ++ (menu.controls page).map (controlLine marked),
    page := page, pageCount := menu.pageCount, exit := menu.exitButton }

end Menu

/-- A display of one menu to one slot. -/
structure Session where
  menu : Nat
  slot : Int
  token : Nat
  renderer : String
  seconds : Nat
  page : Nat
  cursor : Int
  ended : Bool
  opened : Bool
  painted : Option View

def Session.moveTo (page : Nat) (cursor : Int) (session : Session) : Session :=
  { session with page := page, cursor := cursor }

def Session.shown (view : View) (session : Session) : Session := { session with painted := some view }

/-- What a renderer and the handlers of a menu are told. -/
inductive Event
  | opened (session : Nat)
  | updated (session : Nat) (view : View)
  | closed (session : Nat) (slot : Int)
  | selected (session : Nat) (slot : Int) (item : Nat)
  | cancelled (session : Nat) (slot : Int) (reason : CancelReason)

/-- A context's menus. `waiting` are the displays whose predecessor's handler has not returned. -/
structure Host where
  menus : Nat → Menu
  renderers : String → Bool
  sessions : Nat → Session
  nextSession : Nat
  activeBySlot : Int → Option Nat
  chatSessions : Int → Option Nat
  armed : List Nat
  waiting : List Nat
  connections : LiveTable Int Unit

namespace Host

/-- `new Menu("")`, for those that nobody has touched. -/
def blankMenu : Menu := ⟨"","chat",true,[],false,false⟩

def blankSession : Session := ⟨0,0,0,"chat",0,0,0,true,false,none⟩

def start : Host :=
  ⟨fun _ => blankMenu,fun name => name == "chat",fun _ => blankSession,0,fun _ => none,fun _ => none,[],[],.new 1⟩

def menuOf (host : Host) (session : Nat) : Menu := host.menus (host.sessions session).menu

/-- `__s2_client_generation`. -/
def generation (host : Host) (slot : Int) : Nat := (host.connections.idOf slot).getD 0

/-- `__s2_client_replaced` of a session's client. -/
def replaced (host : Host) (session : Nat) : Bool :=
  let token := host.generation (host.sessions session).slot
  token != 0 && token != (host.sessions session).token

def change (host : Host) (session : Nat) (edit : Session → Session) : Host :=
  { host with sessions := Function.update host.sessions session (edit (host.sessions session)) }

def paint (host : Host) (session : Nat) : Host × List Event :=
  let shown := (host.menuOf session).view (host.sessions session).page (host.sessions session).cursor
  (host.change session (.shown shown),[.updated session shown])

/-- `_start`: the renderer opens and paints, and a timeout is armed. -/
def startSession (host : Host) (session : Nat) : Host × List Event :=
  let found := host.sessions session
  let host := if found.renderer = "chat"
    then { host with chatSessions := Function.update host.chatSessions found.slot (some session) } else host
  let painted := (host.change session fun found => { found with opened := true }).paint session
  ({ painted.1 with armed := if 0 < found.seconds then session :: painted.1.armed else painted.1.armed },
    .opened session :: painted.2)

/-- A session is over: the slot is free if it was its. -/
def retire (host : Host) (session : Nat) : Host :=
  let slot := (host.sessions session).slot
  { host.change session (fun found => { found with ended := true }) with
    activeBySlot := if host.activeBySlot slot = some session then Function.update host.activeBySlot slot none
      else host.activeBySlot }

/-- The renderer closes at a slot. -/
def rendererClose (host : Host) (session : Nat) : Host × List Event :=
  let found := host.sessions session
  (if found.renderer = "chat" then { host with chatSessions := Function.update host.chatSessions found.slot none } else host,
    [.closed session found.slot])

/-- `_end`. A client that took the slot over hears nothing of it. -/
def endSession (host : Host) (session : Nat) (reason : CancelReason) : Host × List Event :=
  if (host.sessions session).ended then (host,[])
  else
    let retired := host.retire session
    if host.replaced session then (retired,[])
    else
      let closed := retired.rendererClose session
      (closed.1,closed.2 ++ if (host.menuOf session).onCancel
        then [.cancelled session (host.sessions session).slot reason] else [])

/-- `_select`. -/
def select (host : Host) (session : Nat) (itemIndex : Nat) : Host × List Event :=
  if host.replaced session then (host,[])
  else match (host.menuOf session).items[itemIndex]? with
    | none => (host,[])
    | some item =>
      if item.disabled then (host,[])
      else
        let closed := (host.retire session).rendererClose session
        (closed.1,closed.2 ++ if (host.menuOf session).onSelect
          then [.selected session (host.sessions session).slot itemIndex] else [])

/-- `_repaint`. -/
def repaint (host : Host) (session : Nat) : Host × List Event :=
  if (host.sessions session).ended || host.replaced session then (host,[]) else host.paint session

def turn (host : Host) (session page : Nat) : Host × List Event :=
  (host.change session (.moveTo page 0)).repaint session

/-- `pickNumber`. -/
def pickNumber (host : Host) (session : Nat) (n : Int) : Host × List Event :=
  let found := host.sessions session
  let menu := host.menuOf session
  if found.ended then (host,[])
  else if n = 8 ∧ 0 < found.page then host.turn session (found.page - 1)
  else if n = 9 ∧ found.page + 1 < menu.pageCount then host.turn session (found.page + 1)
  else if n = 0 ∧ menu.exitButton then host.endSession session .exit
  else if n - 1 < 0 then (host,[])
  else match (menu.selectable found.page)[(n - 1).toNat]? with
    | some index => host.select session index
    | none => (host,[])

def moveCursor (host : Host) (session : Nat) (delta : Int) : Host × List Event :=
  let found := host.sessions session
  let n := ((host.menuOf session).navTargets found.page).length
  if found.ended || n == 0 then (host,[])
  else (host.change session (.moveTo found.page ((found.cursor + delta).tmod n))).repaint session

/-- `moveUp` adds `n - 1` to the cursor, as the source does before its remainder. -/
def moveUp (host : Host) (session : Nat) : Host × List Event :=
  host.moveCursor session (((host.menuOf session).navTargets (host.sessions session).page).length - 1)

def moveDown (host : Host) (session : Nat) : Host × List Event := host.moveCursor session 1

/-- `confirm`. -/
def confirm (host : Host) (session : Nat) : Host × List Event :=
  let found := host.sessions session
  if found.ended || found.cursor < 0 then (host,[])
  else match ((host.menuOf session).navTargets found.page)[found.cursor.toNat]? with
    | none => (host,[])
    | some (.item index) => host.select session index
    | some .back => host.turn session (found.page - 1)
    | some .next => host.turn session (found.page + 1)
    | some .exit => host.endSession session .exit

/-- The end of `display`: a display that was overtaken is abandoned. -/
def finish (host : Host) (session : Nat) : Host × List Event :=
  if host.activeBySlot (host.sessions session).slot = some session then host.startSession session else (host,[])

/-- The renderer for a style, or the chat's. -/
def rendererOf (host : Host) (style : String) : Option String :=
  if host.renderers style then some style else if host.renderers "chat" then some "chat" else none

/-- A session takes the slot before its predecessor ends. -/
def install (host : Host) (menu : Nat) (slot : Int) (seconds : Nat) (renderer : String) : Host :=
  { host with
    sessions := Function.update host.sessions host.nextSession
      ⟨menu,slot,host.generation slot,renderer,seconds,0,0,false,false,none⟩,
    nextSession := host.nextSession + 1,
    activeBySlot := Function.update host.activeBySlot slot (some host.nextSession) }

/-- `display`. Where the predecessor's handler runs, the rest waits for it. -/
def display (host : Host) (menu : Nat) (slot : Int) (seconds : Nat) : Host × List Event :=
  if slot < 0 then (host,[])
  else match host.rendererOf (host.menus menu).style with
    | none => (host,[])
    | some renderer =>
      let session := host.nextSession
      let installed := host.install menu slot seconds renderer
      match host.activeBySlot slot with
      | none => installed.finish session
      | some previous =>
        let ended := installed.endSession previous .newMenu
        if !installed.replaced previous && (installed.menuOf previous).onCancel then
          ({ ended.1 with waiting := session :: ended.1.waiting },ended.2)
        else
          let finished := ended.1.finish session
          (finished.1,ended.2 ++ finished.2)

/-- A handler returns to the display that ran it. -/
def resume (host : Host) : Host × List Event :=
  match host.waiting with
  | [] => (host,[])
  | session :: rest => ({ host with waiting := rest }).finish session

/-- `Menu.close`. -/
def close (host : Host) (menu : Nat) (slot : Int) : Host × List Event :=
  match host.activeBySlot slot with
  | none => (host,[])
  | some session => if (host.sessions session).menu = menu then host.endSession session .exit else (host,[])

/-- The chat renderer's hook: one digit is a pick. -/
def chatMessage (host : Host) (slot : Int) (text : List Char) : Host × List Event :=
  match host.chatSessions slot with
  | none => (host,[])
  | some session =>
    if (host.sessions session).ended then (host,[])
    else match VersionRanges.trim text with
      | [digit] => if digit.isDigit then host.pickNumber session (digit.toNat - 48 : Nat) else (host,[])
      | _ => (host,[])

/-- A client's disconnect reaches the context. -/
def disconnected (host : Host) (slot : Int) (token : Nat) : Host × List Event :=
  match host.activeBySlot slot with
  | none => (host,[])
  | some session =>
    if (host.sessions session).token = token then host.endSession session .disconnect else (host,[])

def editMenu (host : Host) (menu : Nat) (edit : Menu → Menu) : Host :=
  { host with menus := Function.update host.menus menu (edit (host.menus menu)) }

/-- A connection begins at a slot. -/
def join (host : Host) (slot : Int) : Host := { host with connections := (host.connections.insert slot ()).1 }

/-- It ends, if it is the one that stands. -/
def leave (host : Host) (slot : Int) (token : Nat) : Host :=
  if token ≠ 0 ∧ host.connections.isLive slot token then { host with connections := host.connections.remove slot } else host

end Host

inductive Action
  | addItem (menu : Nat) (item : Item)
  | setStyle (menu : Nat) (style : String)
  | setExitButton (menu : Nat) (exitButton : Bool)
  | setHandlers (menu : Nat) (onSelect onCancel : Bool)
  | registerRenderer (style : String)
  | display (menu : Nat) (slot : Int) (seconds : Nat)
  | resume
  | close (menu : Nat) (slot : Int)
  | timeout (session : Nat)
  | pickNumber (session : Nat) (n : Int)
  | moveUp (session : Nat)
  | moveDown (session : Nat)
  | confirm (session : Nat)
  | cancel (session : Nat)
  | chatMessage (slot : Int) (text : List Char)
  | disconnected (slot : Int) (token : Nat)
  | join (slot : Int)
  | leave (slot : Int) (token : Nat)

namespace Host

/-- Renderers, timeouts and handlers know sessions that were created. -/
def step (host : Host) : Action → Host × List Event
  | .addItem menu item => (host.editMenu menu fun found => { found with items := found.items ++ [item] },[])
  | .setStyle menu style => (host.editMenu menu fun found => { found with style := style },[])
  | .setExitButton menu exitButton => (host.editMenu menu fun found => { found with exitButton := exitButton },[])
  | .setHandlers menu onSelect onCancel =>
    (host.editMenu menu fun found => { found with onSelect := onSelect, onCancel := onCancel },[])
  | .registerRenderer style => ({ host with renderers := Function.update host.renderers style true },[])
  | .display menu slot seconds => host.display menu slot seconds
  | .resume => host.resume
  | .close menu slot => host.close menu slot
  | .timeout session => if session ∈ host.armed then host.endSession session .timeout else (host,[])
  | .pickNumber session n => if session < host.nextSession then host.pickNumber session n else (host,[])
  | .moveUp session => if session < host.nextSession then host.moveUp session else (host,[])
  | .moveDown session => if session < host.nextSession then host.moveDown session else (host,[])
  | .confirm session => if session < host.nextSession then host.confirm session else (host,[])
  | .cancel session => if session < host.nextSession then host.endSession session .exit else (host,[])
  | .chatMessage slot text => host.chatMessage slot text
  | .disconnected slot token => host.disconnected slot token
  | .join slot => (host.join slot,[])
  | .leave slot token => (host.leave slot token,[])

/-- A run, with what was told on the way. -/
def run (host : Host) : List Action → Host × List Event
  | [] => (host,[])
  | action :: rest =>
    let stepped := host.step action
    let after := run stepped.1 rest
    (after.1,stepped.2 ++ after.2)

end Host

end S2Script.MenuSessions
