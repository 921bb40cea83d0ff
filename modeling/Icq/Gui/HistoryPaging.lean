import Icq.Gui.HistoryActions
import Icq.Gui.MessageKeyOrder
import Icq.Lib.Page

/-! The history read in pages, from an id on and then in both directions. What is asked of the
core for lack of messages does not change the history before the answer comes. -/

namespace Icq.Gui
open Icq.Lib

def visibleCount (buddies : List MessageBuddy) : Nat := buddies.countP (·.isVisibleMessage)

def messagesPage (n : Nat) (range : List MessageBuddy) : List MessageBuddy :=
  page (·.isVisibleMessage) preloadCount n range

def pendingsPage (n : Nat) (range : List MessageWithKey) : List MessageWithKey :=
  page (·.message.isVisibleMessage) preloadCount n range

/-- The messages of pending entries. -/
def messagesOf (pendings : List MessageWithKey) : List MessageBuddy := pendings.map (·.message)

/-- The pending bounds once the messages were read towards older ones. -/
def ViewBounds.withOlderPendings (b : ViewBounds) (read : List MessageBuddy) : ViewBounds :=
  match read.head?, read.getLast? with
  | some front, some back =>
    { b with
      topPending := some back.toKey
      bottomPending := some (b.bottomPending.getD front.toKey) }
  | _, _ => b

def ViewBounds.withNewer (b : ViewBounds) (read : List MessageBuddy) : ViewBounds :=
  match read.getLast? with
  | some back => { b with bottom := some back.id }
  | none => b

def ViewBounds.withNewerPendings (b : ViewBounds) (read : List MessageBuddy) : ViewBounds :=
  match read.head?, read.getLast? with
  | some front, some back =>
    { b with
      bottomPending := some back.toKey
      topPending := some (b.topPending.getD front.toKey) }
  | _, _ => b

namespace History

variable (s : History)

section Fetch

/-- Without a bound the range begins at the end. -/
def rangeToOlder (top : Option Int) : List MessageBuddy :=
  match top with
  | some top => s.messages.items.takeWhile fun m => decide (m.id < top)
  | none => s.messages.items

/-- The bounds are the view bounds, but for the pending ones of what is loaded so far. -/
def loadToOlder (b : ViewBounds) (result : List MessageBuddy) :
    ViewBounds × List MessageBuddy :=
  let loaded := messagesPage (visibleCount result) (s.rangeToOlder b.top).reverse
  match loaded.head?, loaded.getLast? with
  | some front, some back =>
    ({ b with top := some back.id, bottom := some (b.bottom.getD front.id) }, result ++ loaded)
  | _, _ => (b, result)

def pendingsToOlder (topPending : Option MessageKey) : List MessageWithKey :=
  match topPending with
  | some key => s.pendings.takeWhile (·.key.lessThan key)
  | none => s.pendings

def fetchToOlder : ViewBounds × List MessageBuddy :=
  let b := s.viewBounds
  if b.top.isSome || s.pendings.isEmpty then s.loadToOlder b []
  else
    let result := messagesOf (pendingsPage 0 (s.pendingsToOlder b.topPending).reverse)
    let b := b.withOlderPendings result
    if visibleCount result < preloadCount then s.loadToOlder b result else (b, result)

def pendingsToNewer (bottomPending : Option MessageKey) : List MessageWithKey :=
  match bottomPending with
  | some key => s.pendings.dropWhile fun x => !key.lessThan x.key
  | none => s.pendings

def loadPendingsToNewer (b : ViewBounds) (result : List MessageBuddy) :
    ViewBounds × List MessageBuddy :=
  let loaded :=
    messagesOf (pendingsPage (visibleCount result) (s.pendingsToNewer b.bottomPending))
  (b.withNewerPendings loaded, result ++ loaded)

def fetchToNewer : ViewBounds × List MessageBuddy :=
  let b := s.viewBounds
  match b.bottom with
  | some bottom =>
    let result := messagesPage 0 (s.messages.items.dropWhile fun m => decide (m.id ≤ bottom))
    let b := b.withNewer result
    if visibleCount result < preloadCount then s.loadPendingsToNewer b result else (b, result)
  | none => (b, [])

def fetchBuddies (direction : FetchDirection) : History × List MessageBuddy :=
  let r := match direction with
    | .toOlder => s.fetchToOlder
    | .toNewer => s.fetchToNewer
  ({ s with viewBounds := r.1 }, r.2)

end Fetch

section Init

/-- From the centre on; nothing where there is no centre. -/
def newerOf (messageId : Option Int) : List MessageBuddy :=
  match messageId with
  | some id => s.messages.items.dropWhile fun m => decide (m.id < id)
  | none => []

def olderOf (messageId : Option Int) : List MessageBuddy :=
  match messageId with
  | some id => s.messages.items.takeWhile fun m => decide (m.id < id)
  | none => s.messages.items

def initAtBottom : ViewBounds × List MessageBuddy :=
  let result := messagesOf (pendingsPage 0 s.pendings.reverse)
  let b := ViewBounds.withOlderPendings {} result
  if visibleCount result < preloadCount then
    let loaded := messagesPage (visibleCount result) s.messages.items.reverse
    let b :=
      if visibleCount result < visibleCount (result ++ loaded) then
        { b with bottom := loaded.head?.map (·.id), top := loaded.getLast?.map (·.id) }
      else b
    (b, result ++ loaded)
  else (b, result)

def initAround (older newer : List MessageBuddy) : ViewBounds × List MessageBuddy :=
  let shown := messagesPage 0 newer
  let result := (messagesPage 0 older.reverse).reverse ++ shown
  let b : ViewBounds := { top := result.head?.map (·.id), bottom := result.getLast?.map (·.id) }
  if visibleCount shown < preloadCount then
    let loaded := messagesOf (pendingsPage (visibleCount shown) s.pendings)
    (b.withNewerPendings loaded, result ++ loaded)
  else (b, result)

def getInitMessages (messageId : Option Int) : History × List MessageBuddy :=
  let newer := s.newerOf messageId
  let r := if newer.isEmpty then s.initAtBottom else s.initAround (s.olderOf messageId) newer
  ({ s with viewBounds := r.1 }, sortBuddies r.2)

end Init

/-- A page is read after what is there. -/
def readPage (r : History × List MessageBuddy) (direction : FetchDirection) :
    History × List MessageBuddy :=
  let fetched := r.1.fetchBuddies direction
  (fetched.1, r.2 ++ fetched.2)

/-- All that is returned by the first page and by pages in some directions. -/
def readPages (messageId : Option Int) (directions : List FetchDirection) :
    History × List MessageBuddy :=
  directions.foldl readPage (s.getInitMessages messageId)

/-- All messages of the history. -/
def timeline : List MessageBuddy := s.messages.items ++ messagesOf s.pendings

/-- Nothing is returned twice, and all of it once there are no more pages. -/
def ReadOnce (messageId : Option Int) (directions : List FetchDirection) : Prop :=
  (s.readPages messageId directions).2.Subperm s.timeline ∧
    (((s.readPages messageId directions).1.fetchBuddies .toOlder).2 = [] →
      ((s.readPages messageId directions).1.fetchBuddies .toNewer).2 = [] →
      (s.readPages messageId directions).2.Perm s.timeline)

end History

end Icq.Gui
