import Icq.Gui.MessageKey
import Icq.Lib.FirstMatch
import Icq.Lib.KeyMap
import Mathlib.Data.List.Sort
import Mathlib.Order.Lattice

/-! The history of a dialog in the window: delivered messages by id, pending ones in a sorted
vector, and the bounds of what is shown. -/

namespace Icq.Gui
open Icq.Lib Icq.Common

/-- Why messages come: `Ui::MessagesBuddiesOpt`. -/
inductive MessagesBuddiesOpt
  | requested
  | updated
  | requestedByIds
  | fromServer
  | dlgState
  | intro
  | pending
  | init
  | messageStatus
  | search
  | context
deriving DecidableEq

def isCommonDlgState : MessagesBuddiesOpt → Bool
  | .dlgState | .messageStatus | .intro | .init => true
  | _ => false

inductive ScrollModeType
  | none
  | search
  | unread
  | toDeleted
  | background
  | multiselect
deriving DecidableEq

inductive RequestDirection
  | toNewer
  | toOlder
  | bidirection
deriving DecidableEq

inductive FetchDirection
  | toNewer
  | toOlder
deriving DecidableEq

structure MessageWithKey where
  key : MessageKey
  message : MessageBuddy
deriving DecidableEq

def MessageBuddy.withKey (m : MessageBuddy) : MessageWithKey := ⟨m.toKey, m⟩

/-- `std::optional` puts nothing below every key, and no key below nothing. -/
def leKey (bound : Option MessageKey) (key : MessageKey) : Bool := bound.all (·.le key)

def keyLe (key : MessageKey) (bound : Option MessageKey) : Bool := bound.any (key.le ·)

def keyEq (bound : Option MessageKey) (key : MessageKey) : Bool := bound.any (·.isEqual key)

def minKey (a b : MessageKey) : MessageKey := if b.lessThan a then b else a

def maxKey (a b : MessageKey) : MessageKey := if a.lessThan b then b else a

structure ViewBounds where
  top : Option Int := none
  bottom : Option Int := none
  topPending : Option MessageKey := none
  bottomPending : Option MessageKey := none
deriving DecidableEq

namespace ViewBounds

def hasPendings (b : ViewBounds) : Bool := b.topPending.isSome && b.bottomPending.isSome

def isEmpty (b : ViewBounds) : Bool := b.top.isNone && b.bottom.isNone

/-- Move the bounds outwards to two ids. -/
def extend (b : ViewBounds) (front back : Int) : ViewBounds :=
  { b with
    top := some (min front (b.top.getD front))
    bottom := some (max back (b.bottom.getD back)) }

def extendPending (b : ViewBounds) (front back : MessageKey) : ViewBounds :=
  { b with
    topPending := some (minKey front (b.topPending.getD front))
    bottomPending := some (maxKey back (b.bottomPending.getD back)) }

end ViewBounds

structure InitParams where
  centralMessage : Int := -1
  mode : ScrollModeType := .none
  serverResultsOnly : Bool := false
deriving DecidableEq

structure ExecutedByIdRequest where
  seq : Int
  ids : List Int
deriving DecidableEq

structure ExecutedFetchRequest where
  seq : Int := 0
  id : Int := -1
  direction : RequestDirection := .toOlder
  isContext : Bool := false
deriving DecidableEq

structure ExecutedRequests where
  byIds : List ExecutedByIdRequest := []
  fetch : List ExecutedFetchRequest := []

structure History where
  messages : KeyMap MessageBuddy.id := ∅
  pendings : List MessageWithKey := []
  viewBounds : ViewBounds := {}
  waitingInitSeq : Option Int := none
  lastMessageId : Int := -1
  initParams : InitParams := {}
  executedRequests : ExecutedRequests := {}

/-- What the history tells the page. -/
inductive Signal
  | readyInit (id : Int) (mode : ScrollModeType)
  | updatedBuddies (buddies : List MessageBuddy)
  | insertedBuddies (buddies : List MessageBuddy)
  | dlgStateBuddies (buddies : List MessageBuddy)
  | deletedBuddies (buddies : List MessageBuddy)
  | pendingResolves (inView all : List MessageBuddy)
  | canFetch (direction : FetchDirection)
  | newMessagesReceived (ids : List Int)

/-- The arguments of `messageBuddies`. -/
structure Buddies where
  buddies : List MessageBuddy
  option : MessagesBuddiesOpt
  havePending : Bool := false
  seq : Int := 0
  lastMsgid : Int := -1

/-- The vector sorted by key. -/
def sortPendings (pendings : List MessageWithKey) : List MessageWithKey :=
  pendings.insertionSort fun a b => b.key.lessThan a.key = false

def sortBuddies (buddies : List MessageBuddy) : List MessageBuddy :=
  buddies.insertionSort fun a b => b.toKey.lessThan a.toKey = false

/-- `std::lower_bound` in the sorted vector: its first entry that is not below the key. -/
def lowerBound (pendings : List MessageWithKey) (key : MessageKey) : Option MessageWithKey :=
  pendings.find? fun x => !x.key.lessThan key

def incomingIdsGreaterThan (buddies : List MessageBuddy) (id : Int) : List Int :=
  (buddies.filter fun m => !m.outgoing && decide (id < m.id) && m.isVisibleMessage).map (·.id)

/-- A signal for a list that is not empty. -/
def emitUnlessEmpty {α : Type} (signal : List α → Signal) (l : List α) : List Signal :=
  if l.isEmpty then [] else [signal l]

structure PendingsInsertResult where
  pendings : List MessageWithKey
  inserted : List MessageBuddy := []
  updated : List MessageBuddy := []

structure BuddiesInsertResult where
  messages : KeyMap MessageBuddy.id
  pendings : List MessageWithKey
  inserted : List MessageBuddy := []
  updated : List MessageBuddy := []
  pendingResolves : List MessageBuddy := []
  canFetch : Bool := false

namespace History

variable (s : History)

def containsMsgId (id : Int) : Bool := (s.messages.find? id).isSome

def containsInternalId (internalId : QString) : Bool :=
  s.messages.items.any fun m => m.internalId == internalId

section Insert

/-- One message of the pending range. A known one is replaced only by a versioned copy. -/
def insertPending (r : PendingsInsertResult) (msg : MessageBuddy) : PendingsInsertResult :=
  if r.pendings.any fun x => msg.toKey.isEqual x.key then
    if msg.updatePatchVersion.versionString ≠ [] ∨ 0 < msg.updatePatchVersion.offlineVersion then
      { r with
        pendings := modifyFirst (fun x => msg.toKey.isEqual x.key) (fun _ => msg.withKey) r.pendings
        updated := r.updated ++ [msg] }
    else r
  else if s.containsInternalId msg.internalId then r
  else { r with pendings := r.pendings ++ [msg.withKey], inserted := r.inserted ++ [msg] }

def insertPendings (range : List MessageBuddy) : PendingsInsertResult :=
  let r := range.foldl s.insertPending { pendings := s.pendings }
  if r.inserted.isEmpty then r else { r with pendings := sortPendings r.pendings }

/-- The entry of an own message that is confirmed goes. -/
def resolvePending (r : BuddiesInsertResult) (msg : MessageBuddy) : BuddiesInsertResult :=
  { r with
    pendings := r.pendings.eraseP fun x => msg.toKey.isEqual x.key
    pendingResolves := r.pendingResolves ++ [msg] }

/-- The null entry that `messages_[msg->Id_]` makes counts for `containsMsgId`. -/
def isPrevKnown (messages : KeyMap MessageBuddy.id) (msg : MessageBuddy) : Bool :=
  msg.prev == -1 || msg.prev == msg.id || (messages.find? msg.prev).isSome

def insertBuddy (option : MessagesBuddiesOpt) (r : BuddiesInsertResult) (msg : MessageBuddy) :
    BuddiesInsertResult :=
  let isPendingResolve := msg.outgoing && r.pendings.any fun x => msg.toKey.isEqual x.key
  let r := if isPendingResolve then resolvePending r msg else r
  match r.messages.find? msg.id with
  | some currentMsg =>
    if currentMsg.needUpdateWith msg then
      { r with
        messages := r.messages.put msg
        updated := if isPendingResolve then r.updated else r.updated ++ [msg] }
    else r
  | none =>
    if isCommonDlgState option && !isPrevKnown r.messages msg then { r with canFetch := true }
    else
      { r with
        messages := r.messages.put msg
        inserted := if isPendingResolve then r.inserted else r.inserted ++ [msg] }

def insertBuddies (messages : KeyMap MessageBuddy.id) (pendings : List MessageWithKey)
    (range : List MessageBuddy) (option : MessagesBuddiesOpt) : BuddiesInsertResult :=
  range.foldl (insertBuddy option) { messages, pendings }

end Insert

section View

/-- The pending bounds when the message of a pending key within them is confirmed. -/
def moveBounds (pendings : List MessageWithKey) (b : ViewBounds) (key : MessageKey) : ViewBounds :=
  if pendings.isEmpty || (keyEq b.topPending key && b.bottomPending.any (key.isEqual ·)) then
    { b with topPending := none, bottomPending := none }
  else if keyEq b.topPending key then
    match b.topPending.bind (lowerBound pendings) with
    | some entry => { b with topPending := some entry.key }
    | none => b
  else if keyEq b.bottomPending key then
    match pendings.reverse.find? fun x => x.key.lessThan key with
    | some entry => { b with bottomPending := some entry.key }
    | none => b
  else b

def resolveInView (pendings : List MessageWithKey) (r : ViewBounds × List MessageBuddy)
    (msg : MessageBuddy) : ViewBounds × List MessageBuddy :=
  let key := msg.toKey.toPurePending
  if leKey r.1.topPending key && keyLe key r.1.bottomPending then
    ((moveBounds pendings r.1 key).extend msg.id msg.id, r.2 ++ [msg])
  else r

/-- The view bounds after the confirmed messages, and which of them are in view. -/
def resolvesInView (pendings : List MessageWithKey) (b : ViewBounds)
    (resolves : List MessageBuddy) : ViewBounds × List MessageBuddy :=
  if b.hasPendings then resolves.foldl (resolveInView pendings) (b, []) else (b, [])

/-- The `prev` test is there because the prev id of a deleted message is not fixed. -/
def isInView (b : ViewBounds) (msg : MessageBuddy) : Bool :=
  match b.top, b.bottom with
  | some top, some bottom =>
    decide (top ≤ msg.id ∧ (msg.id ≤ bottom ∨ msg.prev ≤ bottom)) || bottom == msg.prev
  | _, _ => false

def showInserted (r : ViewBounds × List MessageBuddy) (msg : MessageBuddy) :
    ViewBounds × List MessageBuddy :=
  if isInView r.1 msg then
    (r.1.extend (r.2.head?.getD msg).id msg.id, r.2 ++ [msg])
  else r

/-- The inserted messages that are shown, and the bounds moved to them. -/
def needToInsert (messages : KeyMap MessageBuddy.id) (b : ViewBounds)
    (inserted : List MessageBuddy) : ViewBounds × List MessageBuddy :=
  match inserted.head?, inserted.getLast? with
  | some front, some back =>
    let topPrev := (b.top.bind messages.find?).map (·.prev)
    if b.isEmpty || b.bottom == some front.prev || topPrev == some back.id then
      (b.extend front.id back.id, inserted)
    else inserted.foldl showInserted (b, [])
  | _, _ => (b, [])

def showPendings (b : ViewBounds) (inserted : List MessageBuddy) : ViewBounds :=
  match inserted.head?, inserted.getLast? with
  | some front, some back => b.extendPending front.toKey back.toKey
  | _, _ => b

def hasMessagesInBounds (messages : List MessageBuddy) (b : ViewBounds) : Bool :=
  messages.any fun m => match b.top, b.bottom with
    | some top, some bottom => decide (m.id < bottom ∧ top < m.id)
    | none, some bottom => decide (m.id < bottom)
    | _, none => false

/-- The new bounds and the signals. -/
def processInserted (pend : PendingsInsertResult) (res : BuddiesInsertResult)
    (option : MessagesBuddiesOpt) (seq prevLastId : Int) : ViewBounds × List Signal :=
  let updated := emitUnlessEmpty .updatedBuddies res.updated
  let hasRequestedInside :=
    option == .requested && hasMessagesInBounds res.inserted s.viewBounds
  if isCommonDlgState option || option == .pending || hasRequestedInside then
    let resolved := resolvesInView res.pendings s.viewBounds res.pendingResolves
    let resolves :=
      if res.pendingResolves.isEmpty then [] else [.pendingResolves resolved.2 res.pendingResolves]
    let shown := needToInsert res.messages resolved.1 res.inserted
    let need := shown.2 ++ pend.inserted
    let news := emitUnlessEmpty .newMessagesReceived (incomingIdsGreaterThan (sortBuddies need) prevLastId)
    (showPendings shown.1 pend.inserted,
      updated ++ resolves ++ emitUnlessEmpty .updatedBuddies pend.updated ++
        if need.isEmpty then [] else news ++ [.dlgStateBuddies (sortBuddies need)])
  else if res.inserted.isEmpty then (s.viewBounds, updated)
  else
    let fetch := match (s.executedRequests.fetch.find? (·.seq == seq)).map (·.direction) with
      | some .toNewer => [Signal.canFetch .toNewer]
      | some .toOlder => [.canFetch .toOlder]
      | _ => []
    (s.viewBounds, updated ++ fetch)

end View

section Requests

def needSkipSeq (seq : Int) : Bool :=
  s.executedRequests.byIds.all (·.seq != seq) && s.executedRequests.fetch.all (·.seq != seq)

def removeSeq (seq : Int) : History :=
  let r := s.executedRequests
  { s with executedRequests :=
      if r.fetch.any (·.seq == seq) then { r with fetch := r.fetch.eraseP (·.seq == seq) }
      else { r with byIds := r.byIds.eraseP (·.seq == seq) } }

/-- A channel or a thread of one message is shown at its first overview. -/
def isFirstOverview (c : Buddies) : Bool :=
  c.option == .init && decide (0 < c.seq) &&
    match c.buddies.head? with
    | some front => decide ((s.messages.last?.map (·.id)).getD (-1) ≤ front.prev)
    | none => false

/-- The answer that the history waits for to be initialised. -/
def isRequiredWaitingSeq (seq : Int) : Bool := s.waitingInitSeq == some seq

def needIgnoreMessages (c : Buddies) : Bool :=
  if s.waitingInitSeq.isSome && !s.isRequiredWaitingSeq c.seq then true
  else if s.isFirstOverview c then false
  else c.option != .pending && decide (0 < c.seq) && s.needSkipSeq c.seq

end Requests

section ByIds

/-- Between the first and the last message, which the loop does not move. -/
def processRequestedByIds (buddies : List MessageBuddy) : History × List Signal :=
  match s.messages.first?, s.messages.last? with
  | some first, some last =>
    let taken := buddies.filter fun m => decide (first.id ≤ m.id ∧ m.id ≤ last.id)
    let inserted := taken.filter fun m => match s.viewBounds.top, s.viewBounds.bottom with
      | some top, some bottom => decide (top ≤ m.id ∧ m.id ≤ bottom)
      | _, _ => false
    ({ s with messages := taken.foldl KeyMap.put s.messages },
      emitUnlessEmpty .insertedBuddies inserted)
  | _, _ => (s, [])

structure UpdateResult where
  messages : KeyMap MessageBuddy.id
  updated : List MessageBuddy := []
  inserted : List MessageBuddy := []

def updateMessage (r : UpdateResult) (msg : MessageBuddy) : UpdateResult :=
  match r.messages.find? msg.id with
  | some currentMsg =>
    if msg.updatePatchVersion.lessThan currentMsg.updatePatchVersion then r
    else { r with messages := r.messages.put msg, updated := r.updated ++ [msg] }
  | none => { r with inserted := r.inserted ++ [msg] }

def processUpdatedMessage (buddies : List MessageBuddy) : History × List Signal :=
  let r := buddies.foldl updateMessage { messages := s.messages }
  let s := { s with messages := r.messages }
  let updated := emitUnlessEmpty .updatedBuddies r.updated
  if r.inserted.isEmpty then (s, updated)
  else
    let byIds := s.processRequestedByIds r.inserted
    (byIds.1, updated ++ byIds.2)

end ByIds

section Init

/-- The nearest visible message behind an id, or else before it. -/
def firstVisible (id : Int) : Option Int :=
  match s.messages.items.find? fun m => decide (id < m.id) && m.isVisibleMessage with
  | some m => some m.id
  | none => (s.messages.items.reverse.find? fun m => decide (m.id < id) && m.isVisibleMessage).map
      (·.id)

/-- Where to scroll instead when the message is deleted or not there. -/
def fixIdAndMode (id : Int) (mode : ScrollModeType) : Option (Int × ScrollModeType) :=
  if id ≤ 0 ∨ mode = .unread then none
  else
    let fixed := match s.messages.find? id, s.messages.lowerBound? id, s.messages.last? with
      | some m, _, _ => if m.isVisibleMessage then none else s.firstVisible id
      | none, some m, _ => if m.isVisibleMessage then some m.id else s.firstVisible m.id
      | none, none, some m => s.firstVisible m.id
      | none, none, none => none
    fixed.map fun id => (id, .toDeleted)

end Init

/-- The answers by range, the dialog states and the pending lists. -/
def insertMessages (c : Buddies) (prevLastId : Int) : History × List Signal :=
  let isRequired := s.isRequiredWaitingSeq c.seq
  let s := if isRequired then { s with messages := ∅, viewBounds := {} } else s
  let pendingIdx :=
    if c.havePending || c.option == .pending then c.buddies.findIdx (·.isPending)
    else c.buddies.length
  let pend := s.insertPendings (c.buddies.drop pendingIdx)
  let res := insertBuddies s.messages pend.pendings (c.buddies.take pendingIdx) c.option
  let inserted : History := { s with messages := res.messages, pendings := res.pendings }
  if isRequired then
    let centre := (inserted.fixIdAndMode s.initParams.centralMessage s.initParams.mode).getD
      (s.initParams.centralMessage, s.initParams.mode)
    ({ inserted with waitingInitSeq := none }, [.readyInit centre.1 centre.2])
  else
    let r := s.processInserted pend res c.option c.seq prevLastId
    ({ inserted with viewBounds := r.1 }, r.2)

def messageBuddies (c : Buddies) : History × List Signal :=
  let prevLastId := s.lastMessageId
  let lastBuddyId := (c.buddies.getLast?.map (·.id)).getD (-1)
  let s := { s with lastMessageId := max s.lastMessageId (max c.lastMsgid lastBuddyId) }
  let r :=
    if s.needIgnoreMessages c then
      (s, emitUnlessEmpty .newMessagesReceived (incomingIdsGreaterThan c.buddies prevLastId))
    else if c.option = .updated then s.processUpdatedMessage c.buddies
    else if c.option = .requestedByIds ∨ c.option = .search then s.processRequestedByIds c.buddies
    else s.insertMessages c prevLastId
  (r.1.removeSeq c.seq, r.2)

end History

end Icq.Gui
