import Icq.Gui.History
import Icq.Lib.Run

/-! Everything that changes the history of a dialog besides new messages, and its runs. -/

namespace Icq.Gui
open Icq.Lib

def preloadCount : Nat := 30

def MessageWithKey.setDeleted (x : MessageWithKey) : MessageWithKey :=
  { x with message := x.message.setDeleted true }

namespace History

variable (s : History)

section Delete

def clearPendingsIfPossible : History :=
  if s.pendings.all (·.message.deleted) then
    { s with
      pendings := []
      viewBounds := { s.viewBounds with topPending := none, bottomPending := none } }
  else s

theorem clearPendingsIfPossible_messages : s.clearPendingsIfPossible.messages = s.messages := by
  rw [clearPendingsIfPossible]
  split <;> rfl

def deleteMessage (r : History × List MessageBuddy) (msg : MessageBuddy) :
    History × List MessageBuddy :=
  let s := r.1
  if msg.isPending then
    if s.pendings.any fun x => msg.toKey.isEqual x.key then
      ({ s with
        pendings := modifyFirst (fun x => msg.toKey.isEqual x.key) (·.setDeleted) s.pendings },
        r.2 ++ [msg])
    else r
  else
    match s.messages.find? msg.id with
    | some m => ({ s with messages := s.messages.put (m.setDeleted true) }, r.2 ++ [msg])
    | none => r

def messagesDeleted (buddies : List MessageBuddy) : History × List Signal :=
  if buddies.isEmpty || (s.messages.items.isEmpty && s.pendings.isEmpty) then (s, [])
  else
    let r := buddies.foldl deleteMessage (s, [])
    (r.1.clearPendingsIfPossible, emitUnlessEmpty .deletedBuddies r.2)

def messagesDeletedUpTo (id : Int) : History × List Signal :=
  let deleted := s.messages.items.filter fun m => decide (m.id ≤ id) &&
    !s.viewBounds.isEmpty && s.viewBounds.top.all (fun top => decide (top ≤ m.id)) &&
    s.viewBounds.bottom.any (fun bottom => decide (m.id ≤ bottom))
  let messages := s.messages.filter fun m => !decide (m.id ≤ id)
  let viewBounds :=
    if messages.items.isEmpty then { s.viewBounds with top := none, bottom := none }
    else s.viewBounds
  ({ s with messages, viewBounds }, emitUnlessEmpty .deletedBuddies deleted)

def pendingAutoRemove (key : MessageKey) : History × List Signal :=
  match lowerBound s.pendings key with
  | some entry =>
    if entry.key.isEqual key then
      let pendings := modifyFirst (fun x => !x.key.lessThan key) (·.setDeleted) s.pendings
      (({ s with pendings } : History).clearPendingsIfPossible,
        [.deletedBuddies [entry.message.setDeleted true]])
    else (s, [])
  | none => (s, [])

def messagesClear : History :=
  { s with messages := ∅, pendings := [], viewBounds := {}, executedRequests := {} }

end Delete

section Modify

/-- The core sends no time with a modification. -/
def modifyMessage (r : History × List MessageBuddy) (modification : MessageBuddy) :
    History × List MessageBuddy :=
  let s := r.1
  if !modification.hasText && !modification.chatEvent then r
  else if modification.hasId then
    match s.messages.find? modification.id with
    | some m =>
      let m := { modification with time := m.time }
      ({ s with messages := s.messages.put m }, r.2 ++ [m])
    | none => r
  else if modification.isPending then
    let key := modification.toKey
    match s.pendings.find? fun x => key.isEqual x.key with
    | some entry =>
      let m := { modification with time := entry.message.time }
      ({ s with pendings := modifyFirst (fun x => key.isEqual x.key) (fun _ => ⟨key, m⟩) s.pendings },
        r.2 ++ [m])
    | none => r
  else r

def messagesModified (modifications : List MessageBuddy) : History × List Signal :=
  let r := modifications.foldl modifyMessage (s, [])
  (r.1, emitUnlessEmpty .updatedBuddies r.2)

end Modify

section Init

/-- From the newer message down; the last one of the list is the one behind the older. -/
def holeAbove (older : Int) : List MessageBuddy → Bool
  | [] => false
  | [m] => m.prev != older
  | _ :: prev :: rest => if prev.isVisibleMessage then true else holeAbove older (prev :: rest)

def isVisibleHoleBetween (older newer : Int) : Bool :=
  if older = newer then false
  else if newer < older then true
  else if s.containsMsgId older && s.containsMsgId newer then
    holeAbove older
      (s.messages.items.filter fun m => decide (older < m.id ∧ m.id ≤ newer)).reverse
  else true

/-- Of the last visible messages, two neighbours with a hole between them. -/
def hasHoleAtBottom : Bool :=
  let visible := ((s.messages.items.reverse.filter (·.isVisibleMessage)).take preloadCount).reverse
  (visible.zip visible.tail).any fun p => s.isVisibleHoleBetween p.1.id p.2.id

def hasAllMessagesForInit (id : Int) (mode : ScrollModeType) : Bool :=
  mode == .none && id == -1 &&
    if 0 < s.lastMessageId then s.containsMsgId s.lastMessageId && !s.hasHoleAtBottom
    else s.messages.items.isEmpty && !s.pendings.isEmpty

def inBounds (id : Int) : Bool :=
  match s.viewBounds.top, s.viewBounds.bottom with
  | some top, some bottom => decide (top ≤ id ∧ id ≤ bottom)
  | _, _ => false

/-- The test that the window has, with the lower bound where the upper one would be meant. -/
def pendingInBounds (key : MessageKey) : Bool :=
  match s.viewBounds.topPending, s.viewBounds.bottomPending with
  | some top, some bottom => bottom.le key && top.le key
  | _, _ => false

def lastMessageInView : Bool :=
  s.inBounds s.lastMessageId ||
    (s.messages.items.isEmpty && (s.pendings.getLast?.map (·.key)).any s.pendingInBounds)

/-- `seq` is the number of the request that the core is sent. -/
def initFor (id : Int) (mode : ScrollModeType) (serverResultsOnly : Bool) (seq : Int) :
    History × List Signal :=
  let initParams : InitParams := { centralMessage := id, mode, serverResultsOnly }
  let prevInitParams := s.initParams
  let s := { s with initParams }
  let isRequestContext := decide (0 < id) && serverResultsOnly
  if s.hasAllMessagesForInit id mode then
    let s := { s with waitingInitSeq := none }
    if mode = .none ∧ id = -1 ∧ s.lastMessageInView then (s, [])
    else ({ s with executedRequests := {} }, [.readyInit id mode])
  else if !isRequestContext && s.waitingInitSeq.isSome && prevInitParams == initParams then (s, [])
  else
    let direction := if isRequestContext || 0 < id then .bidirection else .toOlder
    ({ s with
      messages := ∅
      viewBounds := {}
      waitingInitSeq := some seq
      executedRequests := { fetch := [{ seq, id, direction, isContext := isRequestContext }] } }, [])

end Init

end History

inductive HistoryAction
  | messageBuddies (c : Buddies)
  | messagesDeleted (buddies : List MessageBuddy)
  | messagesDeletedUpTo (id : Int)
  | messagesModified (modifications : List MessageBuddy)
  | pendingAutoRemove (key : MessageKey)
  | messagesClear
  | initFor (id : Int) (mode : ScrollModeType) (serverResultsOnly : Bool) (seq : Int)

def HistoryAction.isMessageBuddies : HistoryAction → Bool
  | messageBuddies _ => true
  | _ => false

namespace History

def act (s : History) : HistoryAction → History
  | .messageBuddies c => (s.messageBuddies c).1
  | .messagesDeleted buddies => (s.messagesDeleted buddies).1
  | .messagesDeletedUpTo id => (s.messagesDeletedUpTo id).1
  | .messagesModified modifications => (s.messagesModified modifications).1
  | .pendingAutoRemove key => (s.pendingAutoRemove key).1
  | .messagesClear => s.messagesClear
  | .initFor id mode serverResultsOnly seq => (s.initFor id mode serverResultsOnly seq).1

/-- The states that allowed actions lead to from an empty history. -/
abbrev Reached (allowed : History → HistoryAction → Prop) : History → Prop :=
  Run (fun s action => some (s.act action)) allowed {}

def Reachable : History → Prop := Reached fun _ _ => True

theorem Reachable.act {s : History} (h : Reachable s) (action : HistoryAction) :
    Reachable (s.act action) := Run.step action h trivial rfl

theorem reachable_foldl (actions : List HistoryAction) :
    Reachable (actions.foldl History.act {}) := by
  have hgen : ∀ s, Reachable s → Reachable (actions.foldl History.act s) := by
    induction actions with
    | nil => exact fun s hs => hs
    | cons action actions ih => exact fun s hs => ih _ (hs.act action)
  exact hgen {} .start

end History

end Icq.Gui
