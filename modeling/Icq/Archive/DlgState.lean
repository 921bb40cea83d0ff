import Icq.Archive.HistoryMessage

/-! The state of a dialog, and how what the server says of it is merged into it. -/

namespace Icq.Archive
open Icq.Lib Icq.Common

inductive MessageType where
  | base | fileSharing | sticker | chatEvent | voipEvent
deriving DecidableEq

namespace HistoryMessage

def hasMsgid (m : HistoryMessage) : Bool := decide (0 < m.msgid)

def hasInternalId (m : HistoryMessage) : Bool := !m.internalId.isEmpty

def type (m : HistoryMessage) : MessageType :=
  if m.sticker.isSome then .sticker
  else if m.fileSharing.isSome then .fileSharing
  else if m.chatEvent.isSome then .chatEvent
  else if m.voip.isSome then .voipEvent
  else .base

/-- Files that have one of link and path in common, events of one type, the same text. -/
def contentsEqual (m other : HistoryMessage) : Bool :=
  if m.type ≠ other.type then false
  else
    match m.type with
    | .base => decide (m.text = other.text)
    | .fileSharing =>
      decide (m.fileSharing.map FileSharingData.localPath =
        other.fileSharing.map FileSharingData.localPath) ||
      decide (m.fileSharing.map FileSharingData.uri = other.fileSharing.map FileSharingData.uri)
    | .chatEvent =>
      decide (m.chatEvent.map ChatEventData.type = other.chatEvent.map ChatEventData.type)
    | _ => true

/-- Take over what another message says, and leave what it is. -/
def merge (m other : HistoryMessage) : HistoryMessage :=
  { m with
    text := other.text, quotes := other.quotes, mentions := other.mentions
    snippets := other.snippets, updatePatchVersion := other.updatePatchVersion, url := other.url
    description := other.description
    descriptionFormat := other.descriptionFormat.orElse (fun _ => m.descriptionFormat)
    hideEdit := other.hideEdit, threadId := other.threadId, sticker := other.sticker
    mult := other.mult, voip := other.voip, chat := other.chat, fileSharing := other.fileSharing
    chatEvent := other.chatEvent, sharedContact := other.sharedContact, geo := other.geo
    poll := other.poll, task := other.task, format := other.format }

def setOutgoing (m : HistoryMessage) (outgoing : Bool) : HistoryMessage :=
  { m with flags := { m.flags with outgoing } }

end HistoryMessage

/-- The id of the last message is positive or none at all. -/
structure DlgState where
  unreadCount : Option UInt32 := some 0
  unreadMentionsCount : Option Int32 := some 0
  infoVersion : Option Bytes := none
  membersVersion : Option Bytes := none
  lastReadMention : Int64 := -1
  lastMsgid : Int64 := -1
  lastMsgid_ok : lastMsgid = -1 ∨ 0 < lastMsgid := by decide
  yoursLastRead : Int64 := -1
  delUpTo : Int64 := -1
  theirsLastRead : Int64 := -1
  theirsLastDelivered : Int64 := -1
  hiddenMsgId : Int64 := -1
  visible : Bool := true
  fake : Bool := false
  official : Bool := false
  suspicious : Bool := false
  attention : Bool := false
  stranger : Bool := false
  noRecentsUpdate : Bool := false
  lastMessage : HistoryMessage := {}
  pinnedMessage : HistoryMessage := {}
  parentTopic : Option ParentTopic := none
  friendly : Bytes := []
  historyPatchVersion : PatchVersion := {}
  dlgStatePatchVersion : Bytes := []
  heads : List (Bytes × Bytes) := []

namespace DlgState

theorem noLastMsgid_ok : (-1 : Int64) = -1 ∨ 0 < (-1 : Int64) := .inl rfl

def setLastMsgid (s : DlgState) (value : Int64) : DlgState :=
  if h : value ≤ 0 then { s with lastMsgid := -1, lastMsgid_ok := Or.inl rfl }
  else { s with lastMsgid := value, lastMsgid_ok := Or.inr (not_le.mp h) }

def hasLastMsgid (s : DlgState) : Bool := decide (0 < s.lastMsgid)

def hasDelUpTo (s : DlgState) : Bool := decide (0 < s.delUpTo)

def hasHistoryPatchVersion (s : DlgState) : Bool := !s.historyPatchVersion.versionString.isEmpty

def isEmpty (s : DlgState) : Bool := !s.hasLastMsgid && !s.lastMessage.hasMsgid

end DlgState

structure DlgStateChanges where
  delUpToChanged : Bool := false
  historyPatchVersionChanged : Bool := false
  initialFill : Bool := false
  lastMessageChanged : Bool := false
deriving DecidableEq

/-- What is left of the last message of a dialog that was deleted up to it. `now` is the local
time, if the clock can tell it. -/
def eraseLastMessage (now : Option Int64) (m : HistoryMessage) : HistoryMessage :=
  let m := (m.merge {}).setOutgoing false
  match now with
  | some time => { m with time }
  | none => m

namespace DlgState

def updatesHistoryPatch (s n : DlgState) : Bool :=
  n.hasHistoryPatchVersion &&
    n.historyPatchVersion.versionString != s.historyPatchVersion.versionString

def patchVersionChanged (s n : DlgState) : Bool :=
  !n.dlgStatePatchVersion.isEmpty &&
    s.historyPatchVersion.lessThan { versionString := n.dlgStatePatchVersion }

/-- A state without news about the patches that is behind the own one. -/
def isBehind (s n : DlgState) : Bool :=
  !s.updatesHistoryPatch n && !s.patchVersionChanged n && n.hasLastMsgid && s.hasLastMsgid &&
    decide (n.lastMsgid < s.lastMsgid)

def updatesDelUpTo (s n : DlgState) : Bool := decide (s.delUpTo < n.delUpTo)

def raiseDelUpTo (s n : DlgState) : DlgState :=
  if s.updatesDelUpTo n then { s with delUpTo := n.delUpTo } else s

/-- The other state deletes everything up to the last message, and the own one did not yet. -/
def erasesAll (s n : DlgState) : Bool :=
  s.hasLastMsgid && s.updatesDelUpTo n && decide (s.lastMsgid = n.delUpTo)

def updatesLastMessage (n : DlgState) : Bool :=
  (n.lastMessage.hasMsgid || n.lastMessage.hasInternalId) ||
    (!n.lastMessage.hasMsgid && !n.hasLastMsgid)

def takeFields (s n : DlgState) : DlgState :=
  let s := s.setLastMsgid n.lastMsgid
  { s with
    visible := n.visible, fake := n.fake, official := n.official, suspicious := n.suspicious
    attention := n.attention, theirsLastRead := n.theirsLastRead
    theirsLastDelivered := n.theirsLastDelivered, lastReadMention := n.lastReadMention
    stranger := n.stranger, noRecentsUpdate := n.noRecentsUpdate
    infoVersion := n.infoVersion.orElse (fun _ => s.infoVersion)
    membersVersion := n.membersVersion.orElse (fun _ => s.membersVersion)
    unreadMentionsCount :=
      if n.lastReadMention = n.lastMsgid then some 0
      else n.unreadMentionsCount.orElse (fun _ => s.unreadMentionsCount)
    pinnedMessage := n.pinnedMessage
    hiddenMsgId := if n.hiddenMsgId ≠ -1 then n.hiddenMsgId else s.hiddenMsgId
    friendly := if n.friendly.isEmpty then s.friendly else n.friendly
    unreadCount :=
      if n.yoursLastRead = n.lastMsgid then some 0 else n.unreadCount.orElse (fun _ => s.unreadCount)
    yoursLastRead := n.yoursLastRead
    lastMessage := if n.updatesLastMessage then n.lastMessage else s.lastMessage
    historyPatchVersion :=
      if s.updatesHistoryPatch n then n.historyPatchVersion else s.historyPatchVersion
    heads := n.heads, parentTopic := n.parentTopic }

/-- Merge what the server says into a state: whether it was taken, the state, and what changed. -/
def mergeState (now : Option Int64) (s n : DlgState) (changes : DlgStateChanges) :
    Bool × DlgState × DlgStateChanges :=
  let changes := { changes with initialFill := s.isEmpty }
  if s.isBehind n then (false, s, changes)
  else
    let changes := { changes with delUpToChanged := s.updatesDelUpTo n }
    let merged := s.raiseDelUpTo n
    if s.erasesAll n then
      (true,
        { merged with
          unreadCount := some 0, attention := false
          lastMessage := eraseLastMessage now merged.lastMessage },
        { changes with lastMessageChanged := true })
    else
      let lastMessageChanged :=
        if n.updatesLastMessage then
          decide (s.lastMessage.msgid ≠ n.lastMessage.msgid) ||
            !s.lastMessage.contentsEqual n.lastMessage
        else changes.lastMessageChanged
      (true, merged.takeFields n,
        { changes with
          lastMessageChanged, historyPatchVersionChanged := s.updatesHistoryPatch n })

section Progress

variable {now : Option Int64} {s n : DlgState} {changes : DlgStateChanges}

/-- The merged state knows what the server said last. -/
structure Follows (n s : DlgState) : Prop where
  lastMsgid : s.lastMsgid = n.lastMsgid
  yoursLastRead : s.yoursLastRead = n.yoursLastRead
  theirsLastRead : s.theirsLastRead = n.theirsLastRead
  historyPatchVersion : n.hasHistoryPatchVersion = true →
    s.historyPatchVersion.versionString = n.historyPatchVersion.versionString

@[simp] theorem setLastMsgid_lastMsgid (s n : DlgState) :
    (s.setLastMsgid n.lastMsgid).lastMsgid = n.lastMsgid := by
  unfold setLastMsgid
  split
  · rename_i hle
    rcases n.lastMsgid_ok with h | h
    · rw [h]
    · exact absurd hle (not_le.mpr h)
  · rfl

theorem takeFields_historyPatchVersion (hn : n.hasHistoryPatchVersion = true) :
    (s.takeFields n).historyPatchVersion.versionString = n.historyPatchVersion.versionString := by
  change (if (s.setLastMsgid n.lastMsgid).updatesHistoryPatch n then n.historyPatchVersion
    else (s.setLastMsgid n.lastMsgid).historyPatchVersion).versionString = _
  split
  · rfl
  · rename_i hsame
    simp only [updatesHistoryPatch, hn, Bool.true_and, bne_iff_ne, ne_eq, not_not] at hsame
    exact hsame.symm

theorem takeFields_follows (s n : DlgState) : Follows n (s.takeFields n) where
  lastMsgid := setLastMsgid_lastMsgid s n
  yoursLastRead := rfl
  theirsLastRead := rfl
  historyPatchVersion := takeFields_historyPatchVersion

/-- A state is accepted unless it is behind. -/
theorem mergeState_accepted :
    (mergeState now s n changes).1 = true ↔ s.isBehind n = false := by
  unfold mergeState
  cases s.isBehind n <;> cases s.erasesAll n <;> simp

theorem raiseDelUpTo_delUpTo (s n : DlgState) :
    (s.raiseDelUpTo n).delUpTo = max s.delUpTo n.delUpTo := by
  by_cases hlt : s.delUpTo < n.delUpTo
  · simp [raiseDelUpTo, updatesDelUpTo, hlt, max_eq_right (le_of_lt hlt)]
  · simp [raiseDelUpTo, updatesDelUpTo, hlt, max_eq_left (not_lt.mp hlt)]

theorem takeFields_delUpTo (s n : DlgState) : (s.takeFields n).delUpTo = s.delUpTo := by
  change (s.setLastMsgid n.lastMsgid).delUpTo = _
  unfold setLastMsgid
  split <;> rfl

theorem mergeState_delUpTo (h : s.isBehind n = false) :
    (mergeState now s n changes).2.1.delUpTo = max s.delUpTo n.delUpTo := by
  rw [← raiseDelUpTo_delUpTo]
  unfold mergeState
  cases he : s.erasesAll n with
  | true => simp [h]
  | false => simp [h, takeFields_delUpTo]

theorem follows_raiseDelUpTo : Follows n (s.raiseDelUpTo n) ↔ Follows n s := by
  unfold raiseDelUpTo
  split
  · exact ⟨fun h => ⟨h.1, h.2, h.3, h.4⟩, fun h => ⟨h.1, h.2, h.3, h.4⟩⟩
  · exact Iff.rfl

theorem mergeState_of_erasesAll (h : s.isBehind n = false) (he : s.erasesAll n = true) :
    Follows n (mergeState now s n changes).2.1 ↔ Follows n s := by
  refine Iff.trans ?_ follows_raiseDelUpTo
  unfold mergeState
  simp only [h, he, Bool.false_eq_true, if_false, if_true]
  exact ⟨fun h => ⟨h.1, h.2, h.3, h.4⟩, fun h => ⟨h.1, h.2, h.3, h.4⟩⟩

theorem mergeState_of_not_erasesAll (h : s.isBehind n = false) (he : s.erasesAll n = false) :
    Follows n (mergeState now s n changes).2.1 := by
  unfold mergeState
  simp only [h, he, Bool.false_eq_true, if_false]
  exact takeFields_follows _ n

/-- An accepted state is followed, unless it deletes everything there is: then the fields of the old
state stay, whatever they are. -/
theorem mergeState_follows_iff (h : (mergeState now s n changes).1 = true) :
    (Follows n (mergeState now s n changes).2.1 ∧
      (mergeState now s n changes).2.1.delUpTo = max s.delUpTo n.delUpTo) ↔
    (s.erasesAll n = true → Follows n s) := by
  have hb := mergeState_accepted.mp h
  rw [mergeState_delUpTo hb]
  cases he : s.erasesAll n with
  | true =>
    rw [mergeState_of_erasesAll hb he]
    simp
  | false => simpa using mergeState_of_not_erasesAll hb he

/-- A newer message is taken over, and what is deleted of the older ones. -/
theorem mergeState_follows_message :
    Follows { lastMsgid := 7, delUpTo := 3 }
        (mergeState none { lastMsgid := 5, delUpTo := 2 } { lastMsgid := 7, delUpTo := 3 } {}).2.1 ∧
      (mergeState none { lastMsgid := 5, delUpTo := 2 } { lastMsgid := 7, delUpTo := 3 } {}).2.1.delUpTo =
        max 2 3 :=
  (mergeState_follows_iff (s := { lastMsgid := 5, delUpTo := 2 })
    (n := { lastMsgid := 7, delUpTo := 3 }) (by decide)).mpr fun herases => nomatch herases

/-- Deleted up to the last message that is known here, and followed by a newer one. -/
theorem mergeState_forgets_message :
    (mergeState none { lastMsgid := 5 } { lastMsgid := 7, delUpTo := 5 } {}).1 = true ∧
      (mergeState none { lastMsgid := 5 } { lastMsgid := 7, delUpTo := 5 } {}).2.1.lastMsgid = 5 := by
  decide

end Progress

end DlgState

end Icq.Archive
