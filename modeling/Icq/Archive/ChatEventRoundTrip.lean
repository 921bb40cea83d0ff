import Icq.Archive.ChatEvent
import Icq.Archive.PartsRoundTrip

namespace Icq.Archive
open Icq.Lib Icq.Tools Icq.Tasks Tlv

/-- The id of the task is not written. -/
def storedChange (c : TaskChange) : TaskChange :=
  { title := c.title.map textValue, assignee := c.assignee.map textValue
    endTime := c.endTime.map (fun t => TimePoint.fromSeconds t.toSeconds)
    status := c.status.map storedStatus }

namespace ChatEventData

section Stored

def textIf (applies : Bool) (text : Bytes) : Bytes := if applies then textValue text else []

def membersIf (applies : Bool) (members : List Bytes) : List Bytes :=
  if applies then members.map textValue else []

/-- An event keeps what belongs to its type. -/
def stored (unset : Bool) (e : ChatEventData) : ChatEventData :=
  { type := e.type, isCaptchaPresent := e.isCaptchaPresent, isChannel := e.isChannel
    senderAimid := textIf (hasSenderAimid e.type) e.senderAimid
    senderFriendly := textIf (hasSenderAimid e.type) e.senderFriendly
    members := membersIf (hasMchatMembers e.type) e.members
    membersFriendly := membersIf (hasMchatMembers e.type) e.membersFriendly
    requestedBy := textIf (hasMchatMembers e.type) e.requestedBy
    requestedByFriendly := textIf (hasMchatMembers e.type) e.requestedByFriendly
    newName := textIf (e.type == ChatEventType.chatNameModified) e.newName
    newDescription := textIf (e.type == ChatEventType.chatDescriptionModified) e.newDescription
    newRules := textIf (e.type == ChatEventType.chatRulesModified) e.newRules
    newStamp := textIf (e.type == ChatEventType.chatStampModified) e.newStamp
    newJoinModeration := unset, newPublic := unset, newTrustRequired := unset
    newThreadsEnabled :=
      if e.type == ChatEventType.chatThreadsEnabledModified then e.newThreadsEnabled else unset
    generic := textIf (hasGenericText e.type) e.generic
    senderStatus := textIf (hasStatusReply e.type) e.senderStatus
    ownerStatus := textIf (hasStatusReply e.type) e.ownerStatus
    senderStatusDescription := textIf (hasStatusReply e.type) e.senderStatusDescription
    ownerStatusDescription := textIf (hasStatusReply e.type) e.ownerStatusDescription
    editor := textIf (e.type == ChatEventType.taskChanged) e.editor
    change := if e.type == ChatEventType.taskChanged then storedChange e.change else {} }

end Stored

section Items

variable (e : ChatEventData) (tag : UInt32)

@[simp] theorem getItem_sender :
    e.serializeSender.getItem tag =
      if hasSenderAimid e.type then
        TlvPack.getItem [.ofText mfChatEventSenderAimid e.senderAimid,
          .ofText mfChatEventSenderFriendly e.senderFriendly] tag
      else none := by
  unfold serializeSender
  split <;> rfl

@[simp] theorem getItem_mchatMembers :
    e.serializeMchatMembers.getItem tag =
      if hasMchatMembers e.type then
        TlvPack.getItem [.ofPack mfChatEventMchatMembers (numbered e.membersFriendly),
          .ofPack mfChatEventMchatMembersAimids (numbered e.members),
          .ofText mfChatRequestedBy e.requestedBy,
          .ofText mfChatRequestedByFriendly e.requestedByFriendly] tag
      else none := by
  unfold serializeMchatMembers
  split <;> rfl

@[simp] theorem getItem_chatModifications :
    e.serializeChatModifications.getItem tag =
      if hasChatModifications e.type then
        TlvPack.getItem
          (pushIf (e.type == ChatEventType.chatNameModified)
              (.ofText mfChatEventNewChatName e.newName) ++
            (pushIf (e.type == ChatEventType.chatDescriptionModified)
                (.ofText mfChatEventNewChatDescription e.newDescription) ++
              (pushIf (e.type == ChatEventType.chatRulesModified)
                  (.ofText mfChatEventNewChatRules e.newRules) ++
                (pushIf (e.type == ChatEventType.chatStampModified)
                    (.ofText mfChatEventNewChatStamp e.newStamp) ++
                  pushIf (e.type == ChatEventType.chatThreadsEnabledModified)
                    (.ofScalar mfChatEventThreadsEnabled e.newThreadsEnabled))))) tag
      else none := by
  unfold serializeChatModifications
  split <;> rfl

@[simp] theorem getItem_statusReply :
    e.serializeStatusReply.getItem tag =
      if hasStatusReply e.type then
        TlvPack.getItem [.ofText mfChatEventSenderStatus e.senderStatus,
          .ofText mfChatEventOwnerStatus e.ownerStatus,
          .ofText mfChatEventSenderStatusDesctiprion e.senderStatusDescription,
          .ofText mfChatEventOwnerStatusDescription e.ownerStatusDescription] tag
      else none := by
  unfold serializeStatusReply
  split <;> rfl

@[simp] theorem getItem_taskChange :
    e.serializeTaskChange.getItem tag =
      if e.type == ChatEventType.taskChanged then
        TlvPack.getItem
          (pushSome e.change.title (.ofText mfTaskTitle) ++
            (pushSome e.change.assignee (.ofText mfTaskAssignee) ++
              (pushSome e.change.endTime (fun t => .ofScalar mfTaskEndTime t.toSeconds) ++
                (pushSome e.change.status (fun s => .ofText mfTaskStatus s.toText) ++
                  [.ofText mfChatEventTaskEditor e.editor])))) tag
      else none := by
  unfold serializeTaskChange
  split <;> rfl

end Items

section Reading

variable {pack : TlvPack} {applies : Bool} {tag : UInt32} {text : Bytes} {members : List Bytes}

theorem readText_eq (h : applies = true → pack.getItem tag = some (.ofText tag text)) :
    readText pack applies tag = textIf applies text := by
  cases applies with
  | false => rfl
  | true => simp [readText, textIf, getText, h rfl]

theorem readModified_eq (h : applies = true → pack.getItem tag = some (.ofText tag text)) :
    readModified pack applies tag = .ok (textIf applies text) := by
  cases applies with
  | false => rfl
  | true => simp [readModified, textIf, getText, h rfl, Outcome.deref]

theorem allMembers_some (members : List Bytes) : allMembers (members.map some) = .ok members := by
  induction members with
  | nil => rfl
  | cons m members ih =>
    rw [List.map_cons, allMembers, Outcome.deref, Outcome.ok_bind, ih]
    rfl

theorem readMchatMembers_eq (hfits : Fits pack)
    (h : applies = true → pack.getItem tag = some (.ofPack tag (numbered members))) :
    readMchatMembers pack applies tag = .ok (membersIf applies members) := by
  unfold readMchatMembers
  cases applies with
  | false => cases getNested pack tag <;> rfl
  | true =>
    have hitem := h rfl
    have hm : Tlv.ofPack tag (numbered members) ∈ pack := List.mem_of_find?_eq_some hitem
    have hread := readNumbered_numbered (length_members hfits hm)
    simp only [getNested, hitem, Option.map_some, hfits.getPack hm, if_true, hread, membersIf]
    rw [← allMembers_some, List.map_map]
    rfl

end Reading

section Event

variable {e : ChatEventData}

theorem items_sender (hs : hasSenderAimid e.type = true) :
    e.serialize.getItem mfChatEventSenderAimid =
        some (.ofText mfChatEventSenderAimid e.senderAimid) ∧
      e.serialize.getItem mfChatEventSenderFriendly =
        some (.ofText mfChatEventSenderFriendly e.senderFriendly) := by
  constructor <;>
    simp +decide [serialize, TlvPack.getItem_append, TlvPack.getItem_cons, hs]

theorem items_mchatMembers (hs : hasMchatMembers e.type = true) :
    e.serialize.getItem mfChatEventMchatMembers =
        some (.ofPack mfChatEventMchatMembers (numbered e.membersFriendly)) ∧
      e.serialize.getItem mfChatEventMchatMembersAimids =
        some (.ofPack mfChatEventMchatMembersAimids (numbered e.members)) ∧
      e.serialize.getItem mfChatRequestedBy = some (.ofText mfChatRequestedBy e.requestedBy) ∧
      e.serialize.getItem mfChatRequestedByFriendly =
        some (.ofText mfChatRequestedByFriendly e.requestedByFriendly) := by
  refine ⟨?_, ?_, ?_, ?_⟩ <;>
    simp +decide [serialize, TlvPack.getItem_append, TlvPack.getItem_cons, hs]

theorem items_statusReply (hs : hasStatusReply e.type = true) :
    e.serialize.getItem mfChatEventSenderStatus =
        some (.ofText mfChatEventSenderStatus e.senderStatus) ∧
      e.serialize.getItem mfChatEventOwnerStatus =
        some (.ofText mfChatEventOwnerStatus e.ownerStatus) ∧
      e.serialize.getItem mfChatEventSenderStatusDesctiprion =
        some (.ofText mfChatEventSenderStatusDesctiprion e.senderStatusDescription) ∧
      e.serialize.getItem mfChatEventOwnerStatusDescription =
        some (.ofText mfChatEventOwnerStatusDescription e.ownerStatusDescription) := by
  refine ⟨?_, ?_, ?_, ?_⟩ <;>
    simp +decide [serialize, TlvPack.getItem_append, TlvPack.getItem_cons, hs]

/-- A modification says the new value of what it is about. -/
theorem items_chatModifications (e : ChatEventData) :
    ((e.type == ChatEventType.chatNameModified) = true →
        e.serialize.getItem mfChatEventNewChatName =
          some (.ofText mfChatEventNewChatName e.newName)) ∧
      ((e.type == ChatEventType.chatDescriptionModified) = true →
        e.serialize.getItem mfChatEventNewChatDescription =
          some (.ofText mfChatEventNewChatDescription e.newDescription)) ∧
      ((e.type == ChatEventType.chatRulesModified) = true →
        e.serialize.getItem mfChatEventNewChatRules =
          some (.ofText mfChatEventNewChatRules e.newRules)) ∧
      ((e.type == ChatEventType.chatStampModified) = true →
        e.serialize.getItem mfChatEventNewChatStamp =
          some (.ofText mfChatEventNewChatStamp e.newStamp)) := by
  refine ⟨fun he => ?_, fun he => ?_, fun he => ?_, fun he => ?_⟩ <;>
    simp +decide [serialize, TlvPack.getItem_append, TlvPack.getItem_cons, eq_of_beq he]

theorem readThreadsEnabled_serialize (unset : Bool) (e : ChatEventData) :
    readThreadsEnabled unset e.serialize (e.type == ChatEventType.chatThreadsEnabledModified) =
      .ok (if e.type == ChatEventType.chatThreadsEnabledModified then e.newThreadsEnabled
        else unset) := by
  by_cases he : e.type = ChatEventType.chatThreadsEnabledModified
  · simp +decide [readThreadsEnabled, serialize, getScalar, TlvPack.getItem_append,
      TlvPack.getItem_cons, he, Outcome.deref]
  · simp [readThreadsEnabled, he]

theorem readTaskChange_serialize (e : ChatEventData) :
    readTaskChange e.serialize (e.type == ChatEventType.taskChanged) =
      if e.type == ChatEventType.taskChanged then storedChange e.change else {} := by
  by_cases he : e.type = ChatEventType.taskChanged
  · have hitem (tag : UInt32)
        (htag : tag ∈ [mfTaskTitle, mfTaskAssignee, mfTaskEndTime, mfTaskStatus]) :
        e.serialize.getItem tag = e.serializeTaskChange.getItem tag := by
      simp only [List.mem_cons, List.not_mem_nil, or_false] at htag
      rcases htag with rfl | rfl | rfl | rfl <;>
        simp +decide [serialize, he, TlvPack.getItem_append, TlvPack.getItem_cons]
    have htitle := hitem mfTaskTitle (by simp)
    have hassignee := hitem mfTaskAssignee (by simp)
    have hend := hitem mfTaskEndTime (by simp)
    have hstatus := hitem mfTaskStatus (by simp)
    simp only [readTaskChange, he, beq_self_eq_true, if_true, getText, getScalar, htitle, hassignee,
      hend, hstatus, getItem_taskChange, TlvPack.getItem_append, getItem_pushSome,
      TlvPack.getItem_cons, TlvPack.getItem_nil]
    obtain ⟨-, title, assignee, endTime, status⟩ := e.change
    cases title <;> cases assignee <;> cases endTime <;> cases status <;>
      simp +decide [storedChange, ofText_toText]
  · simp [readTaskChange, he]

/-- What an event says is read back. -/
theorem unserialize_serialize {unset : Bool} (h : Fits e.serialize) :
    unserialize unset e.serialize = .ok (e.stored unset) := by
  have htype : getScalar Int32 e.serialize mfChatEventType = some e.type := by
    simp +decide [serialize, getScalar, TlvPack.getItem_cons]
  have hchannel : getScalar Bool e.serialize mfChatIsChannel = some e.isChannel := by
    simp +decide [serialize, getScalar, TlvPack.getItem_cons]
  have hcaptcha : (getScalar Bool e.serialize mfChatEventIsCaptchaPresent).getD false =
      e.isCaptchaPresent := by
    cases hc : e.isCaptchaPresent <;>
      simp +decide [serialize, getScalar, TlvPack.getItem_append, TlvPack.getItem_cons,
        getItem_pushSome, hc]
  have hgeneric : hasGenericText e.type = true →
      e.serialize.getItem mfChatEventGenericText =
        some (.ofText mfChatEventGenericText e.generic) := by
    intro hs
    simp +decide [serialize, TlvPack.getItem_append, TlvPack.getItem_cons, hs]
  have heditor : (e.type == ChatEventType.taskChanged) = true →
      e.serialize.getItem mfChatEventTaskEditor =
        some (.ofText mfChatEventTaskEditor e.editor) := by
    intro hs
    simp +decide [serialize, TlvPack.getItem_append, TlvPack.getItem_cons, getItem_pushSome,
      eq_of_beq hs]
  obtain ⟨hname, hdescription, hrules, hstamp⟩ := items_chatModifications e
  rw [unserialize, htype, Outcome.deref, Outcome.ok_bind,
    readMchatMembers_eq h (fun hs => (items_mchatMembers hs).1), Outcome.ok_bind,
    readMchatMembers_eq h (fun hs => (items_mchatMembers hs).2.1), Outcome.ok_bind,
    readModified_eq hname, Outcome.ok_bind, readModified_eq hdescription, Outcome.ok_bind,
    readModified_eq hrules, Outcome.ok_bind, readModified_eq hstamp, Outcome.ok_bind,
    readThreadsEnabled_serialize, Outcome.ok_bind, hchannel, hcaptcha, Option.getD_some,
    readTaskChange_serialize, readText_eq hgeneric, readText_eq heditor,
    readText_eq (fun hs => (items_sender hs).1), readText_eq (fun hs => (items_sender hs).2),
    readText_eq (fun hs => (items_mchatMembers hs).2.2.1),
    readText_eq (fun hs => (items_mchatMembers hs).2.2.2),
    readText_eq (fun hs => (items_statusReply hs).1),
    readText_eq (fun hs => (items_statusReply hs).2.1),
    readText_eq (fun hs => (items_statusReply hs).2.2.1),
    readText_eq (fun hs => (items_statusReply hs).2.2.2)]
  rfl

end Event

end ChatEventData

end Icq.Archive
