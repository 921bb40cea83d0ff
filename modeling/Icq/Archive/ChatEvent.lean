import Icq.Archive.MessageParts

namespace Icq.Archive
open Icq.Lib Icq.Tools Icq.Tasks

/-- The codes are stored in the file. -/
abbrev ChatEventType := Int32

namespace ChatEventType

def invalid : ChatEventType := 0
def min : ChatEventType := 1
def addedToBuddyList : ChatEventType := 2
def mchatAddMembers : ChatEventType := 3
def mchatInvite : ChatEventType := 4
def mchatLeave : ChatEventType := 5
def mchatDelMembers : ChatEventType := 6
def mchatKicked : ChatEventType := 7
def chatNameModified : ChatEventType := 8
def buddyReg : ChatEventType := 9
def buddyFound : ChatEventType := 10
def birthday : ChatEventType := 11
def avatarModified : ChatEventType := 12
def generic : ChatEventType := 13
def chatDescriptionModified : ChatEventType := 14
def messageDeleted : ChatEventType := 15
def chatRulesModified : ChatEventType := 16
def chatStampModified : ChatEventType := 17
def chatJoinModerationModified : ChatEventType := 18
def chatPublicModified : ChatEventType := 19
def chatTrustRequiedModified : ChatEventType := 20
def chatThreadsEnabledModified : ChatEventType := 21
def mchatAdmGranted : ChatEventType := 22
def mchatAdmRevoked : ChatEventType := 23
def mchatAllowedToWrite : ChatEventType := 24
def mchatDisallowedToWrite : ChatEventType := 25
def mchatWaitingForApprove : ChatEventType := 26
def mchatJoiningApproved : ChatEventType := 27
def mchatJoiningRejected : ChatEventType := 28
def mchatJoiningCanceled : ChatEventType := 29
def warnAboutStranger : ChatEventType := 30
def noLongerStranger : ChatEventType := 31
def statusReply : ChatEventType := 32
def customStatusReply : ChatEventType := 33
def taskChanged : ChatEventType := 34
def max : ChatEventType := 35

def withMchatMembers : List ChatEventType :=
  [mchatAddMembers, mchatInvite, mchatLeave, mchatDelMembers, mchatKicked, mchatAdmGranted,
    mchatAdmRevoked, mchatAllowedToWrite, mchatDisallowedToWrite, mchatWaitingForApprove,
    mchatJoiningApproved, mchatJoiningRejected, mchatJoiningCanceled]

def withChatModifications : List ChatEventType :=
  [chatNameModified, chatDescriptionModified, chatRulesModified, chatStampModified,
    chatJoinModerationModified, chatPublicModified, chatTrustRequiedModified,
    chatThreadsEnabledModified]

def withoutSender : List ChatEventType :=
  [invalid, min, buddyReg, buddyFound, birthday, generic, messageDeleted, warnAboutStranger,
    noLongerStranger, taskChanged]

end ChatEventType

/-- The four flags are not initialised: a new event has in them what the memory held. -/
structure ChatEventData where
  type : ChatEventType
  isCaptchaPresent : Bool := false
  isChannel : Bool
  senderAimid : Bytes := []
  senderFriendly : Bytes := []
  members : List Bytes := []
  membersFriendly : List Bytes := []
  requestedBy : Bytes := []
  requestedByFriendly : Bytes := []
  newName : Bytes := []
  newDescription : Bytes := []
  newRules : Bytes := []
  newStamp : Bytes := []
  newJoinModeration : Bool
  newPublic : Bool
  newTrustRequired : Bool
  newThreadsEnabled : Bool
  senderStatus : Bytes := []
  senderStatusDescription : Bytes := []
  ownerStatus : Bytes := []
  ownerStatusDescription : Bytes := []
  editor : Bytes := []
  change : TaskChange := {}
  generic : Bytes := []
deriving DecidableEq

namespace ChatEventData

/-- A new event. The memory of its flags holds `unset`. -/
def ofType (unset : Bool) (type : ChatEventType) : ChatEventData :=
  { type, isChannel := false, newJoinModeration := unset, newPublic := unset
    newTrustRequired := unset, newThreadsEnabled := unset }

def hasGenericText (type : ChatEventType) : Bool := type == ChatEventType.generic

def hasMchatMembers (type : ChatEventType) : Bool :=
  ChatEventType.withMchatMembers.any (fun t => t == type)

def hasChatModifications (type : ChatEventType) : Bool :=
  ChatEventType.withChatModifications.any (fun t => t == type)

def hasSenderAimid (type : ChatEventType) : Bool :=
  !ChatEventType.withoutSender.any (fun t => t == type)

def hasStatusReply (type : ChatEventType) : Bool :=
  type == ChatEventType.statusReply || type == ChatEventType.customStatusReply

def serializeSender (e : ChatEventData) : TlvPack :=
  if hasSenderAimid e.type then
    [.ofText mfChatEventSenderAimid e.senderAimid,
      .ofText mfChatEventSenderFriendly e.senderFriendly]
  else []

def serializeMchatMembers (e : ChatEventData) : TlvPack :=
  if hasMchatMembers e.type then
    [.ofPack mfChatEventMchatMembers (numbered e.membersFriendly),
      .ofPack mfChatEventMchatMembersAimids (numbered e.members),
      .ofText mfChatRequestedBy e.requestedBy,
      .ofText mfChatRequestedByFriendly e.requestedByFriendly]
  else []

/-- Three of the modifications have no value in the format. -/
def serializeChatModifications (e : ChatEventData) : TlvPack :=
  if hasChatModifications e.type then
    pushIf (e.type == ChatEventType.chatNameModified) (.ofText mfChatEventNewChatName e.newName) ++
      (pushIf (e.type == ChatEventType.chatDescriptionModified)
          (.ofText mfChatEventNewChatDescription e.newDescription) ++
        (pushIf (e.type == ChatEventType.chatRulesModified)
            (.ofText mfChatEventNewChatRules e.newRules) ++
          (pushIf (e.type == ChatEventType.chatStampModified)
              (.ofText mfChatEventNewChatStamp e.newStamp) ++
            pushIf (e.type == ChatEventType.chatThreadsEnabledModified)
              (.ofScalar mfChatEventThreadsEnabled e.newThreadsEnabled))))
  else []

def serializeStatusReply (e : ChatEventData) : TlvPack :=
  if hasStatusReply e.type then
    [.ofText mfChatEventSenderStatus e.senderStatus,
      .ofText mfChatEventOwnerStatus e.ownerStatus,
      .ofText mfChatEventSenderStatusDesctiprion e.senderStatusDescription,
      .ofText mfChatEventOwnerStatusDescription e.ownerStatusDescription]
  else []

def serializeTaskChange (e : ChatEventData) : TlvPack :=
  if e.type == ChatEventType.taskChanged then
    pushSome e.change.title (.ofText mfTaskTitle) ++
      (pushSome e.change.assignee (.ofText mfTaskAssignee) ++
        (pushSome e.change.endTime (fun t => .ofScalar mfTaskEndTime t.toSeconds) ++
          (pushSome e.change.status (fun s => .ofText mfTaskStatus s.toText) ++
            [.ofText mfChatEventTaskEditor e.editor])))
  else []

def serialize (e : ChatEventData) : TlvPack :=
  [.ofScalar mfChatEventType e.type, .ofScalar mfChatIsChannel e.isChannel] ++
    (pushIf e.isCaptchaPresent (.ofScalar mfChatEventIsCaptchaPresent e.isCaptchaPresent) ++
      (e.serializeSender ++ (e.serializeMchatMembers ++ (e.serializeChatModifications ++
        (pushIf (hasGenericText e.type) (.ofText mfChatEventGenericText e.generic) ++
          (e.serializeStatusReply ++ e.serializeTaskChange))))))

/-- A text that has to be there for one type of event, and is initial for the others. -/
def readModified (pack : TlvPack) (applies : Bool) (field : UInt32) : Outcome Bytes :=
  if applies then .deref (getText pack field) else .ok []

def readThreadsEnabled (unset : Bool) (pack : TlvPack) (applies : Bool) : Outcome Bool :=
  if applies then .deref (getScalar Bool pack mfChatEventThreadsEnabled) else .ok unset

def allMembers : List (Option Bytes) → Outcome (List Bytes)
  | [] => .ok []
  | member :: rest => do
    let member ← Outcome.deref member
    let rest ← allMembers rest
    pure (member :: rest)

def readMchatMembers (pack : TlvPack) (applies : Bool) (field : UInt32) : Outcome (List Bytes) :=
  match getNested pack field with
  | some members => if applies then allMembers (readNumbered members) else .ok []
  | none => .ok []

/-- A text that is read for some types of event, if it is there. -/
def readText (pack : TlvPack) (applies : Bool) (field : UInt32) : Bytes :=
  if applies then (getText pack field).getD [] else []

def readTaskChange (pack : TlvPack) (applies : Bool) : TaskChange :=
  if applies then
    { title := getText pack mfTaskTitle, assignee := getText pack mfTaskAssignee
      endTime := (getScalar Int64 pack mfTaskEndTime).map TimePoint.fromSeconds
      status := (getText pack mfTaskStatus).map Status.ofText }
  else {}

/-- Read an event into a new one. `unset` is what its uninitialised flags hold. -/
def unserialize (unset : Bool) (pack : TlvPack) : Outcome ChatEventData := do
  let type ← Outcome.deref (getScalar Int32 pack mfChatEventType)
  let membersFriendly ← readMchatMembers pack (hasMchatMembers type) mfChatEventMchatMembers
  let members ← readMchatMembers pack (hasMchatMembers type) mfChatEventMchatMembersAimids
  let newName ← readModified pack (type == ChatEventType.chatNameModified) mfChatEventNewChatName
  let newDescription ← readModified pack (type == ChatEventType.chatDescriptionModified)
    mfChatEventNewChatDescription
  let newRules ← readModified pack (type == ChatEventType.chatRulesModified) mfChatEventNewChatRules
  let newStamp ← readModified pack (type == ChatEventType.chatStampModified) mfChatEventNewChatStamp
  let newThreadsEnabled ←
    readThreadsEnabled unset pack (type == ChatEventType.chatThreadsEnabledModified)
  pure
    { type, membersFriendly, members, newName, newDescription, newRules, newStamp
      newJoinModeration := unset, newPublic := unset, newTrustRequired := unset, newThreadsEnabled
      isChannel := (getScalar Bool pack mfChatIsChannel).getD unset
      isCaptchaPresent := (getScalar Bool pack mfChatEventIsCaptchaPresent).getD false
      senderFriendly := readText pack (hasSenderAimid type) mfChatEventSenderFriendly
      senderAimid := readText pack (hasSenderAimid type) mfChatEventSenderAimid
      requestedBy := readText pack (hasMchatMembers type) mfChatRequestedBy
      requestedByFriendly := readText pack (hasMchatMembers type) mfChatRequestedByFriendly
      generic := readText pack (hasGenericText type) mfChatEventGenericText
      senderStatus := readText pack (hasStatusReply type) mfChatEventSenderStatus
      ownerStatus := readText pack (hasStatusReply type) mfChatEventOwnerStatus
      senderStatusDescription :=
        readText pack (hasStatusReply type) mfChatEventSenderStatusDesctiprion
      ownerStatusDescription :=
        readText pack (hasStatusReply type) mfChatEventOwnerStatusDescription
      editor := readText pack (type == ChatEventType.taskChanged) mfChatEventTaskEditor
      change := readTaskChange pack (type == ChatEventType.taskChanged) }

end ChatEventData

end Icq.Archive
