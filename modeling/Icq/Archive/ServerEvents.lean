import Icq.Archive.ChatEventRoundTrip
import Icq.Archive.PartsStorable
import Icq.Tools.Json

/-! The events that a message of the server brings, and what is left of them after a restart. -/

namespace Icq.Archive
open Icq.Lib Icq.Tools Icq.Tasks Tlv

/-- What a person of an id is called. -/
abbrev PersonsMap := Bytes → Option Person

inductive ChatEventTypeClass where
  | unknown | addedToBuddyList | buddyReg | buddyFound | birthday | mchat | chatModified
  | warnAboutStranger | noLongerStranger | statusReply | customStatusReply | taskChanged | generic
deriving DecidableEq

section Values

def bytesOf (text : String) : Bytes := ascii text.toList

def textMember (v : JsonValue) (name : String) : Option Bytes :=
  (v.findMember name).bind JsonValue.getText

/-- A number is true unless it is zero. -/
def boolMember (v : JsonValue) (name : String) : Option Bool :=
  match v.findMember name with
  | some (.bool b) => some b
  | some (.int n) => if -2 ^ 31 ≤ n ∧ n < 2 ^ 32 then some (n != 0) else none
  | _ => none

def int64Member (v : JsonValue) (name : String) : Option Int64 :=
  match v.findMember name with
  | some (.int n) => if -2 ^ 63 ≤ n ∧ n < 2 ^ 63 then some (Int64.ofInt n) else none
  | _ => none

def hasMember (v : JsonValue) (name : String) : Bool := (v.findMember name).isSome

def objectMember (v : JsonValue) (name : String) : Option JsonValue :=
  match v.findMember name with
  | some (.object members) => some (.object members)
  | _ => none

/-- Only an object may be asked for a member. -/
def askMember (v : JsonValue) (name : String) : Outcome (Option JsonValue) :=
  match v with
  | .object members => .ok ((JsonValue.object members).findMember name)
  | _ => .crashed

end Values

section Probe

def modifications : List String :=
  ["name", "rules", "avatarLastModified", "about", "stamp", "joinModeration", "public",
    "trustRequired", "threadsEnabled"]

def probeForModifiedEvent (node : JsonValue) : ChatEventTypeClass :=
  match objectMember node "chat" with
  | none => .unknown
  | some chat =>
    if (objectMember chat "modifiedInfo").any (fun info => modifications.any (hasMember info)) then
      .chatModified
    else if hasMember chat "memberEvent" then .mchat
    else .unknown

def isEventClass (node : JsonValue) : Bool := textMember node "class" == some (bytesOf "event")

def isGenericEvent (node : JsonValue) : Bool :=
  if (textMember node "text").isNone then false
  else if hasMember node "voip" then false
  else if isEventClass node then true
  else
    ((objectMember node "chat").bind fun chat => objectMember chat "modifiedInfo").any
      (fun info => hasMember info "public")

def taskEvents : List String :=
  ["taskStatusChanged", "taskAssigneeChanged", "taskEndDateChanged", "taskTitleChanged"]

def probeForEventType (type : Bytes) : ChatEventTypeClass :=
  if type = bytesOf "warnAboutStranger" then .warnAboutStranger
  else if type = bytesOf "noLongerStranger" then .noLongerStranger
  else if type = bytesOf "statusReply" then .statusReply
  else if type = bytesOf "customStatusReply" then .customStatusReply
  else if taskEvents.any (fun name => type == bytesOf name) then .taskChanged
  else .unknown

def probeForChatEvent (node : JsonValue) : ChatEventTypeClass :=
  if hasMember node "addedToBuddyList" then .addedToBuddyList
  else if hasMember node "buddyReg" then .buddyReg
  else if hasMember node "bday" then .birthday
  else if hasMember node "buddyFound" then .buddyFound
  else
    let modified := probeForModifiedEvent node
    let event := ((objectMember node "event").bind fun event =>
      textMember event "type").elim .unknown probeForEventType
    if modified ≠ .unknown then modified
    else if event ≠ .unknown then event
    else if isGenericEvent node then .generic
    else .unknown

end Probe

namespace ChatEventData

def parseSenderAimid (node : JsonValue) : Bytes := (textMember node "sender").getD []

def isChannelNode (node : JsonValue) : Bool := textMember node "type" == some (bytesOf "channel")

def makeAddedToBuddyList (unset : Bool) (senderAimid : Bytes) : ChatEventData :=
  { ofType unset ChatEventType.addedToBuddyList with senderAimid }

def eventTypes : List (String × ChatEventType) :=
  [("addMembers", ChatEventType.mchatAddMembers), ("invite", ChatEventType.mchatInvite),
    ("leave", ChatEventType.mchatLeave), ("delMembers", ChatEventType.mchatDelMembers),
    ("kicked", ChatEventType.mchatKicked), ("admGranted", ChatEventType.mchatAdmGranted),
    ("admRevoked", ChatEventType.mchatAdmRevoked),
    ("allowedToWrite", ChatEventType.mchatAllowedToWrite),
    ("disallowedToWrite", ChatEventType.mchatDisallowedToWrite),
    ("waitingForApprove", ChatEventType.mchatWaitingForApprove),
    ("joiningApproved", ChatEventType.mchatJoiningApproved),
    ("joiningRejected", ChatEventType.mchatJoiningRejected),
    ("waitingCanceled", ChatEventType.mchatJoiningCanceled)]

def eventTypeFromStr (str : Bytes) : ChatEventType :=
  ((eventTypes.find? fun t => bytesOf t.1 = str).map Prod.snd).getD ChatEventType.invalid

def readMembers (parent : JsonValue) : List Bytes :=
  match parent.findMember "members" with
  | some (.array items) => (items.filterMap JsonValue.getText).filter fun m => !m.isEmpty
  | _ => []

/-- The text counts up to its first zero. Whether there is a type is asked of the wrong object. -/
def makeMchatEvent (unset : Bool) (node : JsonValue) : Outcome (Option ChatEventData) :=
  let senderAimid := parseSenderAimid node
  if senderAimid.isEmpty then .ok none
  else
    match objectMember node "memberEvent" with
    | none => .ok none
    | some event => do
      let typeValue ← Outcome.deref (event.findMember "type")
      let type := eventTypeFromStr (typeValue.getText.getD [])
      if type = ChatEventType.invalid then .ok none
      else
        let e := ofType unset type
        .ok (some { e with
          members := readMembers event, senderAimid
          isChannel := (textMember node "type").map (·.takeWhile (· ≠ 0)) ==
            some (bytesOf "channel")
          requestedBy := (textMember event "requestedBy").getD [] })

/-- Of several modifications the last one that is looked for counts. -/
def modifiedEvent (unset : Bool) (info : JsonValue) : Option ChatEventData :=
  let e := ofType unset
  let result := (textMember info "name").map fun newName =>
    { e ChatEventType.chatNameModified with newName }
  let result :=
    if hasMember info "avatarLastModified" then some (e ChatEventType.avatarModified) else result
  let result := ((textMember info "about").map fun newDescription =>
    { e ChatEventType.chatDescriptionModified with newDescription }).or result
  let result := ((textMember info "rules").map fun newRules =>
    { e ChatEventType.chatRulesModified with newRules }).or result
  let result := ((textMember info "stamp").map fun newStamp =>
    { e ChatEventType.chatStampModified with newStamp }).or result
  let result := ((boolMember info "joinModeration").map fun newJoinModeration =>
    { e ChatEventType.chatJoinModerationModified with newJoinModeration }).or result
  let result := ((boolMember info "public").map fun newPublic =>
    { e ChatEventType.chatPublicModified with newPublic }).or result
  let result := ((boolMember info "trustRequired").map fun newTrustRequired =>
    { e ChatEventType.chatTrustRequiedModified with newTrustRequired }).or result
  ((boolMember info "threadsEnabled").map fun newThreadsEnabled =>
    { e ChatEventType.chatThreadsEnabledModified with newThreadsEnabled }).or result

def makeModifiedEvent (unset : Bool) (node : JsonValue) : Option ChatEventData :=
  let senderAimid := parseSenderAimid node
  if senderAimid.isEmpty then none
  else
    match objectMember node "modifiedInfo" with
    | none => none
    | some info => (modifiedEvent unset info).map fun e =>
      { e with senderAimid, isChannel := isChannelNode node }

def makeGenericEvent (unset : Bool) (text : Bytes) : ChatEventData :=
  { ofType unset ChatEventType.generic with generic := text }

def makeStatusReplyEvent (unset : Bool) (node : JsonValue) : ChatEventData :=
  let e := ofType unset ChatEventType.statusReply
  match node.findMember "statusReply" with
  | none => e
  | some reply =>
    { e with
      senderAimid := parseSenderAimid reply
      senderStatus := (textMember reply "senderStatus").getD []
      ownerStatus := (textMember reply "ownerStatus").getD [] }

def makeCustomStatusReplyEvent (unset : Bool) (node : JsonValue) : Outcome ChatEventData :=
  let e := ofType unset ChatEventType.customStatusReply
  match node.findMember "customStatusReply" with
  | none => .ok e
  | some reply => do
    let senderStatus ← askMember reply "senderStatus"
    let ownerStatus ← askMember reply "ownerStatus"
    let text := fun (status : Option JsonValue) name =>
      (status.bind fun status => textMember status name).getD []
    pure
      { e with
        senderAimid := parseSenderAimid reply
        senderStatus := text senderStatus "media"
        senderStatusDescription := text senderStatus "text"
        ownerStatus := text ownerStatus "media"
        ownerStatusDescription := text ownerStatus "text" }

def makeTaskChangeEvent (unset : Bool) (node : JsonValue) : ChatEventData :=
  let e := ofType unset ChatEventType.taskChanged
  match node.findMember "data" with
  | none => e
  | some value =>
    { e with
      editor := (textMember value "user").getD []
      change :=
        { title := textMember value "title", assignee := textMember value "assignee"
          status := (textMember value "status").map Status.ofText
          endTime := (int64Member value "time").map TimePoint.fromSeconds } }

def makeOfClass (unset : Bool) (node : JsonValue) (senderAimid : Bytes) :
    ChatEventTypeClass → Outcome (Option ChatEventData)
  | .unknown => .ok none
  | .addedToBuddyList => .ok (some (makeAddedToBuddyList unset senderAimid))
  | .buddyReg => .ok (some (ofType unset ChatEventType.buddyReg))
  | .buddyFound => .ok (some (ofType unset ChatEventType.buddyFound))
  | .birthday => .ok (some (ofType unset ChatEventType.birthday))
  | .mchat => makeMchatEvent unset ((node.findMember "chat").getD .null)
  | .chatModified => .ok (makeModifiedEvent unset ((node.findMember "chat").getD .null))
  | .warnAboutStranger => .ok (some (ofType unset ChatEventType.warnAboutStranger))
  | .noLongerStranger => .ok (some (ofType unset ChatEventType.noLongerStranger))
  | .statusReply => .ok (some (makeStatusReplyEvent unset ((node.findMember "event").getD .null)))
  | .customStatusReply =>
    some <$> makeCustomStatusReplyEvent unset ((node.findMember "event").getD .null)
  | .taskChanged => .ok (some (makeTaskChangeEvent unset ((node.findMember "event").getD .null)))
  | .generic => .ok ((textMember node "text").map (makeGenericEvent unset))

/-- The event of a message, if it is one. -/
def make (unset : Bool) (node : JsonValue) (senderAimid : Bytes) :
    Outcome (Option ChatEventData) := do
  let e ← makeOfClass unset node senderAimid (probeForChatEvent node)
  let e := e.or (if isEventClass node then (textMember node "text").map (makeGenericEvent unset)
    else none)
  let captcha := (objectMember node "captchaChallenge").isSome
  pure (e.map fun e => if captcha then { e with isCaptchaPresent := true } else e)

def findPerson (persons : PersonsMap) (aimid : Bytes) : Bytes :=
  ((persons aimid).map Person.friendly).getD aimid

/-- `boost::replace_last` with nothing. -/
def eraseLast (text : Bytes) : Bytes → Bytes
  | [] => []
  | c :: rest =>
    if rest.tails.any text.isPrefixOf then c :: eraseLast text rest
    else if text.isPrefixOf (c :: rest) then (c :: rest).drop text.length
    else c :: rest

/-- The names of the people are put beside their ids. -/
def applyPersons (persons : PersonsMap) (e : ChatEventData) : ChatEventData :=
  let e :=
    if hasSenderAimid e.type then { e with senderFriendly := findPerson persons e.senderAimid }
    else e
  if hasMchatMembers e.type then
    let members := e.members.map (eraseLast (bytesOf "@uin.icq"))
    { e with
      members
      membersFriendly := e.membersFriendly ++ members.map (findPerson persons)
      requestedByFriendly :=
        if !e.requestedBy.isEmpty then findPerson persons e.requestedBy else e.requestedByFriendly }
  else e

/-- An event that a message brought, or the one of a deleted message, and the people put in. -/
inductive FromServer (unset : Bool) : ChatEventData → Prop
  | made {node : JsonValue} {senderAimid : Bytes} {e : ChatEventData} :
      make unset node senderAimid = .ok (some e) → FromServer unset e
  | deleted : FromServer unset (ofType unset ChatEventType.messageDeleted)
  | persons {e : ChatEventData} (persons : PersonsMap) :
      FromServer unset e → FromServer unset (e.applyPersons persons)

/-- The type, and what an event of the type is about. -/
structure SameData (e e' : ChatEventData) : Prop where
  type : e'.type = e.type
  isCaptchaPresent : e'.isCaptchaPresent = e.isCaptchaPresent
  isChannel : e'.isChannel = e.isChannel
  sender : hasSenderAimid e.type = true →
    e'.senderAimid = e.senderAimid ∧ e'.senderFriendly = e.senderFriendly
  members : hasMchatMembers e.type = true →
    e'.members = e.members ∧ e'.membersFriendly = e.membersFriendly ∧
      e'.requestedBy = e.requestedBy ∧ e'.requestedByFriendly = e.requestedByFriendly
  newName : e.type = ChatEventType.chatNameModified → e'.newName = e.newName
  newDescription : e.type = ChatEventType.chatDescriptionModified →
    e'.newDescription = e.newDescription
  newRules : e.type = ChatEventType.chatRulesModified → e'.newRules = e.newRules
  newStamp : e.type = ChatEventType.chatStampModified → e'.newStamp = e.newStamp
  newJoinModeration : e.type = ChatEventType.chatJoinModerationModified →
    e'.newJoinModeration = e.newJoinModeration
  newPublic : e.type = ChatEventType.chatPublicModified → e'.newPublic = e.newPublic
  newTrustRequired : e.type = ChatEventType.chatTrustRequiedModified →
    e'.newTrustRequired = e.newTrustRequired
  newThreadsEnabled : e.type = ChatEventType.chatThreadsEnabledModified →
    e'.newThreadsEnabled = e.newThreadsEnabled
  generic : hasGenericText e.type = true → e'.generic = e.generic
  status : hasStatusReply e.type = true →
    e'.senderStatus = e.senderStatus ∧ e'.senderStatusDescription = e.senderStatusDescription ∧
      e'.ownerStatus = e.ownerStatus ∧ e'.ownerStatusDescription = e.ownerStatusDescription
  task : e.type = ChatEventType.taskChanged → e'.editor = e.editor ∧ e'.change = e.change

/-- All texts of an event. -/
def texts (e : ChatEventData) : List Bytes :=
  [e.senderAimid, e.senderFriendly, e.requestedBy, e.requestedByFriendly, e.newName,
    e.newDescription, e.newRules, e.newStamp, e.senderStatus, e.senderStatusDescription,
    e.ownerStatus, e.ownerStatusDescription, e.editor, e.generic] ++
  (e.members ++ (e.membersFriendly ++ (e.change.title.toList ++ e.change.assignee.toList)))

/-- The change of a task comes from texts and seconds. -/
structure ReadableChange (c : TaskChange) : Prop where
  id : c.id = []
  status : c.status ≠ some .unknown
  endTime : ∀ t, c.endTime = some t → t.Whole

section Made

variable {unset : Bool} {e : ChatEventData} {node : JsonValue} {senderAimid : Bytes}

theorem readableChange_empty : ReadableChange {} :=
  ⟨rfl, Option.some_ne_none _ ∘ Eq.symm, fun _ h => by cases h⟩

theorem makeTaskChange_readable (unset : Bool) (node : JsonValue) :
    ReadableChange (makeTaskChangeEvent unset node).change := by
  unfold makeTaskChangeEvent
  cases node.findMember "data" with
  | none => exact readableChange_empty
  | some value =>
    refine ⟨rfl, fun h => ?_, fun t h => ?_⟩
    · obtain ⟨text, -, htext⟩ := Option.map_eq_some_iff.mp h
      exact Status.ofText_ne_unknown text htext
    · obtain ⟨seconds, -, rfl⟩ := Option.map_eq_some_iff.mp h
      exact TimePoint.whole_fromSeconds seconds

/-- If there is an event, its change of a task is readable. -/
def Readable (o : Option ChatEventData) : Prop := ∀ e, o = some e → ReadableChange e.change

theorem readable_none : Readable none := fun _ h => by cases h

theorem readable_some (h : ReadableChange e.change) : Readable (some e) := by
  intro e' he
  rwa [← Option.some.inj he]

theorem readable_or {a b : Option ChatEventData} (ha : Readable a) (hb : Readable b) :
    Readable (a.or b) := by
  cases a with
  | none => exact hb
  | some e => exact ha

theorem readable_map {α : Type} {o : Option α} {f : α → ChatEventData}
    (h : ∀ a, (f a).change = {}) : Readable (o.map f) := by
  intro e he
  obtain ⟨a, -, rfl⟩ := Option.map_eq_some_iff.mp he
  rw [h a]
  exact readableChange_empty

theorem modifiedEvent_readable (unset : Bool) (info : JsonValue) :
    Readable (modifiedEvent unset info) := by
  unfold modifiedEvent
  apply readable_or (readable_map fun _ => rfl)
  apply readable_or (readable_map fun _ => rfl)
  apply readable_or (readable_map fun _ => rfl)
  apply readable_or (readable_map fun _ => rfl)
  apply readable_or (readable_map fun _ => rfl)
  apply readable_or (readable_map fun _ => rfl)
  apply readable_or (readable_map fun _ => rfl)
  split
  · exact readable_some readableChange_empty
  · exact readable_map fun _ => rfl

theorem makeModifiedEvent_readable (unset : Bool) (node : JsonValue) :
    Readable (makeModifiedEvent unset node) := by
  unfold makeModifiedEvent
  dsimp only
  split
  · exact readable_none
  · split
    · exact readable_none
    · rename_i info _
      intro e he
      obtain ⟨e', he', rfl⟩ := Option.map_eq_some_iff.mp he
      exact modifiedEvent_readable unset info e' he'

theorem makeMchatEvent_readable {o : Option ChatEventData} (h : makeMchatEvent unset node = .ok o) :
    Readable o := by
  unfold makeMchatEvent at h
  dsimp only at h
  split at h
  · cases h
    exact readable_none
  · split at h
    · cases h
      exact readable_none
    · obtain ⟨typeValue, -, h⟩ := Outcome.bind_eq_ok h
      split at h
      · cases h
        exact readable_none
      · cases h
        exact readable_some readableChange_empty

theorem makeCustomStatusReplyEvent_readable {o : Option ChatEventData}
    (h : some <$> makeCustomStatusReplyEvent unset node = .ok o) : Readable o := by
  obtain ⟨e, he, h⟩ := Outcome.bind_eq_ok h
  cases h
  apply readable_some
  unfold makeCustomStatusReplyEvent at he
  dsimp only at he
  split at he
  · cases he
    exact readableChange_empty
  · obtain ⟨senderStatus, -, he⟩ := Outcome.bind_eq_ok he
    obtain ⟨ownerStatus, -, he⟩ := Outcome.bind_eq_ok he
    cases he
    exact readableChange_empty

theorem makeOfClass_readable {eventClass : ChatEventTypeClass} {o : Option ChatEventData}
    (h : makeOfClass unset node senderAimid eventClass = .ok o) : Readable o := by
  cases eventClass with
  | mchat => exact makeMchatEvent_readable h
  | customStatusReply => exact makeCustomStatusReplyEvent_readable h
  | unknown =>
    cases h
    exact readable_none
  | chatModified =>
    cases h
    exact makeModifiedEvent_readable unset _
  | taskChanged =>
    cases h
    exact readable_some (makeTaskChange_readable unset _)
  | generic =>
    cases h
    exact readable_map fun _ => rfl
  | statusReply =>
    cases h
    apply readable_some
    unfold makeStatusReplyEvent
    dsimp only
    split <;> exact readableChange_empty
  | _ =>
    cases h
    exact readable_some readableChange_empty

theorem made_readable (h : make unset node senderAimid = .ok (some e)) :
    ReadableChange e.change := by
  obtain ⟨o, ho, h⟩ := Outcome.bind_eq_ok h
  have hall : Readable (o.or (if isEventClass node then
      (textMember node "text").map (makeGenericEvent unset) else none)) := by
    apply readable_or (makeOfClass_readable ho)
    split
    · exact readable_map fun _ => rfl
    · exact readable_none
  obtain ⟨e', he', rfl⟩ := Option.map_eq_some_iff.mp (Outcome.ok.inj h)
  have hchange := hall e' he'
  split
  · exact hchange
  · exact hchange

theorem applyPersons_change (persons : PersonsMap) (e : ChatEventData) :
    (e.applyPersons persons).change = e.change := by
  unfold applyPersons
  dsimp only
  split <;> split <;> rfl

theorem FromServer.readable (h : FromServer unset e) : ReadableChange e.change := by
  induction h with
  | made h => exact made_readable h
  | deleted => exact readableChange_empty
  | persons persons h ih => rwa [applyPersons_change]

end Made

section Restart

variable {unset applies : Bool} {e : ChatEventData} {text : Bytes} {members : List Bytes}

theorem textIf_eq (h : applies = true) (hshort : ShortText text) : textIf applies text = text := by
  rw [textIf, if_pos h, textValue_eq hshort]

theorem membersIf_eq (h : applies = true) (hshort : ∀ m ∈ members, ShortText m) :
    membersIf applies members = members := by
  rw [membersIf, if_pos h, list_map_eq_self_iff]
  exact fun m hm => textValue_eq (hshort m hm)

theorem ReadableChange.storable {c : TaskChange} (h : ReadableChange c)
    (htitle : ∀ t, c.title = some t → ShortText t)
    (hassignee : ∀ t, c.assignee = some t → ShortText t) : StorableChange c :=
  ⟨h.id, htitle, hassignee, h.endTime, h.status⟩

/-- All that is written is read back. -/
theorem sameData_stored (h : ReadableChange e.change) (hshort : ∀ text ∈ e.texts, ShortText text)
    (hflags : FlagsKept unset e) :
    SameData e (e.stored unset) where
  type := rfl
  isCaptchaPresent := rfl
  isChannel := rfl
  sender hs := ⟨textIf_eq hs (hshort _ (by simp [texts])), textIf_eq hs (hshort _ (by simp [texts]))⟩
  members hm :=
    ⟨membersIf_eq hm fun m hmem => hshort m (by simp [texts, hmem]),
      membersIf_eq hm fun m hmem => hshort m (by simp [texts, hmem]),
      textIf_eq hm (hshort _ (by simp [texts])), textIf_eq hm (hshort _ (by simp [texts]))⟩
  newName ht := textIf_eq (beq_iff_eq.mpr ht) (hshort _ (by simp [texts]))
  newDescription ht := textIf_eq (beq_iff_eq.mpr ht) (hshort _ (by simp [texts]))
  newRules ht := textIf_eq (beq_iff_eq.mpr ht) (hshort _ (by simp [texts]))
  newStamp ht := textIf_eq (beq_iff_eq.mpr ht) (hshort _ (by simp [texts]))
  newJoinModeration ht := (hflags.newJoinModeration ht).symm
  newPublic ht := (hflags.newPublic ht).symm
  newTrustRequired ht := (hflags.newTrustRequired ht).symm
  newThreadsEnabled ht := if_pos (beq_iff_eq.mpr ht)
  generic ht := textIf_eq ht (hshort _ (by simp [texts]))
  status ht :=
    ⟨textIf_eq ht (hshort _ (by simp [texts])), textIf_eq ht (hshort _ (by simp [texts])),
      textIf_eq ht (hshort _ (by simp [texts])), textIf_eq ht (hshort _ (by simp [texts]))⟩
  task ht :=
    ⟨textIf_eq (beq_iff_eq.mpr ht) (hshort _ (by simp [texts])),
      (if_pos (beq_iff_eq.mpr ht)).trans ((storedChange_eq_self_iff _).mpr (h.storable
        (fun t htitle => hshort t (by simp [texts, htitle]))
        fun t hassignee => hshort t (by simp [texts, hassignee])))⟩

end Restart

/-- A chat of which one thing is changed. -/
def modifiedNode (name : String) (value : JsonValue) : JsonValue :=
  .object [("chat", .object
    [("sender", .string [65]), ("modifiedInfo", .object [(name, value)])])]

/-- What becomes of a new name. -/
def renamed : ChatEventData :=
  { ofType false ChatEventType.chatNameModified with senderAimid := [65], newName := [66] }

def moderated : ChatEventData :=
  { ofType false ChatEventType.chatJoinModerationModified with
    senderAimid := [65], newJoinModeration := true }

end ChatEventData

end Icq.Archive
