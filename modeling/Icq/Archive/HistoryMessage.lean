import Icq.Archive.ChatEvent
import Icq.Archive.MessageHeader
import Icq.Lib.KeyMap
import Mathlib.Data.List.Lex

namespace Icq.Archive
open Icq.Lib Icq.Tools Icq.Common Icq.Tasks

structure Quote where
  text : Bytes := []
  format : Option FormatData := none
  sender : Bytes := []
  chat : Bytes := []
  chatStamp : Bytes := []
  chatName : Bytes := []
  senderFriendly : Bytes := []
  url : Bytes := []
  description : Bytes := []
  descriptionFormat : Option FormatData := none
  time : Int32 := -1
  setId : Int32 := -1
  stickerId : Int32 := -1
  msgId : Int64 := -1
  isForward : Bool := false
  sharedContact : Option SharedContactData := none
  geo : Option GeoData := none
  poll : Option PollData := none
  task : Option TaskData := none
deriving DecidableEq

def pushText (field : UInt32) (text : Bytes) : TlvPack := pushIf (!text.isEmpty) (.ofText field text)

namespace Quote

def serialize (q : Quote) : TlvPack :=
  pushText mfQuoteText q.text ++ (pushText mfQuoteSn q.sender ++ (pushText mfQuoteChatId q.chat ++
    (pushIf (q.time != -1) (.ofScalar mfQuoteTime q.time) ++
      (pushIf (q.msgId != -1) (.ofScalar mfQuoteMsgId q.msgId) ++
        (pushText mfQuoteFriendly q.senderFriendly ++
          (pushIf (q.setId != -1) (.ofScalar mfQuoteSetId q.setId) ++
            (pushIf (q.stickerId != -1) (.ofScalar mfQuoteStickerId q.stickerId) ++
              ([.ofScalar mfQuoteIsForward q.isForward] ++ (pushText mfQuoteChatStamp q.chatStamp ++
                (pushText mfQuoteChatName q.chatName ++ (pushText mfQuoteUrl q.url ++
                  (pushText mfQuoteDescription q.description ++
                    (pushSome q.sharedContact SharedContactData.serialize ++
                      (pushSome q.geo GeoData.serialize ++ (pushSome q.poll PollData.serialize ++
                        (pushSome q.task serializeTask ++
                          (pushSome q.format (fun f => .ofPack mfFormat (FormatData.serialize f)) ++
                            pushSome q.descriptionFormat
                              (fun f => .ofPack mfDescriptionFormat
                                (FormatData.serialize f)))))))))))))))))))

def unserialize (pack : TlvPack) : Quote :=
  { text := (getText pack mfQuoteText).getD [], sender := (getText pack mfQuoteSn).getD []
    chat := (getText pack mfQuoteChatId).getD []
    time := (getScalar Int32 pack mfQuoteTime).getD (-1)
    msgId := (getScalar Int64 pack mfQuoteMsgId).getD (-1)
    senderFriendly := (getText pack mfQuoteFriendly).getD []
    setId := (getScalar Int32 pack mfQuoteSetId).getD (-1)
    isForward := (getScalar Bool pack mfQuoteIsForward).getD false
    stickerId := (getScalar Int32 pack mfQuoteStickerId).getD (-1)
    chatStamp := (getText pack mfQuoteChatStamp).getD []
    chatName := (getText pack mfQuoteChatName).getD [], url := (getText pack mfQuoteUrl).getD []
    description := (getText pack mfQuoteDescription).getD []
    sharedContact := (getNested pack mfSharedContact).bind SharedContactData.unserialize
    geo := (getNested pack mfGeo).bind GeoData.unserialize
    poll := (getNested pack mfPoll).map PollData.unserialize
    task := (getNested pack mfTask).map unserializeTask
    format := (getNested pack mfFormat).map FormatData.unserialize
    descriptionFormat := (getNested pack mfDescriptionFormat).map FormatData.unserialize }

end Quote

structure UrlSnippet where
  url : Bytes := []
  contentType : Bytes := []
  previewUrl : Bytes := []
  previewWidth : Int32 := 0
  previewHeight : Int32 := 0
  title : Bytes := []
  description : Bytes := []
deriving DecidableEq

namespace UrlSnippet

def serialize (s : UrlSnippet) : TlvPack :=
  pushText mfSnippetUrl s.url ++ (pushText mfSnippetContentType s.contentType ++
    (pushText mfSnippetPreviewUrl s.previewUrl ++ (pushText mfSnippetTitle s.title ++
      (pushText mfSnippetDescription s.description ++
        (pushIf (s.previewWidth != 0) (.ofScalar mfSnippetPreviewW s.previewWidth) ++
          pushIf (s.previewHeight != 0) (.ofScalar mfSnippetPreviewH s.previewHeight))))))

def unserialize (pack : TlvPack) : UrlSnippet :=
  { url := (getText pack mfSnippetUrl).getD []
    contentType := (getText pack mfSnippetContentType).getD []
    previewUrl := (getText pack mfSnippetPreviewUrl).getD []
    previewWidth := (getScalar Int32 pack mfSnippetPreviewW).getD 0
    previewHeight := (getScalar Int32 pack mfSnippetPreviewH).getD 0
    title := (getText pack mfSnippetTitle).getD []
    description := (getText pack mfSnippetDescription).getD [] }

end UrlSnippet

structure ButtonData where
  text : Bytes := []
  url : Bytes := []
  callbackData : Bytes := []
  style : Bytes := []
deriving DecidableEq

/-- Names of mentioned people by their ids, in the order of the ids. -/
abbrev MentionsMap := KeyMap (Prod.fst : Bytes × Bytes → Bytes)

def MentionsMap.emplace (m : MentionsMap) (sn friendly : Bytes) : MentionsMap :=
  match m.find? sn with
  | some _ => m
  | none => m.put (sn, friendly)

structure HistoryMessage where
  msgid : Int64 := -1
  prevMsgid : Int64 := -1
  flags : MessageFlags := {}
  time : Int64 := 0
  text : Bytes := []
  format : Option FormatData := none
  dataOffset : Int64 := -1
  dataSize : UInt32 := 0
  internalId : Bytes := []
  senderFriendly : Bytes := []
  updatePatchVersion : PatchVersion := {}
  sticker : Option StickerData := none
  mult : Option Unit := none
  voip : Option VoipData := none
  chat : Option ChatData := none
  fileSharing : Option FileSharingData := none
  chatEvent : Option ChatEventData := none
  quotes : List Quote := []
  mentions : MentionsMap := ∅
  snippets : List UrlSnippet := []
  description : Bytes := []
  descriptionFormat : Option FormatData := none
  url : Bytes := []
  sharedContact : Option SharedContactData := none
  geo : Option GeoData := none
  poll : Option PollData := none
  task : Option TaskData := none
  json : Bytes := []
  senderAimid : Bytes := []
  unsupported : Bool := false
  hideEdit : Bool := false
  buttons : List (List ButtonData) := []
  buttonsJson : Bytes := []
  reactions : Option MessageReactions := none
  threadId : Bytes := []

/-- What lies outside the store: the reader of JSON, which takes the buttons from their text and
a whole message from the text the server sent it as, and what uninitialised flags hold. -/
structure Surroundings where
  parseButtons : Bytes → List (List ButtonData)
  parseMessage : HistoryMessage → Bytes → Bytes → Outcome HistoryMessage
  unset : Bool

namespace HistoryMessage

def serializeMention (m : Bytes × Bytes) : Tlv :=
  .ofPack mfMention [.ofText mfMentionSn m.1, .ofText mfMentionFriendly m.2]

/-- The fields that are always written, the text first. -/
def serializeHead (m : HistoryMessage) : TlvPack :=
  [.ofText mfText m.text, .ofScalar mfMsgId m.msgid, .ofScalar mfPrevMsgId m.prevMsgid,
    .ofScalar mfFlags m.flags.value, .ofScalar mfTime m.time.toUInt64,
    .ofText mfInternalId m.internalId, .ofText mfSenderFriendly m.senderFriendly,
    .ofText mfUpdatePatchVersion m.updatePatchVersion.versionString,
    .ofScalar mfOfflineVersion m.updatePatchVersion.offlineVersion,
    .ofText mfDescription m.description, .ofText mfUrl m.url, .ofText mfJson m.json,
    .ofText mfSenderAimid m.senderAimid, .ofText mfButtons m.buttonsJson,
    .ofScalar mfHideEdit m.hideEdit]

def serializePack (w : Surroundings) (m : HistoryMessage) (aimid : Bytes) : TlvPack :=
  m.serializeHead ++ (pushText mfThreadId m.threadId ++
    (pushSome m.format (fun f => .ofPack mfFormat (FormatData.serialize f)) ++
      (pushSome m.chat (fun c => .ofPack mfChat (c.serialize w.unset)) ++
        (pushSome m.sticker (fun s => .ofPack mfSticker s.serialize) ++
          (pushSome m.mult (fun _ => .ofPack mfMult []) ++
            (pushSome m.voip (fun v => .ofPack mfVoip v.serialize) ++
              (pushSome m.fileSharing (fun f => .ofPack mfFileSharing f.serialize) ++
                (pushSome m.chatEvent (fun e => .ofPack mfChatEvent e.serialize) ++
                  (m.quotes.map (fun q => .ofPack mfQuote q.serialize) ++
                    (m.mentions.items.map serializeMention ++
                      (m.snippets.map (fun s => .ofPack mfSnippet s.serialize) ++
                        (pushSome m.sharedContact SharedContactData.serialize ++
                          (pushSome m.geo GeoData.serialize ++
                            (pushSome m.poll PollData.serialize ++
                              (pushSome m.task serializeTask ++
                                (pushSome m.reactions MessageReactions.serialize ++
                                  ([.ofText mfCallAimid aimid] ++
                                    pushSome m.descriptionFormat (fun f =>
                                      .ofPack mfDescriptionFormat
                                        (FormatData.serialize f)))))))))))))))))))

def serializeCall (w : Surroundings) (m : HistoryMessage) (aimid : Bytes) : Bytes :=
  (m.serializePack w aimid).serialize

def serialize (w : Surroundings) (m : HistoryMessage) : Bytes := m.serializeCall w []

def unserializeButtons (w : Surroundings) (buttons : Bytes) : List (List ButtonData) :=
  if buttons.isEmpty then [] else w.parseButtons buttons

def readMention (m : HistoryMessage) (pack : TlvPack) : HistoryMessage :=
  match getText pack mfMentionSn, getText pack mfMentionFriendly with
  | some sn, some friendly =>
    if !sn.isEmpty && !friendly.isEmpty then { m with mentions := m.mentions.emplace sn friendly }
    else m
  | _, _ => m

/-- How reading goes on after a field: with the next one, or it is over because the whole message
was read from its JSON. -/
inductive Progress where
  | next (m : HistoryMessage) (aimid : Bytes)
  | done (m : HistoryMessage) (aimid : Bytes)

/-- A message that has both its JSON and its sender is read from the JSON. -/
def readJson (w : Surroundings) (m : HistoryMessage) (aimid : Bytes) : Outcome Progress :=
  if !m.json.isEmpty && !m.senderAimid.isEmpty then do
    let m ← w.parseMessage m m.json m.senderAimid
    pure (.done m aimid)
  else pure (.next m aimid)

def readField (w : Surroundings) (m : HistoryMessage) (aimid : Bytes) (field : Tlv) :
    Outcome Progress :=
  let next (m : HistoryMessage) : Outcome Progress := .ok (.next m aimid)
  if field.type = mfMsgId then next { m with msgid := field.getValue Int64 }
  else if field.type = mfPrevMsgId then next { m with prevMsgid := field.getValue Int64 }
  else if field.type = mfFlags then next { m with flags := .ofValue (field.getValue UInt32) }
  else if field.type = mfTime then next { m with time := (field.getValue UInt64).toInt64 }
  else if field.type = mfInternalId then next { m with internalId := field.value }
  else if field.type = mfSenderFriendly then next { m with senderFriendly := field.value }
  else if field.type = mfText then next { m with text := field.value }
  else if field.type = mfFormat then
    next { m with format := some (FormatData.unserialize field.getPack) }
  else if field.type = mfUpdatePatchVersion then
    next { m with
      updatePatchVersion := { m.updatePatchVersion with versionString := field.value } }
  else if field.type = mfOfflineVersion then
    next { m with
      updatePatchVersion := { m.updatePatchVersion with offlineVersion := field.getValue Int32 } }
  else if field.type = mfChat then next { m with chat := some (ChatData.unserialize field.getPack) }
  else if field.type = mfSticker then
    next { m with sticker := some (StickerData.unserialize field.getPack) }
  else if field.type = mfMult then next { m with mult := some () }
  else if field.type = mfVoip then next { m with voip := VoipData.unserialize field.getPack }
  else if field.type = mfFileSharing then do
    let fileSharing ← FileSharingData.unserialize field.getPack
    next { m with fileSharing := some fileSharing }
  else if field.type = mfChatEvent then do
    let chatEvent ← ChatEventData.unserialize w.unset field.getPack
    next { m with chatEvent := some chatEvent }
  else if field.type = mfQuote then
    next { m with quotes := m.quotes ++ [Quote.unserialize field.getPack] }
  else if field.type = mfMention then next (m.readMention field.getPack)
  else if field.type = mfSnippet then
    next { m with snippets := m.snippets ++ [UrlSnippet.unserialize field.getPack] }
  else if field.type = mfDescription then next { m with description := field.value }
  else if field.type = mfDescriptionFormat then
    next { m with descriptionFormat := some (FormatData.unserialize field.getPack) }
  else if field.type = mfUrl then next { m with url := field.value }
  else if field.type = mfSharedContact then
    next { m with
      sharedContact := (SharedContactData.unserialize field.getPack).orElse
        (fun _ => m.sharedContact) }
  else if field.type = mfGeo then
    next { m with geo := (GeoData.unserialize field.getPack).orElse (fun _ => m.geo) }
  else if field.type = mfPoll then next { m with poll := some (PollData.unserialize field.getPack) }
  else if field.type = mfTask then next { m with task := some (unserializeTask field.getPack) }
  else if field.type = mfReactions then
    -- the case has no break: what the reactions left of the field is taken for the JSON
    readJson w
      { m with
        reactions := (MessageReactions.unserialize field.getPack).orElse (fun _ => m.reactions)
        json := field.textAfterPack } aimid
  else if field.type = mfJson then readJson w { m with json := field.value } aimid
  else if field.type = mfSenderAimid then readJson w { m with senderAimid := field.value } aimid
  else if field.type = mfButtons then
    next { m with buttonsJson := field.value, buttons := unserializeButtons w field.value }
  else if field.type = mfHideEdit then next { m with hideEdit := field.getValue Bool }
  else if field.type = mfThreadId then next { m with threadId := field.value }
  else if field.type = mfCallAimid then .ok (.next m field.value)
  else next m

def readFields (w : Surroundings) (m : HistoryMessage) (aimid : Bytes) :
    TlvPack → Outcome Progress
  | [] => .ok (.next m aimid)
  | field :: rest => do
    match ← readField w m aimid field with
    | .next m aimid => readFields w m aimid rest
    | .done m aimid => pure (.done m aimid)

/-- Read a message into a new one, and with it the id that was stored beside it. -/
def unserializeCall (w : Surroundings) (aimid : Bytes) (data : Bytes) :
    Outcome (HistoryMessage × Bytes) :=
  let taken := TlvPack.unserialize data
  if !taken.complete then .refused
  else do
    match ← readFields w {} aimid taken.pack with
    | .next m aimid => pure (m, aimid)
    | .done m aimid => pure (m, aimid)

def unserialize (w : Surroundings) (data : Bytes) : Outcome HistoryMessage := do
  let r ← unserializeCall w [] data
  pure r.1

end HistoryMessage

end Icq.Archive
