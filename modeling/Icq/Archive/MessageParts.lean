import Icq.Archive.MessageFields
import Icq.Common.TextFormatting
import Icq.Tasks.Task
import Icq.Tools.Tlv

/-! The records a stored message is made of, and how each is written and read. -/

namespace Icq.Archive
open Icq.Lib Icq.Tools Icq.Common Icq.Tasks

section Pack

def pushIf (c : Bool) (t : Tlv) : TlvPack := if c then [t] else []

def pushSome {α : Type} (a : Option α) (f : α → Tlv) : TlvPack := a.toList.map f

def getText (pack : TlvPack) (type : UInt32) : Option Bytes := (pack.getItem type).map Tlv.value

def getScalar (α : Type) [Scalar α] (pack : TlvPack) (type : UInt32) : Option α :=
  (pack.getItem type).map (Tlv.getValue α)

def getNested (pack : TlvPack) (type : UInt32) : Option TlvPack :=
  (pack.getItem type).map Tlv.getPack

/-- Members under their positions. -/
def numbered (members : List Bytes) : TlvPack :=
  members.zipIdx.map (fun m => .ofText (UInt32.ofNat m.2) m.1)

def readNumbered (pack : TlvPack) : List (Option Bytes) :=
  (List.range (UInt32.ofNat pack.length).toNat).map (fun i => getText pack (UInt32.ofNat i))

end Pack

structure SharedContactData where
  name : Bytes := []
  phone : Bytes := []
  sn : Bytes := []
deriving DecidableEq

namespace SharedContactData

def serialize (c : SharedContactData) : Tlv :=
  .ofPack mfSharedContact
    [.ofText mfSharedContactName c.name, .ofText mfSharedContactPhone c.phone,
      .ofText mfSharedContactSn c.sn]

def unserialize (pack : TlvPack) : Option SharedContactData :=
  (getText pack mfSharedContactPhone).map (fun phone =>
    { phone, name := (getText pack mfSharedContactName).getD []
      sn := (getText pack mfSharedContactSn).getD [] })

end SharedContactData

/-- A place. The coordinates are doubles, kept as their bit patterns. -/
structure GeoData where
  name : Bytes := []
  lat : UInt64 := 0
  long : UInt64 := 0
deriving DecidableEq

namespace GeoData

def serialize (g : GeoData) : Tlv :=
  .ofPack mfGeo [.ofText mfGeoName g.name, .ofScalar mfGeoLat g.lat, .ofScalar mfGeoLong g.long]

/-- A missing coordinate is not initialised by the source; here it is zero. -/
def unserialize (pack : TlvPack) : Option GeoData :=
  some
    { name := (getText pack mfGeoName).getD [], lat := (getScalar UInt64 pack mfGeoLat).getD 0
      long := (getScalar UInt64 pack mfGeoLong).getD 0 }

end GeoData

structure Reaction where
  reaction : Bytes := []
  count : Int64 := 0
deriving DecidableEq

structure ReactionsData where
  msgId : Int64 := 0
  /-- Not written to the file, which is one of the chat. -/
  chatId : Bytes := []
  myReaction : Bytes := []
  reactions : List Reaction := []
deriving DecidableEq

/-- A message says whether it has reactions. Those it comes with are stored elsewhere. -/
structure MessageReactions where
  exist : Bool := false
  data : Option ReactionsData := none
deriving DecidableEq

namespace MessageReactions

def serialize (r : MessageReactions) : Tlv :=
  .ofPack mfReactions [.ofScalar mfReactionsExist r.exist]

def unserialize (pack : TlvPack) : Option MessageReactions :=
  (getScalar Bool pack mfReactionsExist).map (fun exist => { exist })

end MessageReactions

structure StickerData where
  id : Bytes := []
deriving DecidableEq

namespace StickerData

def serialize (s : StickerData) : TlvPack := [.ofText mfStickerId s.id]

def unserialize (pack : TlvPack) : StickerData := { id := (getText pack mfStickerId).getD [] }

end StickerData

abbrev VoipEventType := Int32

namespace VoipEventType

def invalid : VoipEventType := 0
def min : VoipEventType := 1
def max : VoipEventType := 6

end VoipEventType

structure VoipData where
  type : VoipEventType := VoipEventType.invalid
  sid : Bytes := []
  senderAimid : Bytes := []
  senderFriendly : Bytes := []
  durationSec : Int32 := -1
  isIncoming : Int32 := -1
  isVideo : Bool := false
  confMembers : List Bytes := []
deriving DecidableEq

namespace VoipData

def serialize (v : VoipData) : TlvPack :=
  [.ofScalar mfVoipEventType v.type, .ofText mfVoipSenderAimid v.senderAimid,
    .ofText mfVoipSenderFriendly v.senderFriendly] ++
  (pushIf (0 ≤ v.durationSec) (.ofScalar mfVoipDuration v.durationSec) ++
    (pushIf (0 ≤ v.isIncoming) (.ofScalar mfVoipIsIncoming v.isIncoming) ++
      (pushIf v.isVideo (.ofScalar mfVoipIsVideo v.isVideo) ++
        (pushIf (!v.confMembers.isEmpty) (.ofPack mfVoipConfMembers (numbered v.confMembers)) ++
          [.ofText mfVoipSid v.sid]))))

def validType (type : VoipEventType) : Bool :=
  decide (VoipEventType.min < type) && decide (type < VoipEventType.max)

/-- A call without a known type and names of its sender is not a call. -/
def unserialize (pack : TlvPack) : Option VoipData :=
  match getScalar Int32 pack mfVoipEventType, getText pack mfVoipSenderAimid,
    getText pack mfVoipSenderFriendly with
  | some type, some senderAimid, some senderFriendly =>
    if !validType type || senderAimid.isEmpty || senderFriendly.isEmpty then none
    else
      some
        { type, senderAimid, senderFriendly
          durationSec := (getScalar Int32 pack mfVoipDuration).getD (-1)
          isIncoming := (getScalar Int32 pack mfVoipIsIncoming).getD (-1)
          isVideo := (getScalar Bool pack mfVoipIsVideo).getD false
          confMembers :=
            (readNumbered ((getNested pack mfVoipConfMembers).getD [])).filterMap
              (fun m => m.filter (fun m => !m.isEmpty))
          sid := (getText pack mfVoipSid).getD [] }
  | _, _, _ => none

end VoipData

structure Person where
  friendly : Bytes := []
  nick : Bytes := []
  firstName : Bytes := []
  middleName : Bytes := []
  lastName : Bytes := []
  official : Option Bool := none
deriving DecidableEq

structure ChatData where
  sender : Bytes := []
  friendly : Person := {}
  name : Bytes := []
deriving DecidableEq

namespace ChatData

/-- The flag is written as it lies in memory: the value, and whether there is one. `unset` is what
the memory holds where there is none. -/
def officialBytes (unset : Bool) (official : Option Bool) : Bytes :=
  Scalar.encode (official.getD unset) ++ Scalar.encode official.isSome

def serialize (unset : Bool) (c : ChatData) : TlvPack :=
  [.ofText mfChatSender c.sender, .ofText mfChatName c.name,
    .ofText mfChatFriendly c.friendly.friendly,
    { type := mfFriendlyOfficial, value := officialBytes unset c.friendly.official }]

def unserialize (pack : TlvPack) : ChatData :=
  match getText pack mfChatSender, getText pack mfChatName with
  | some sender, some name =>
    { sender, name
      friendly :=
        { friendly := (getText pack mfChatFriendly).getD []
          official := getScalar Bool pack mfFriendlyOfficial } }
  | _, _ => {}

end ChatData

structure FileSharingData where
  uri : Bytes := []
  localPath : Bytes := []
  duration : Option Int64 := none
  baseContentType : Option Int32 := none
deriving DecidableEq

namespace FileSharingData

def serialize (f : FileSharingData) : TlvPack :=
  (if !f.uri.isEmpty then [.ofText mfFileSharingUri f.uri]
    else [.ofText mfFileSharingLocalPath f.localPath]) ++
  (pushSome f.duration (.ofScalar mfFileSharingDuration) ++
    pushSome f.baseContentType (.ofScalar mfFileSharingBaseContentType))

/-- Without a link there must be a path; nobody looks whether there is one. -/
def unserialize (pack : TlvPack) : Outcome FileSharingData :=
  let duration := getScalar Int64 pack mfFileSharingDuration
  let baseContentType := getScalar Int32 pack mfFileSharingBaseContentType
  match getText pack mfFileSharingUri, getText pack mfFileSharingLocalPath with
  | some uri, _ => .ok { uri, duration, baseContentType }
  | none, some localPath => .ok { localPath, duration, baseContentType }
  | none, none => .crashed

end FileSharingData

/-- No format is no format to write; it is written as bold. -/
def toMfType : FormatType → UInt32
  | .none => mfFormatBold
  | .bold => mfFormatBold
  | .italic => mfFormatItalic
  | .underline => mfFormatUnderline
  | .strikethrough => mfFormatStrikethrough
  | .monospace => mfFormatInlineCode
  | .link => mfFormatUrl
  | .mention => mfFormatMention
  | .quote => mfFormatQuote
  | .pre => mfFormatPre
  | .orderedList => mfFormatOrderedList
  | .unorderedList => mfFormatUnorderedList

def fromMfType (field : UInt32) : FormatType :=
  if field = mfFormatBold then .bold
  else if field = mfFormatItalic then .italic
  else if field = mfFormatUnderline then .underline
  else if field = mfFormatStrikethrough then .strikethrough
  else if field = mfFormatInlineCode then .monospace
  else if field = mfFormatUrl then .link
  else if field = mfFormatMention then .mention
  else if field = mfFormatQuote then .quote
  else if field = mfFormatPre then .pre
  else if field = mfFormatOrderedList then .orderedList
  else if field = mfFormatUnorderedList then .unorderedList
  else .bold

abbrev RangeFormat := Common.RangeFormat Int32

abbrev FormatData := List RangeFormat

namespace RangeFormat

def serialize (r : RangeFormat) : Tlv :=
  .ofPack (toMfType r.type)
    ([.ofScalar mfFormatOffset r.range.offset, .ofScalar mfFormatLength r.range.size,
      .ofScalar mfFormatStartIndex r.range.startIndex] ++ pushSome r.data (.ofText mfFormatData))

def readField (r : RangeFormat) (field : Tlv) : RangeFormat :=
  if field.type = mfFormatOffset then
    { r with range := { r.range with offset := field.getValue Int32 } }
  else if field.type = mfFormatLength then
    { r with range := { r.range with size := field.getValue Int32 } }
  else if field.type = mfFormatStartIndex then
    { r with range := { r.range with startIndex := field.getValue Int32 } }
  else if field.type = mfFormatData then { r with data := some field.value }
  else r

def unserialize (field : Tlv) : RangeFormat :=
  { field.getPack.foldl readField {} with type := fromMfType field.type }

end RangeFormat

namespace FormatData

def serialize (f : FormatData) : TlvPack := f.map RangeFormat.serialize

def unserialize (pack : TlvPack) : FormatData := pack.map RangeFormat.unserialize

end FormatData

structure PollAnswer where
  votes : Int64 := 0
  text : Bytes := []
  answerId : Bytes := []
deriving DecidableEq

structure PollData where
  id : Bytes := []
  type : Bytes := []
  myAnswerId : Bytes := []
  answers : List PollAnswer := []
  closed : Bool := false
  canStop : Bool := false
deriving DecidableEq

namespace PollData

/-- Only what a message with a poll can hold is written. -/
def serialize (p : PollData) : Tlv :=
  .ofPack mfPoll ([.ofText mfPollId p.id] ++
    (p.answers.map (fun a => .ofText mfPollAnswer a.text) ++ [.ofText mfPollType p.type]))

def readField (p : PollData) (field : Tlv) : PollData :=
  if field.type = mfPollAnswer then { p with answers := p.answers ++ [{ text := field.value }] }
  else if field.type = mfPollId then { p with id := field.value }
  else if field.type = mfPollType then { p with type := field.value }
  else p

def unserialize (pack : TlvPack) : PollData := pack.foldl readField {}

end PollData

/-- A task is written by its id; one that has none yet, by what is sent of it. -/
def serializeTask (t : TaskData) : Tlv :=
  .ofPack mfTask
    (if !t.id.isEmpty then [.ofText mfTaskId t.id]
      else
        [.ofText mfTaskTitle t.params.title, .ofText mfTaskAssignee t.params.assignee,
          .ofScalar mfTaskEndTime t.params.endTime.toSeconds])

def unserializeTask (pack : TlvPack) : TaskData :=
  { id := (getText pack mfTaskId).getD []
    params :=
      { title := (getText pack mfTaskTitle).getD []
        assignee := (getText pack mfTaskAssignee).getD []
        endTime := ((getScalar Int64 pack mfTaskEndTime).map TimePoint.fromSeconds).getD 0 } }

end Icq.Archive
