import Icq.Archive.HistoryMessage
import Icq.Archive.ChatEventRoundTrip

namespace Icq.Archive
open Icq.Lib Icq.Tools Icq.Common Icq.Tasks Tlv

section Optional

variable {α β : Type} {pack : TlvPack} {field : UInt32}

@[simp] theorem getItem_pushText (text : Bytes) (tag : UInt32) :
    (pushText field text).getItem tag =
      if text ≠ [] ∧ field = tag then some (.ofText field text) else none := by
  simp [pushText]

theorem getText_pushText {text : Bytes} (h : pack.getItem field = (pushText field text).getItem field) :
    (getText pack field).getD [] = textValue text := by
  rw [getText, h, getItem_pushText]
  by_cases ht : text = [] <;> simp [ht]

theorem getScalar_pushIf [Scalar α] [DecidableEq α] {a absent : α}
    (h : pack.getItem field = (pushIf (a != absent) (.ofScalar field a)).getItem field) :
    (getScalar α pack field).getD absent = a := by
  rw [getScalar, h, getItem_pushIf]
  by_cases ha : a = absent <;> simp [ha]

/-- A part of a record is read as itself if its reader sees it alone. -/
theorem getNested_pushSome {o : Option α} {part : α → Tlv} {read : TlvPack → Option β}
    {stored : α → β} (htype : ∀ a, (part a).type = field)
    (h : pack.getItem field = (pushSome o part).getItem field)
    (hread : ∀ a, part a ∈ pack → read (part a).getPack = some (stored a)) :
    (getNested pack field).bind read = o.map stored := by
  rw [getNested, h, getItem_pushSome]
  cases o with
  | none => rfl
  | some a =>
    have hm : part a ∈ pack :=
      List.mem_of_find?_eq_some (h.trans (by simp [getItem_pushSome, htype]))
    simp [htype, hread a hm]

theorem getNested_pushSome_map {o : Option α} (part : α → Tlv) {read : TlvPack → β}
    {stored : α → β} (htype : ∀ a, (part a).type = field)
    (h : pack.getItem field = (pushSome o part).getItem field)
    (hread : ∀ a, part a ∈ pack → read (part a).getPack = stored a) :
    (getNested pack field).map read = o.map stored := by
  have hbind : (getNested pack field).bind (fun p => some (read p)) = o.map stored :=
    getNested_pushSome htype h (fun a hm => congrArg some (hread a hm))
  rw [← hbind]
  cases getNested pack field <;> rfl

end Optional

namespace Quote

def stored (q : Quote) : Quote :=
  { q with
    text := textValue q.text, format := q.format.map FormatData.stored, sender := textValue q.sender
    chat := textValue q.chat, chatStamp := textValue q.chatStamp, chatName := textValue q.chatName
    senderFriendly := textValue q.senderFriendly, url := textValue q.url
    description := textValue q.description
    descriptionFormat := q.descriptionFormat.map FormatData.stored
    sharedContact := q.sharedContact.map SharedContactData.stored, geo := q.geo.map GeoData.stored
    poll := q.poll.map PollData.stored, task := q.task.map storedTask }

theorem texts_serialize (q : Quote) :
    (getText q.serialize mfQuoteText).getD [] = textValue q.text ∧
      (getText q.serialize mfQuoteSn).getD [] = textValue q.sender ∧
      (getText q.serialize mfQuoteChatId).getD [] = textValue q.chat ∧
      (getText q.serialize mfQuoteFriendly).getD [] = textValue q.senderFriendly ∧
      (getText q.serialize mfQuoteChatStamp).getD [] = textValue q.chatStamp ∧
      (getText q.serialize mfQuoteChatName).getD [] = textValue q.chatName ∧
      (getText q.serialize mfQuoteUrl).getD [] = textValue q.url ∧
      (getText q.serialize mfQuoteDescription).getD [] = textValue q.description := by
  refine ⟨?_, ?_, ?_, ?_, ?_, ?_, ?_, ?_⟩ <;> apply getText_pushText <;>
    simp +decide [serialize, TlvPack.getItem_append, TlvPack.getItem_cons, getItem_pushSome]

theorem scalars_serialize (q : Quote) :
    (getScalar Int32 q.serialize mfQuoteTime).getD (-1) = q.time ∧
      (getScalar Int64 q.serialize mfQuoteMsgId).getD (-1) = q.msgId ∧
      (getScalar Int32 q.serialize mfQuoteSetId).getD (-1) = q.setId ∧
      (getScalar Int32 q.serialize mfQuoteStickerId).getD (-1) = q.stickerId ∧
      (getScalar Bool q.serialize mfQuoteIsForward).getD false = q.isForward := by
  refine ⟨?_, ?_, ?_, ?_, ?_⟩
  case refine_5 =>
    simp +decide [serialize, getScalar, TlvPack.getItem_append, TlvPack.getItem_cons]
  all_goals
    apply getScalar_pushIf
    simp +decide [serialize, TlvPack.getItem_append, TlvPack.getItem_cons, getItem_pushSome]

theorem parts_serialize {q : Quote} (h : Fits q.serialize) :
    (getNested q.serialize mfSharedContact).bind SharedContactData.unserialize =
        q.sharedContact.map SharedContactData.stored ∧
      (getNested q.serialize mfGeo).bind GeoData.unserialize = q.geo.map GeoData.stored ∧
      (getNested q.serialize mfPoll).map PollData.unserialize = q.poll.map PollData.stored ∧
      (getNested q.serialize mfTask).map unserializeTask = q.task.map storedTask ∧
      (getNested q.serialize mfFormat).map FormatData.unserialize =
        q.format.map FormatData.stored ∧
      (getNested q.serialize mfDescriptionFormat).map FormatData.unserialize =
        q.descriptionFormat.map FormatData.stored := by
  refine ⟨getNested_pushSome SharedContactData.type_serialize ?_
      (fun _ hm => SharedContactData.unserialize_serialize h hm),
    getNested_pushSome GeoData.type_serialize ?_ (fun _ hm => GeoData.unserialize_serialize h hm),
    getNested_pushSome_map PollData.serialize PollData.type_serialize ?_
      (fun _ hm => PollData.unserialize_serialize h hm),
    getNested_pushSome_map serializeTask type_serializeTask ?_
      (fun _ hm => unserializeTask_serializeTask h hm),
    getNested_pushSome_map (fun f => .ofPack mfFormat (FormatData.serialize f)) (fun _ => rfl) ?_
      (fun _ hm => FormatData.unserialize_inner h hm),
    getNested_pushSome_map (fun f => .ofPack mfDescriptionFormat (FormatData.serialize f))
      (fun _ => rfl) ?_ (fun _ hm => FormatData.unserialize_inner h hm)⟩ <;>
    simp +decide [serialize, TlvPack.getItem_append, TlvPack.getItem_cons, getItem_pushSome]

theorem unserialize_serialize {q : Quote} (h : Fits q.serialize) :
    unserialize q.serialize = q.stored := by
  obtain ⟨htext, hsn, hchat, hfriendly, hstamp, hname, hurl, hdescription⟩ := texts_serialize q
  obtain ⟨htime, hid, hset, hsticker, hforward⟩ := scalars_serialize q
  obtain ⟨hcontact, hgeo, hpoll, htask, hformat, hdescriptionFormat⟩ := parts_serialize h
  unfold unserialize
  rw [htext, hsn, hchat, hfriendly, hstamp, hname, hurl, hdescription, htime, hid, hset, hsticker,
    hforward, hformat, hdescriptionFormat, hcontact, hgeo, hpoll, htask]
  rfl

end Quote

namespace UrlSnippet

def stored (s : UrlSnippet) : UrlSnippet :=
  { s with
    url := textValue s.url, contentType := textValue s.contentType
    previewUrl := textValue s.previewUrl, title := textValue s.title
    description := textValue s.description }

theorem unserialize_serialize (s : UrlSnippet) : unserialize s.serialize = s.stored := by
  have htexts : (getText s.serialize mfSnippetUrl).getD [] = textValue s.url ∧
      (getText s.serialize mfSnippetContentType).getD [] = textValue s.contentType ∧
      (getText s.serialize mfSnippetPreviewUrl).getD [] = textValue s.previewUrl ∧
      (getText s.serialize mfSnippetTitle).getD [] = textValue s.title ∧
      (getText s.serialize mfSnippetDescription).getD [] = textValue s.description := by
    refine ⟨?_, ?_, ?_, ?_, ?_⟩ <;> apply getText_pushText <;>
      simp +decide [serialize, TlvPack.getItem_append]
  have hsizes : (getScalar Int32 s.serialize mfSnippetPreviewW).getD 0 = s.previewWidth ∧
      (getScalar Int32 s.serialize mfSnippetPreviewH).getD 0 = s.previewHeight := by
    constructor <;> apply getScalar_pushIf <;> simp +decide [serialize, TlvPack.getItem_append]
  unfold unserialize
  rw [htexts.1, htexts.2.1, htexts.2.2.1, htexts.2.2.2.1, htexts.2.2.2.2, hsizes.1, hsizes.2]
  rfl

end UrlSnippet

namespace HistoryMessage

/-- A mention without an id or without a name is not read. -/
def storeMention (read : MentionsMap) (m : Bytes × Bytes) : MentionsMap :=
  if !(textValue m.1).isEmpty && !(textValue m.2).isEmpty then
    read.emplace (textValue m.1) (textValue m.2)
  else read

/-- The fields that are read before a message may turn out to be one kept as JSON. -/
def storedHead (m : HistoryMessage) : HistoryMessage :=
  { msgid := m.msgid, prevMsgid := m.prevMsgid, flags := m.flags, time := m.time
    text := textValue m.text, internalId := textValue m.internalId
    senderFriendly := textValue m.senderFriendly
    updatePatchVersion :=
      { versionString := textValue m.updatePatchVersion.versionString
        offlineVersion := m.updatePatchVersion.offlineVersion }
    description := textValue m.description, url := textValue m.url, json := textValue m.json
    senderAimid := textValue m.senderAimid }

/-- What a message is once it was written and read. Reading the reactions takes the JSON away. -/
def stored (w : Surroundings) (m : HistoryMessage) : HistoryMessage :=
  { m.storedHead with
    json := if m.reactions.isNone then textValue m.json else []
    buttonsJson := textValue m.buttonsJson
    buttons := unserializeButtons w (textValue m.buttonsJson)
    hideEdit := m.hideEdit
    threadId := textValue m.threadId
    format := m.format.map FormatData.stored
    chat := m.chat.map (ChatData.stored w.unset)
    sticker := m.sticker.map StickerData.stored
    mult := m.mult
    voip := m.voip.bind VoipData.stored
    fileSharing := m.fileSharing.map FileSharingData.stored
    chatEvent := m.chatEvent.map (ChatEventData.stored w.unset)
    quotes := m.quotes.map Quote.stored
    mentions := m.mentions.items.foldl storeMention ∅
    snippets := m.snippets.map UrlSnippet.stored
    sharedContact := m.sharedContact.map SharedContactData.stored
    geo := m.geo.map GeoData.stored
    poll := m.poll.map PollData.stored
    task := m.task.map storedTask
    reactions := m.reactions.map MessageReactions.stored
    descriptionFormat := m.descriptionFormat.map FormatData.stored }

section Reading

variable {w : Surroundings} {c c' : HistoryMessage} {a a' : Bytes}

/-- Go on with the rest of the fields. -/
def Progress.resume (w : Surroundings) (rest : TlvPack) : Progress → Outcome Progress
  | .next m aimid => readFields w m aimid rest
  | .done m aimid => .ok (.done m aimid)

theorem readFields_cons (field : Tlv) (rest : TlvPack) :
    readFields w c a (field :: rest) = (readField w c a field >>= Progress.resume w rest) := rfl

theorem readFields_next {before after : TlvPack}
    (h : readFields w c a before = .ok (.next c' a')) :
    readFields w c a (before ++ after) = readFields w c' a' after := by
  induction before generalizing c a with
  | nil =>
    simp only [readFields, Outcome.ok.injEq, Progress.next.injEq] at h
    rw [h.1, h.2, List.nil_append]
  | cons field before ih =>
    rw [List.cons_append, readFields_cons]
    rw [readFields_cons] at h
    cases hr : readField w c a field with
    | ok r =>
      rw [hr, Outcome.ok_bind] at h
      rw [Outcome.ok_bind]
      cases r with
      | next m aimid => exact ih h
      | done m aimid => cases h
    | refused => rw [hr] at h; cases h
    | crashed => rw [hr] at h; cases h

theorem readJson_next (h : c.json = [] ∨ c.senderAimid = []) :
    readJson w c a = .ok (.next c a) := by
  rcases h with h | h <;> simp [readJson, h]

theorem readJson_done (hj : c.json ≠ []) (hs : c.senderAimid ≠ []) :
    readJson w c a = (w.parseMessage c c.json c.senderAimid >>= fun m => .ok (.done m a)) := by
  simp [readJson, hj, hs]

/-- The fields up to the one after which a message may be read from its JSON. -/
theorem read_head (m : HistoryMessage) (rest : TlvPack) :
    readFields w {} a (m.serializeHead ++ rest) =
      (readJson w m.storedHead a >>= Progress.resume w
        ([.ofText mfButtons m.buttonsJson, .ofScalar mfHideEdit m.hideEdit] ++ rest)) := by
  have hfirst : readFields w {} a (m.serializeHead.take 12) =
      .ok (.next { m.storedHead with senderAimid := [] } a) := by
    simp +decide [serializeHead, readFields, readField, readJson, storedHead]
  have hsplit : m.serializeHead ++ rest = m.serializeHead.take 12 ++
      (.ofText mfSenderAimid m.senderAimid ::
        ([.ofText mfButtons m.buttonsJson, .ofScalar mfHideEdit m.hideEdit] ++ rest)) := rfl
  have hsender : readField w { m.storedHead with senderAimid := [] } a
      (.ofText mfSenderAimid m.senderAimid) = readJson w m.storedHead a := by
    simp +decide [readField, storedHead]
  rw [hsplit, readFields_next hfirst, readFields_cons, hsender]

theorem read_buttons (m : HistoryMessage) :
    readFields w c a [.ofText mfButtons m.buttonsJson, .ofScalar mfHideEdit m.hideEdit] =
      .ok (.next { c with
        buttonsJson := textValue m.buttonsJson
        buttons := unserializeButtons w (textValue m.buttonsJson)
        hideEdit := m.hideEdit } a) := by
  simp +decide [readFields, readField]

/-- A part that is written at most once. -/
theorem readFields_pushSome {α : Type} {o : Option α} {part : α → Tlv}
    (set : Option α → HistoryMessage) (hnone : set none = c)
    (hsome : ∀ x, part x ∈ pushSome o part →
      readField w c a (part x) = .ok (.next (set (some x)) a)) :
    readFields w c a (pushSome o part) = .ok (.next (set o) a) := by
  cases o with
  | none => rw [hnone]; rfl
  | some x =>
    have hread := hsome x (mem_pushSome.mpr ⟨x, rfl, rfl⟩)
    rw [show pushSome (some x) part = [part x] from rfl, readFields_cons, hread]
    rfl

theorem read_threadId {threadId : Bytes} (hc : c.threadId = []) :
    readFields w c a (pushText mfThreadId threadId) =
      .ok (.next { c with threadId := textValue threadId } a) := by
  by_cases ht : threadId = []
  · have hsame : { c with threadId := [] } = c := by rw [← hc]
    rw [ht, textValue_nil, hsame]
    rfl
  · simp +decide [pushText, pushIf, ht, readFields, readField]

section Parts

theorem read_format {o : Option FormatData} (hc : c.format = none)
    (hfits : Fits (pushSome o (fun f => .ofPack mfFormat (FormatData.serialize f)))) :
    readFields w c a (pushSome o (fun f => .ofPack mfFormat (FormatData.serialize f))) =
      .ok (.next { c with format := o.map FormatData.stored } a) := by
  refine readFields_pushSome (fun o => { c with format := o.map FormatData.stored })
    (by rw [Option.map_none, ← hc]) (fun x hin => ?_)
  simp +decide [readField, FormatData.unserialize_inner hfits hin]

theorem read_descriptionFormat {o : Option FormatData} (hc : c.descriptionFormat = none)
    (hfits : Fits (pushSome o (fun f => .ofPack mfDescriptionFormat (FormatData.serialize f)))) :
    readFields w c a (pushSome o (fun f => .ofPack mfDescriptionFormat (FormatData.serialize f))) =
      .ok (.next { c with descriptionFormat := o.map FormatData.stored } a) := by
  refine readFields_pushSome (fun o => { c with descriptionFormat := o.map FormatData.stored })
    (by rw [Option.map_none, ← hc]) (fun x hin => ?_)
  simp +decide [readField, FormatData.unserialize_inner hfits hin]

theorem read_chat {o : Option ChatData} (hc : c.chat = none)
    (hfits : Fits (pushSome o (fun x => .ofPack mfChat (x.serialize w.unset)))) :
    readFields w c a (pushSome o (fun x => .ofPack mfChat (x.serialize w.unset))) =
      .ok (.next { c with chat := o.map (ChatData.stored w.unset) } a) := by
  refine readFields_pushSome (fun o => { c with chat := o.map (ChatData.stored w.unset) })
    (by rw [Option.map_none, ← hc]) (fun x hin => ?_)
  simp +decide [readField, hfits.getPack hin, ChatData.unserialize_serialize]

theorem read_sticker {o : Option StickerData} (hc : c.sticker = none)
    (hfits : Fits (pushSome o (fun x => .ofPack mfSticker x.serialize))) :
    readFields w c a (pushSome o (fun x => .ofPack mfSticker x.serialize)) =
      .ok (.next { c with sticker := o.map StickerData.stored } a) := by
  refine readFields_pushSome (fun o => { c with sticker := o.map StickerData.stored })
    (by rw [Option.map_none, ← hc]) (fun x hin => ?_)
  simp +decide [readField, hfits.getPack hin, StickerData.unserialize_serialize]

theorem read_mult {o : Option Unit} (hc : c.mult = none) :
    readFields w c a (pushSome o (fun _ => .ofPack mfMult [])) =
      .ok (.next { c with mult := o } a) := by
  refine readFields_pushSome (fun o => { c with mult := o }) (by rw [← hc]) (fun x _ => ?_)
  simp +decide [readField]

theorem read_voip {o : Option VoipData} (hc : c.voip = none)
    (hfits : Fits (pushSome o (fun x => .ofPack mfVoip x.serialize))) :
    readFields w c a (pushSome o (fun x => .ofPack mfVoip x.serialize)) =
      .ok (.next { c with voip := o.bind VoipData.stored } a) := by
  refine readFields_pushSome (fun o => { c with voip := o.bind VoipData.stored })
    (by rw [Option.bind_none, ← hc]) (fun x hin => ?_)
  simp +decide [readField, hfits.getPack hin, VoipData.unserialize_serialize (hfits.inner hin)]

theorem read_fileSharing {o : Option FileSharingData} (hc : c.fileSharing = none)
    (hfits : Fits (pushSome o (fun x => .ofPack mfFileSharing x.serialize))) :
    readFields w c a (pushSome o (fun x => .ofPack mfFileSharing x.serialize)) =
      .ok (.next { c with fileSharing := o.map FileSharingData.stored } a) := by
  refine readFields_pushSome (fun o => { c with fileSharing := o.map FileSharingData.stored })
    (by rw [Option.map_none, ← hc]) (fun x hin => ?_)
  simp +decide [readField, hfits.getPack hin, FileSharingData.unserialize_serialize]

theorem read_chatEvent {o : Option ChatEventData} (hc : c.chatEvent = none)
    (hfits : Fits (pushSome o (fun x => .ofPack mfChatEvent x.serialize))) :
    readFields w c a (pushSome o (fun x => .ofPack mfChatEvent x.serialize)) =
      .ok (.next { c with chatEvent := o.map (ChatEventData.stored w.unset) } a) := by
  refine readFields_pushSome (fun o => { c with chatEvent := o.map (ChatEventData.stored w.unset) })
    (by rw [Option.map_none, ← hc]) (fun x hin => ?_)
  simp +decide [readField, hfits.getPack hin, ChatEventData.unserialize_serialize (hfits.inner hin)]

theorem read_sharedContact {o : Option SharedContactData} (hc : c.sharedContact = none)
    (hfits : Fits (pushSome o SharedContactData.serialize)) :
    readFields w c a (pushSome o SharedContactData.serialize) =
      .ok (.next { c with sharedContact := o.map SharedContactData.stored } a) := by
  refine readFields_pushSome (fun o => { c with sharedContact := o.map SharedContactData.stored })
    (by rw [Option.map_none, ← hc]) (fun x hin => ?_)
  simp +decide [readField, SharedContactData.unserialize_serialize hfits hin]

theorem read_geo {o : Option GeoData} (hc : c.geo = none)
    (hfits : Fits (pushSome o GeoData.serialize)) :
    readFields w c a (pushSome o GeoData.serialize) =
      .ok (.next { c with geo := o.map GeoData.stored } a) := by
  refine readFields_pushSome (fun o => { c with geo := o.map GeoData.stored })
    (by rw [Option.map_none, ← hc]) (fun x hin => ?_)
  simp +decide [readField, GeoData.unserialize_serialize hfits hin]

theorem read_poll {o : Option PollData} (hc : c.poll = none)
    (hfits : Fits (pushSome o PollData.serialize)) :
    readFields w c a (pushSome o PollData.serialize) =
      .ok (.next { c with poll := o.map PollData.stored } a) := by
  refine readFields_pushSome (fun o => { c with poll := o.map PollData.stored })
    (by rw [Option.map_none, ← hc]) (fun x hin => ?_)
  simp +decide [readField, PollData.unserialize_serialize hfits hin]

theorem read_task {o : Option TaskData} (hc : c.task = none)
    (hfits : Fits (pushSome o serializeTask)) :
    readFields w c a (pushSome o serializeTask) =
      .ok (.next { c with task := o.map storedTask } a) := by
  refine readFields_pushSome (fun o => { c with task := o.map storedTask })
    (by rw [Option.map_none, ← hc]) (fun x hin => ?_)
  simp +decide [readField, unserializeTask_serializeTask hfits hin]

theorem read_quotes {quotes : List Quote}
    (hfits : Fits (quotes.map (fun q => Tlv.ofPack mfQuote q.serialize))) :
    readFields w c a (quotes.map (fun q => .ofPack mfQuote q.serialize)) =
      .ok (.next { c with quotes := c.quotes ++ quotes.map Quote.stored } a) := by
  induction quotes generalizing c with
  | nil => simp [readFields]
  | cons q quotes ih =>
    obtain ⟨hin, hrest⟩ := Fits.cons.mp hfits
    have hread : readField w c a (.ofPack mfQuote q.serialize) =
        .ok (.next { c with quotes := c.quotes ++ [q.stored] } a) := by
      simp +decide [readField, getPack_ofPack hin,
        Quote.unserialize_serialize (hfits.inner List.mem_cons_self)]
    rw [List.map_cons, readFields_cons, hread, Outcome.ok_bind, Progress.resume, ih hrest]
    simp

theorem read_snippets {snippets : List UrlSnippet}
    (hfits : Fits (snippets.map (fun s => Tlv.ofPack mfSnippet s.serialize))) :
    readFields w c a (snippets.map (fun s => .ofPack mfSnippet s.serialize)) =
      .ok (.next { c with snippets := c.snippets ++ snippets.map UrlSnippet.stored } a) := by
  induction snippets generalizing c with
  | nil => simp [readFields]
  | cons s snippets ih =>
    obtain ⟨hin, hrest⟩ := Fits.cons.mp hfits
    have hread : readField w c a (.ofPack mfSnippet s.serialize) =
        .ok (.next { c with snippets := c.snippets ++ [s.stored] } a) := by
      simp +decide [readField, getPack_ofPack hin, UrlSnippet.unserialize_serialize]
    rw [List.map_cons, readFields_cons, hread, Outcome.ok_bind, Progress.resume, ih hrest]
    simp

theorem read_mentions {mentions : List (Bytes × Bytes)}
    (hfits : Fits (mentions.map serializeMention)) :
    readFields w c a (mentions.map serializeMention) =
      .ok (.next { c with mentions := mentions.foldl storeMention c.mentions } a) := by
  induction mentions generalizing c with
  | nil => rfl
  | cons m mentions ih =>
    obtain ⟨hin, hrest⟩ := Fits.cons.mp hfits
    have hpack : (serializeMention m).getPack =
        [.ofText mfMentionSn m.1, .ofText mfMentionFriendly m.2] := getPack_ofPack hin
    have hmention : readMention c (serializeMention m).getPack =
        { c with mentions := storeMention c.mentions m } := by
      rw [hpack]
      simp +decide only [readMention, getText, TlvPack.getItem_cons, TlvPack.getItem_nil, type_ofText,
        Option.map_some, value_ofText, if_true, if_false, storeMention]
      split <;> rfl
    have hread : readField w c a (serializeMention m) =
        .ok (.next { c with mentions := storeMention c.mentions m } a) := by
      rw [← hmention]
      simp +decide [readField, serializeMention]
    rw [List.map_cons, readFields_cons, hread, Outcome.ok_bind, Progress.resume, ih hrest]
    rfl

end Parts

/-- Reading the reactions takes the JSON away. -/
theorem read_reactions {o : Option MessageReactions} (hc : c.reactions = none) :
    readFields w c a (pushSome o MessageReactions.serialize) =
      .ok (.next
        { c with
          reactions := o.map MessageReactions.stored, json := if o.isNone then c.json else [] } a) := by
  refine readFields_pushSome
    (fun o => { c with
      reactions := o.map MessageReactions.stored, json := if o.isNone then c.json else [] })
    (by cases c; cases hc; rfl) (fun x _ => ?_)
  have hread : readField w c a x.serialize =
      readJson w { c with reactions := some x.stored, json := [] } a := by
    have htext : x.serialize.textAfterPack = [] := textAfterPack_ofPack x.length_value_serialize
    simp +decide [readField, x.unserialize_serialize, htext]
  rw [hread, readJson_next (Or.inl rfl)]
  rfl

theorem read_aimid (aimid : Bytes) :
    readFields w c a [.ofText mfCallAimid aimid] = .ok (.next c (textValue aimid)) := by
  simp +decide [readFields, readField]

end Reading

section Message

variable {w : Surroundings} {m : HistoryMessage} {aimid a : Bytes}

/-- The fields behind the head. -/
def serializeRest (w : Surroundings) (m : HistoryMessage) (aimid : Bytes) : TlvPack :=
  (m.serializePack w aimid).drop 15

theorem serializePack_eq (w : Surroundings) (m : HistoryMessage) (aimid : Bytes) :
    m.serializePack w aimid = m.serializeHead ++ m.serializeRest w aimid := rfl

/-- Everything behind the head is read back. -/
theorem read_rest (hfits : Fits (m.serializePack w aimid)) :
    readFields w m.storedHead a
        ([.ofText mfButtons m.buttonsJson, .ofScalar mfHideEdit m.hideEdit] ++
          m.serializeRest w aimid) =
      .ok (.next (m.stored w) (textValue aimid)) := by
  simp only [serializePack, Fits.append] at hfits
  obtain ⟨-, -, hformat, hchat, hsticker, -, hvoip, hfile, hevent, hquotes, hmentions, hsnippets,
    hcontact, hgeo, hpoll, htask, -, -, hdescription⟩ := hfits
  rw [readFields_next (read_buttons m), serializeRest]
  change readFields _ _ _ (pushText mfThreadId m.threadId ++ _) = _
  rw [readFields_next (read_threadId rfl), readFields_next (read_format rfl hformat),
    readFields_next (read_chat rfl hchat), readFields_next (read_sticker rfl hsticker),
    readFields_next (read_mult rfl), readFields_next (read_voip rfl hvoip),
    readFields_next (read_fileSharing rfl hfile), readFields_next (read_chatEvent rfl hevent),
    readFields_next (read_quotes hquotes), readFields_next (read_mentions hmentions),
    readFields_next (read_snippets hsnippets), readFields_next (read_sharedContact rfl hcontact),
    readFields_next (read_geo rfl hgeo), readFields_next (read_poll rfl hpoll),
    readFields_next (read_task rfl htask), readFields_next (read_reactions rfl),
    readFields_next (read_aimid aimid), read_descriptionFormat rfl hdescription]
  rfl

theorem unserializeCall_eq (hfits : Fits (m.serializePack w aimid)) :
    unserializeCall w a (m.serializeCall w aimid) =
      (readJson w m.storedHead a >>= fun
        | .next _ _ => .ok (m.stored w, textValue aimid)
        | .done m aimid => .ok (m, aimid)) := by
  rw [unserializeCall, serializeCall, TlvPack.unserialize_serialize hfits]
  simp only [Bool.not_true, Bool.false_eq_true, if_false]
  rw [serializePack_eq, read_head]
  unfold readJson
  split
  · cases w.parseMessage m.storedHead m.storedHead.json m.storedHead.senderAimid <;> rfl
  · simp only [Outcome.pure_eq_ok, Outcome.ok_bind, Progress.resume, read_rest hfits]

/-- A message that is not kept as JSON is read as what was stored of it. -/
theorem unserializeCall_stored (hfits : Fits (m.serializePack w aimid))
    (h : textValue m.json = [] ∨ textValue m.senderAimid = []) :
    unserializeCall w a (m.serializeCall w aimid) = .ok (m.stored w, textValue aimid) := by
  rw [unserializeCall_eq hfits, readJson_next h]
  rfl

/-- One that is kept as JSON is read from there. -/
theorem unserializeCall_json (hfits : Fits (m.serializePack w aimid)) (hj : textValue m.json ≠ [])
    (hs : textValue m.senderAimid ≠ []) :
    unserializeCall w a (m.serializeCall w aimid) =
      (w.parseMessage m.storedHead (textValue m.json) (textValue m.senderAimid) >>=
        fun r => .ok (r, a)) := by
  rw [unserializeCall_eq hfits, readJson_done hj hs]
  cases hp : w.parseMessage m.storedHead m.storedHead.json m.storedHead.senderAimid <;>
    simp only [storedHead] at hp ⊢ <;> rw [hp] <;> rfl

/-- A reader of JSON that finds nothing in it. -/
def blank : Surroundings where
  parseButtons _ := []
  parseMessage m _ _ := .ok m
  unset := false

/-- "hi", from somebody who is mentioned in it. -/
def greeting : HistoryMessage :=
  { msgid := 7, time := 100, text := [104, 105], senderFriendly := [65]
    mentions := MentionsMap.emplace ∅ [49] [65] }

end Message

end HistoryMessage

end Icq.Archive
