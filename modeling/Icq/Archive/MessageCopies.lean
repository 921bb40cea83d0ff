import Icq.Archive.DlgState
import Icq.Archive.MessageRoundTrip
import Icq.Tools.TlvPack

/-! What a copy of a message stores, and whose content a merge leaves. -/

namespace Icq.Archive
open Icq.Lib Icq.Tools Tlv

namespace HistoryMessage

/-- Take over another message. What is kept as JSON, the buttons and the reactions stay. -/
def copy (m other : HistoryMessage) : HistoryMessage :=
  { m with
    msgid := other.msgid, prevMsgid := other.prevMsgid, internalId := other.internalId
    updatePatchVersion := other.updatePatchVersion, time := other.time, text := other.text
    format := other.format, dataOffset := other.dataOffset, dataSize := other.dataSize
    flags := other.flags, senderFriendly := other.senderFriendly, quotes := other.quotes
    mentions := other.mentions, snippets := other.snippets, url := other.url
    description := other.description, descriptionFormat := other.descriptionFormat
    unsupported := other.unsupported, hideEdit := other.hideEdit, threadId := other.threadId
    sticker := other.sticker, mult := other.mult, voip := other.voip, chat := other.chat
    fileSharing := other.fileSharing, chatEvent := other.chatEvent
    sharedContact := other.sharedContact, geo := other.geo, poll := other.poll
    task := other.task }

/-- What a copy leaves as it was is stored alike for both. -/
structure SameUncopied (m other : HistoryMessage) : Prop where
  json : textValue m.json = textValue other.json
  senderAimid : textValue m.senderAimid = textValue other.senderAimid
  buttonsJson : textValue m.buttonsJson = textValue other.buttonsJson
  reactions : m.reactions.map MessageReactions.exist = other.reactions.map MessageReactions.exist

/-- What a copy leaves as it was and is written as text. -/
def serializeUncopied (m : HistoryMessage) : TlvPack :=
  [.ofText mfJson m.json, .ofText mfSenderAimid m.senderAimid, .ofText mfButtons m.buttonsJson]

section Copy

variable {w : Surroundings} {target m : HistoryMessage}

theorem serialize_ofText_inj {type : UInt32} {a b rest rest' : Bytes}
    (h : (ofText type a).serialize ++ rest = (ofText type b).serialize ++ rest') :
    textValue a = textValue b ∧ rest = rest' := by
  have hread := congrArg Tlv.unserialize h
  rw [Tlv.unserialize_serialize (length_textValue a), Tlv.unserialize_serialize (length_textValue b)]
    at hread
  obtain ⟨ht, hrest⟩ := Prod.mk.inj (Outcome.ok.inj hread)
  exact ⟨congrArg Tlv.value ht, hrest⟩

theorem serializeUncopied_inj {rest rest' : Bytes}
    (h : target.serializeUncopied.serialize ++ rest = m.serializeUncopied.serialize ++ rest') :
    target.serializeUncopied = m.serializeUncopied ∧ rest = rest' := by
  simp only [serializeUncopied, TlvPack.serialize, List.flatMap_cons, List.flatMap_nil,
    List.append_nil, List.append_assoc] at h
  obtain ⟨hjson, h⟩ := serialize_ofText_inj h
  obtain ⟨haimid, h⟩ := serialize_ofText_inj h
  obtain ⟨hbuttons, h⟩ := serialize_ofText_inj h
  refine ⟨?_, h⟩
  simp only [serializeUncopied, ofText, hjson, haimid, hbuttons]

theorem serialize_reactions_inj {a b : Option MessageReactions} {rest : Bytes}
    (h : (pushSome a MessageReactions.serialize).serialize ++ rest =
      (pushSome b MessageReactions.serialize).serialize ++ rest) :
    a.map MessageReactions.exist = b.map MessageReactions.exist := by
  have h := List.append_cancel_right h
  have hwritten (r : MessageReactions) : r.serialize.serialize ≠ [] := by
    intro hnil
    have hlength := Tlv.length_serialize r.serialize
    rw [hnil, List.length_nil] at hlength
    omega
  cases a with
  | none =>
    cases b with
    | none => rfl
    | some b =>
      simp only [pushSome, TlvPack.serialize] at h
      exact absurd h.symm (by simpa using hwritten b)
  | some a =>
    cases b with
    | none =>
      simp only [pushSome, TlvPack.serialize] at h
      exact absurd h (by simpa using hwritten a)
    | some b =>
      simp only [pushSome, TlvPack.serialize, Option.toList_some, List.map_cons, List.map_nil,
        List.flatMap_cons, List.flatMap_nil] at h
      have hread := congrArg Tlv.unserialize h
      rw [Tlv.unserialize_serialize a.length_value_serialize,
        Tlv.unserialize_serialize b.length_value_serialize] at hread
      have ht := congrArg Tlv.getPack (Prod.mk.inj (Outcome.ok.inj hread)).1
      have hsame := congrArg MessageReactions.unserialize ht
      rw [MessageReactions.unserialize_serialize, MessageReactions.unserialize_serialize] at hsame
      simpa [MessageReactions.stored] using hsame

/-- Only whether there are reactions is written of them. -/
theorem serialize_reactions_congr {a b : Option MessageReactions}
    (h : a.map MessageReactions.exist = b.map MessageReactions.exist) :
    pushSome a MessageReactions.serialize = pushSome b MessageReactions.serialize := by
  cases a <;> cases b <;> simp_all [pushSome, MessageReactions.serialize]

/-- The fields around those that a copy leaves as they were. -/
theorem serialize_split (w : Surroundings) (m : HistoryMessage) : ∃ before between after : Bytes,
    ∀ target : HistoryMessage, (target.copy m).serialize w =
      before ++ (target.serializeUncopied.serialize ++ (between ++
        ((pushSome target.reactions MessageReactions.serialize).serialize ++ after))) := by
  refine ⟨TlvPack.serialize (m.serializeHead.take 11),
    TlvPack.serialize ([.ofScalar mfHideEdit m.hideEdit] ++ (pushText mfThreadId m.threadId ++
      (pushSome m.format (fun f => .ofPack mfFormat (FormatData.serialize f)) ++
        (pushSome m.chat (fun c => .ofPack mfChat (c.serialize w.unset)) ++
          (pushSome m.sticker (fun s => .ofPack mfSticker s.serialize) ++
            (pushSome m.mult (fun _ => .ofPack mfMult []) ++
              (pushSome m.voip (fun v => .ofPack mfVoip v.serialize) ++
                (pushSome m.fileSharing (fun f => .ofPack mfFileSharing f.serialize) ++
                  (pushSome m.chatEvent (fun e => .ofPack mfChatEvent e.serialize) ++
                    (m.quotes.map (fun q => .ofPack mfQuote q.serialize) ++
                      (m.mentions.items.map serializeMention ++
                        (m.snippets.map (fun s => .ofPack mfSnippet s.serialize) ++
                          (pushSome m.sharedContact SharedContactData.serialize ++
                            (pushSome m.geo GeoData.serialize ++
                              (pushSome m.poll PollData.serialize ++
                                pushSome m.task serializeTask))))))))))))))),
    TlvPack.serialize ([.ofText mfCallAimid []] ++ pushSome m.descriptionFormat (fun f =>
      .ofPack mfDescriptionFormat (FormatData.serialize f))), fun target => ?_⟩
  simp only [← TlvPack.serialize_append]
  rw [serialize, serializeCall]
  refine congrArg TlvPack.serialize ?_
  simp only [List.append_assoc]
  rfl

/-- A copy over a message is stored as the copied one just when what is not copied is stored
alike. The copy that is made anew is one over an empty message. -/
theorem serialize_copy_iff (w : Surroundings) (target m : HistoryMessage) :
    (target.copy m).serialize w = m.serialize w ↔ SameUncopied target m := by
  obtain ⟨before, between, after, hsplit⟩ := serialize_split w m
  have hself : m.copy m = m := rfl
  have hm := hsplit m
  rw [hself] at hm
  rw [hsplit target, hm, List.append_cancel_left_eq]
  constructor
  · intro h
    obtain ⟨hpack, hrest⟩ := serializeUncopied_inj h
    simp only [serializeUncopied, List.cons.injEq, and_true] at hpack
    obtain ⟨hjson, haimid, hbuttons⟩ := hpack
    exact ⟨congrArg Tlv.value hjson, congrArg Tlv.value haimid, congrArg Tlv.value hbuttons,
      serialize_reactions_inj (List.append_cancel_left hrest)⟩
  · rintro ⟨hjson, haimid, hbuttons, hreactions⟩
    have hpack : target.serializeUncopied = m.serializeUncopied := by
      simp only [serializeUncopied, ofText, hjson, haimid, hbuttons]
    rw [hpack, serialize_reactions_congr hreactions]

/-- A message of a bot, with a button. -/
def withButton : HistoryMessage := { msgid := 7, text := [104, 105], buttonsJson := [91, 93] }

theorem button_not_copied :
    ¬ ∀ m : HistoryMessage, (({} : HistoryMessage).copy m).serialize blank = m.serialize blank := by
  intro hall
  exact absurd (hall withButton) (by decide)

end Copy

section Merge

/-- The two messages say the same. -/
structure SameContent (m other : HistoryMessage) : Prop where
  text : m.text = other.text
  format : m.format = other.format
  description : m.description = other.description
  descriptionFormat : m.descriptionFormat = other.descriptionFormat
  url : m.url = other.url
  quotes : m.quotes = other.quotes
  mentions : m.mentions = other.mentions
  snippets : m.snippets = other.snippets
  fileSharing : m.fileSharing = other.fileSharing
  sticker : m.sticker = other.sticker
  chatEvent : m.chatEvent = other.chatEvent
  voip : m.voip = other.voip
  sharedContact : m.sharedContact = other.sharedContact
  geo : m.geo = other.geo
  poll : m.poll = other.poll
  task : m.task = other.task
  buttons : m.buttons = other.buttons
  buttonsJson : m.buttonsJson = other.buttonsJson
  reactions : m.reactions = other.reactions
  threadId : m.threadId = other.threadId

/-- Nothing of what a merge leaves as it was differs from the other message, and only a message
without formatted description stands before one without. -/
structure NothingStale (m other : HistoryMessage) : Prop where
  descriptionFormat : other.descriptionFormat = none → m.descriptionFormat = none
  buttons : m.buttons = other.buttons
  buttonsJson : m.buttonsJson = other.buttonsJson
  reactions : m.reactions = other.reactions

theorem merge_sameContent_iff (m other : HistoryMessage) :
    SameContent (m.merge other) other ↔ NothingStale m other := by
  constructor
  · intro h
    refine ⟨fun hnone => ?_, h.buttons, h.buttonsJson, h.reactions⟩
    have hformat : other.descriptionFormat.orElse (fun _ => m.descriptionFormat) =
      other.descriptionFormat := h.descriptionFormat
    rw [hnone] at hformat
    exact hformat
  · intro h
    refine ⟨rfl, rfl, rfl, ?_, rfl, rfl, rfl, rfl, rfl, rfl, rfl, rfl, rfl, rfl, rfl, rfl, h.buttons,
      h.buttonsJson, h.reactions, rfl⟩
    show other.descriptionFormat.orElse (fun _ => m.descriptionFormat) = other.descriptionFormat
    cases hother : other.descriptionFormat with
    | none => exact h.descriptionFormat hother
    | some f => rfl

/-- The old description was in bold; the new one is plain. -/
theorem stale_format_merged :
    ¬ ∀ m other : HistoryMessage, m.msgid = other.msgid → SameContent (m.merge other) other := by
  intro hall
  have h := hall { msgid := 7, descriptionFormat := some [{ type := .bold, range := { size := 2 } }] }
    { msgid := 7, description := [104, 105] } rfl
  exact absurd h.descriptionFormat (by decide)

end Merge

end HistoryMessage

end Icq.Archive
