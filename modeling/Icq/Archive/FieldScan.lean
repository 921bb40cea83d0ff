import Icq.Archive.MessageRoundTrip
import Icq.Tools.TlvPack
import Mathlib.Data.List.TakeWhile

/-! How the search looks into a stored message without reading all of it. -/

namespace Icq.Archive
open Icq.Lib Icq.Tools Tlv

namespace HistoryMessage

/-- Skip fields up to one with a value under the tag. The length is the one that was there before
as long as no field is looked at. -/
def seekField (type : UInt32) : Nat → UInt32 → Bytes → Looked
  | 0, length, bs => { whole := false, length, left := bs }
  | fuel + 1, length, bs =>
    if bs.length = 0 then { whole := false, length, left := bs }
    else
      let looked := tryGetFieldWithType type bs
      if !looked.whole || looked.length != 0 then looked
      else seekField type fuel looked.length looked.left

/-- The stream and the length of the text it stands at. -/
def jumpToTextField (data : Bytes) (length : UInt32) : UInt32 × Bytes :=
  let looked := seekField mfText (data.length + 1) length data
  (looked.length, looked.left)

def isSticker (data : Bytes) : Bool := (seekField mfSticker (data.length + 1) 0 data).whole

def isChatEvent (data : Bytes) : Bool := (seekField mfChatEvent (data.length + 1) 0 data).whole

def getIdField (data : Bytes) : Outcome Int64 :=
  let looked := seekField mfMsgId (data.length + 1) 0 data
  if looked.whole then do
    let (id, _) ← Outcome.deref (Scalar.read Int64 looked.left)
    pure id
  else .ok (-1)

section Seek

variable {type length : UInt32} {pack : TlvPack} {fuel : Nat}

/-- On a written pack the scan stops at the first field under the tag that has a value. -/
theorem seekField_serialize (hfits : Fits pack) (hf : pack.length < fuel) (hne : pack ≠ []) :
    seekField type fuel length pack.serialize =
      match pack.dropWhile (fun t => !isField type t) with
      | [] => { whole := false, length := 0, left := [] }
      | t :: after =>
        { whole := true, length := UInt32.ofNat t.value.length
          left := t.value ++ TlvPack.serialize after } := by
  induction pack generalizing fuel length with
  | nil => exact absurd rfl hne
  | cons t pack ih =>
    obtain ⟨fuel, rfl⟩ := Nat.exists_eq_add_one_of_ne_zero (Nat.ne_zero_of_lt hf)
    obtain ⟨ht, hpack⟩ := Fits.cons.mp hfits
    have hwritten : ¬ (TlvPack.serialize (t :: pack)).length = 0 := by
      simp [TlvPack.serialize, Tlv.serialize, Scalar.width]
    have hlooked : tryGetFieldWithType type (TlvPack.serialize (t :: pack)) = _ :=
      tryGetFieldWithType_serialize ht type (TlvPack.serialize pack)
    rw [seekField, if_neg hwritten, hlooked, List.dropWhile_cons]
    by_cases hfield : isField type t = true
    · have hlength : (UInt32.ofNat t.value.length != 0) = true := by
        rw [isField, Bool.and_eq_true, Bool.not_eq_true'] at hfield
        rw [bne_iff_ne, ne_eq, ← UInt32.toNat_inj, UInt32.toNat_ofNat', Nat.mod_eq_of_lt ht]
        exact Nat.ne_of_gt (List.length_pos_iff.mpr (List.isEmpty_eq_false_iff.mp hfield.2))
      simp only [hfield, if_true, hlength, Bool.or_true, Bool.not_true, Bool.false_eq_true, if_false]
    · simp only [hfield, Bool.false_eq_true, if_false, Bool.not_true, bne_self_eq_false, Bool.or_self,
        Bool.not_false, if_true]
      cases pack with
      | nil =>
        obtain ⟨fuel, rfl⟩ := Nat.exists_eq_add_one_of_ne_zero
          (show fuel ≠ 0 from Nat.ne_zero_of_lt (Nat.lt_of_succ_lt_succ hf))
        rfl
      | cons x pack => exact ih hpack (Nat.lt_of_succ_lt_succ hf) (List.cons_ne_nil x pack)

theorem seekField_whole (hfits : Fits pack) (hf : pack.length < fuel) (hne : pack ≠ []) :
    (seekField type fuel length pack.serialize).whole = pack.any (isField type) := by
  rw [seekField_serialize hfits hf hne]
  cases hdrop : pack.dropWhile (fun t => !isField type t) with
  | nil =>
    refine (List.any_eq_false.mpr fun t ht => ?_).symm
    simpa using List.dropWhile_eq_nil_iff.mp hdrop t ht
  | cons t after =>
    have hhead := List.head?_dropWhile_not (fun t => !isField type t) pack
    rw [hdrop] at hhead
    refine (List.any_eq_true.mpr ⟨t, ?_, by simpa using hhead⟩).symm
    exact (List.dropWhile_sublist _).subset (hdrop ▸ List.mem_cons_self)

end Seek

section Fields

variable {w : Surroundings} {m : HistoryMessage} {aimid : Bytes} {type : UInt32} {α : Type}

theorem any_other {f : α → Tlv} (h : ∀ a, isField type (f a) = false) (l : List α) :
    (l.map f).any (isField type) = false := by
  rw [List.any_map]
  exact List.any_eq_false.mpr fun a _ => by simp [h a]

theorem any_nonempty {f : α → Tlv} (h : ∀ a, isField type (f a) = true) (o : Option α) :
    (pushSome o f).any (isField type) = o.isSome := by
  cases o with
  | none => rfl
  | some a => exact (Bool.or_false _).trans (h a)

theorem any_threadId_other (h : mfThreadId ≠ type) (text : Bytes) :
    (pushText mfThreadId text).any (isField type) = false := by
  cases text with
  | nil => rfl
  | cons b text => simp [pushText, pushIf, isField, h]

/-- Neither the sticker nor the chat event comes more than once. -/
theorem any_sticker : (m.serializePack w aimid).any (isField mfSticker) = m.sticker.isSome := by
  have hhead : m.serializeHead.any (isField mfSticker) = false := rfl
  have hthread := any_threadId_other (show mfThreadId ≠ mfSticker by decide) m.threadId
  rw [serializePack]
  simp only [List.any_append, hhead, hthread]
  rw [any_nonempty (fun _ => rfl) m.sticker]
  simp only [pushSome]
  repeat rw [any_other fun _ => rfl]
  exact Bool.or_false _

theorem any_chatEvent :
    (m.serializePack w aimid).any (isField mfChatEvent) = m.chatEvent.isSome := by
  have hhead : m.serializeHead.any (isField mfChatEvent) = false := rfl
  have hthread := any_threadId_other (show mfThreadId ≠ mfChatEvent by decide) m.threadId
  rw [serializePack]
  simp only [List.any_append, hhead, hthread]
  rw [any_nonempty (fun _ => rfl) m.chatEvent]
  simp only [pushSome]
  repeat rw [any_other fun _ => rfl]
  exact Bool.or_false _

/-- The text is first, and no field behind it has its tag. -/
theorem serializePack_text : ∃ rest, m.serializePack w aimid = ofText mfText m.text ::
      ofScalar mfMsgId m.msgid :: rest ∧
    (ofScalar mfMsgId m.msgid :: rest).any (isField mfText) = false := by
  refine ⟨(m.serializePack w aimid).drop 2, rfl, ?_⟩
  have hhead : m.serializeHead.tail.any (isField mfText) = false := rfl
  have hthread := any_threadId_other (show mfThreadId ≠ mfText by decide) m.threadId
  show (m.serializeHead.tail ++ (pushText mfThreadId m.threadId ++ _)).any (isField mfText) = false
  simp only [List.any_append, hhead, hthread, pushSome]
  repeat rw [any_other fun _ => rfl]
  rfl

section Scan

variable (hfits : Fits (m.serializePack w []))
include hfits

theorem seekField_message (type length : UInt32) :
    seekField type ((m.serialize w).length + 1) length (m.serialize w) =
      match (m.serializePack w []).dropWhile (fun t => !isField type t) with
      | [] => { whole := false, length := 0, left := [] }
      | t :: after =>
        { whole := true, length := UInt32.ofNat t.value.length
          left := t.value ++ TlvPack.serialize after } :=
  seekField_serialize hfits (Nat.lt_succ_of_le (TlvPack.length_le_serialize _))
    (List.cons_ne_nil _ _)

theorem seekField_message_whole (type : UInt32) :
    (seekField type ((m.serialize w).length + 1) 0 (m.serialize w)).whole =
      (m.serializePack w []).any (isField type) :=
  seekField_whole hfits (Nat.lt_succ_of_le (TlvPack.length_le_serialize _)) (List.cons_ne_nil _ _)

theorem getIdField_serialize : getIdField (m.serialize w) = .ok m.msgid := by
  obtain ⟨rest, hpack, -⟩ := @serializePack_text w m []
  have hseek := seekField_message hfits mfMsgId 0
  rw [hpack, List.dropWhile_cons_of_pos rfl, List.dropWhile_cons_of_neg Bool.false_ne_true] at hseek
  rw [getIdField, hseek]
  show (Outcome.deref (Scalar.read Int64 (Scalar.encode m.msgid ++ _)) >>= _) = _
  rw [Scalar.read_encode]
  rfl

theorem jumpToTextField_serialize (length : UInt32) :
    (jumpToTextField (m.serialize w) length).1.toNat = (textValue m.text).length ∧
      (textValue m.text ≠ [] →
        (jumpToTextField (m.serialize w) length).2 = (m.serialize w).drop 8 ∧
          textValue m.text <+: (m.serialize w).drop 8) := by
  obtain ⟨rest, hpack, hrest⟩ := @serializePack_text w m []
  have hseek := seekField_message hfits mfText length
  have hdata : m.serialize w = (ofText mfText m.text).serialize ++
      TlvPack.serialize (ofScalar mfMsgId m.msgid :: rest) := by
    rw [serialize, serializeCall, hpack]
    rfl
  have hdrop : (m.serialize w).drop 8 =
      textValue m.text ++ TlvPack.serialize (ofScalar mfMsgId m.msgid :: rest) := by
    rw [hdata, Tlv.serialize, ← List.append_assoc, List.append_assoc]
    apply List.drop_left'
    rw [List.length_append, Scalar.length_encode, Scalar.length_encode]
    rfl
  rw [jumpToTextField, hseek, hpack]
  by_cases hnil : textValue m.text = []
  · have hnone : (ofText mfText m.text :: ofScalar mfMsgId m.msgid :: rest).dropWhile
        (fun t => !isField mfText t) = [] := by
      rw [List.dropWhile_eq_nil_iff]
      intro t ht
      rw [Bool.not_eq_true']
      rcases List.mem_cons.mp ht with rfl | ht
      · rw [isField, value_ofText, hnil]
        rfl
      · exact Bool.eq_false_of_not_eq_true (List.any_eq_false.mp hrest t ht)
    rw [hnone, hnil]
    exact ⟨rfl, fun h => absurd rfl h⟩
  · have hfield : isField mfText (ofText mfText m.text) = true := by
      rw [isField, value_ofText, List.isEmpty_eq_false_iff.mpr hnil]
      rfl
    rw [List.dropWhile_cons_of_neg (by rw [hfield]; exact Bool.false_ne_true), hdrop]
    refine ⟨?_, fun _ => ⟨rfl, List.prefix_append _ _⟩⟩
    show (UInt32.ofNat (textValue m.text).length).toNat = _
    rw [UInt32.toNat_ofNat', Nat.mod_eq_of_lt (length_textValue m.text)]

end Scan

/-- What the scans of a written message say is what it says itself, and what reading all of it
gives. -/
structure ScanAgrees (w : Surroundings) (m : HistoryMessage) (length : UInt32)
    (read : HistoryMessage) : Prop where
  id : getIdField (m.serialize w) = .ok m.msgid
  sticker : isSticker (m.serialize w) = m.sticker.isSome
  chatEvent : isChatEvent (m.serialize w) = m.chatEvent.isSome
  textLength : (jumpToTextField (m.serialize w) length).1.toNat = m.text.length
  text : m.text ≠ [] →
    (jumpToTextField (m.serialize w) length).2 = (m.serialize w).drop 8 ∧
      m.text <+: (m.serialize w).drop 8
  read_id : read.msgid = m.msgid
  read_sticker : read.sticker.isSome = m.sticker.isSome
  read_chatEvent : read.chatEvent.isSome = m.chatEvent.isSome
  read_text : read.text = m.text

/-- The scans agree with the reader on every message without JSON whose text and records fit. -/
theorem scan_agrees (length : UInt32) (hjson : m.json = []) (htext : m.text.length < 2 ^ 32)
    (hfits : Fits (m.serializePack w [])) :
    ∃ read, unserialize w (m.serialize w) = .ok read ∧ ScanAgrees w m length read := by
  have hread := @unserializeCall_stored w m [] [] hfits (.inl (by rw [hjson]; rfl))
  have hvalue := textValue_eq htext
  have hjump := jumpToTextField_serialize hfits length
  rw [hvalue] at hjump
  refine ⟨m.stored w, ?_, ?_⟩
  · rw [unserialize, serialize, hread]
    rfl
  · exact
      { id := getIdField_serialize hfits
        sticker := (seekField_message_whole hfits mfSticker).trans any_sticker
        chatEvent := (seekField_message_whole hfits mfChatEvent).trans any_chatEvent
        textLength := hjump.1, text := hjump.2, read_id := rfl
        read_sticker := Option.isSome_map
        read_chatEvent := Option.isSome_map
        read_text := hvalue }

/-- A sticker with a word to it. -/
def stickerMessage : HistoryMessage :=
  { msgid := 7, text := [104, 105], sticker := some { id := [49] } }

theorem scan_agrees_sticker :
    ∃ read, unserialize blank (stickerMessage.serialize blank) = .ok read ∧
      ScanAgrees blank stickerMessage 0 read :=
  scan_agrees 0 rfl (by decide) (show ∀ t ∈ _, _ by decide)

/-- Of a text of 4 GiB the scan cannot say the length. -/
theorem long_text_not_found :
    ¬ ∀ (w : Surroundings) (m : HistoryMessage) (length : UInt32), m.json = [] →
      ∃ read, unserialize w (m.serialize w) = .ok read ∧ ScanAgrees w m length read := by
  intro hall
  obtain ⟨read, -, hagrees⟩ := hall blank { text := List.replicate (2 ^ 32) 48 } 0 rfl
  have hlength := hagrees.textLength
  rw [List.length_replicate] at hlength
  exact absurd (UInt32.toNat_lt _) (Nat.not_lt.mpr (Nat.le_of_eq hlength.symm))

end Fields

end HistoryMessage

end Icq.Archive
