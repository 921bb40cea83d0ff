import Icq.Archive.DlgState
import Icq.Archive.RecordStorage

/-! The two kinds of records: reactions to a message, and updates of the thread under it. -/

namespace Icq.Archive
open Icq.Lib Icq.Tools

def rdMsgId : UInt32 := 1
def rdMyReaction : UInt32 := 2
def rdReactionItem : UInt32 := 3
def rdReaction : UInt32 := 4
def rdCounter : UInt32 := 5

namespace Reaction

def serialize (r : Reaction) : Tlv :=
  .ofPack rdReactionItem [.ofText rdReaction r.reaction, .ofScalar rdCounter r.count]

def unserialize (pack : TlvPack) : Option Reaction :=
  (getText pack rdReaction).map fun reaction =>
    { reaction, count := (getScalar Int64 pack rdCounter).getD 0 }

end Reaction

namespace ReactionsData

def pack (r : ReactionsData) : TlvPack :=
  [.ofScalar rdMsgId r.msgId, .ofText rdMyReaction r.myReaction] ++ r.reactions.map Reaction.serialize

def serialize (r : ReactionsData) : Bytes := r.pack.serialize

def readField (r : ReactionsData) (field : Tlv) : ReactionsData :=
  if field.type = rdMsgId then { r with msgId := field.getValue Int64 }
  else if field.type = rdMyReaction then { r with myReaction := field.value }
  else if field.type = rdReactionItem then
    { r with reactions := r.reactions ++ (Reaction.unserialize field.getPack).toList }
  else r

def unserialize (bs : Bytes) : Option ReactionsData × Bytes :=
  let taken := TlvPack.unserialize bs
  let r := taken.pack.foldl readField {}
  (if taken.complete && decide (r.msgId ≠ 0) then some r else none, taken.left)

def kind : RecordKind := ⟨ReactionsData, msgId, serialize, unserialize⟩

/-- The id is one of a message, and no text is longer than a value can be. -/
structure Readable (r : ReactionsData) : Prop where
  msgId : r.msgId ≠ 0
  myReaction : r.myReaction.length < 2 ^ 32
  reactions : ∀ x ∈ r.reactions, x.reaction.length < 2 ^ 32

/-- What the file keeps of a record. -/
def kept (r : ReactionsData) : ReactionsData := { r with chatId := [] }

end ReactionsData

def tuThreadId : UInt32 := 1
def tuParentTopicType : UInt32 := 2
def tuParentTopicChatId : UInt32 := 3
def tuParentTopicMsgId : UInt32 := 4
def tuRepliesCount : UInt32 := 5
def tuUnreadMsgCount : UInt32 := 6
def tuUnreadMentionCount : UInt32 := 7
def tuLastRead : UInt32 := 8
def tuLastReadMention : UInt32 := 9
def tuSubscriber : UInt32 := 10
def tuParentTopicTaskId : UInt32 := 11

namespace ThreadUpdate

def pack (u : ThreadUpdate) : TlvPack :=
  [.ofText tuThreadId u.id, .ofScalar tuParentTopicType u.parentTopic.type,
    .ofText tuParentTopicChatId u.parentTopic.chatId,
    .ofScalar tuParentTopicMsgId u.parentTopic.msgId,
    .ofText tuParentTopicTaskId u.parentTopic.taskId, .ofScalar tuRepliesCount u.repliesCount,
    .ofScalar tuUnreadMsgCount u.unreadMessageCount,
    .ofScalar tuUnreadMentionCount u.unreadMentionMeCount, .ofScalar tuLastRead u.yoursLastRead,
    .ofScalar tuLastReadMention u.yoursLastReadMention, .ofScalar tuSubscriber u.subscriber]

def serialize (u : ThreadUpdate) : Bytes := u.pack.serialize

def readField (u : ThreadUpdate) (field : Tlv) : ThreadUpdate :=
  let topic (t : ParentTopic) : ThreadUpdate := { u with parentTopic := t }
  if field.type = tuThreadId then { u with id := field.value }
  else if field.type = tuParentTopicType then
    topic { u.parentTopic with type := field.getValue Int32 }
  else if field.type = tuParentTopicChatId then topic { u.parentTopic with chatId := field.value }
  else if field.type = tuParentTopicMsgId then
    topic { u.parentTopic with msgId := field.getValue Int64 }
  else if field.type = tuParentTopicTaskId then topic { u.parentTopic with taskId := field.value }
  else if field.type = tuRepliesCount then { u with repliesCount := field.getValue Int32 }
  else if field.type = tuUnreadMsgCount then { u with unreadMessageCount := field.getValue Int32 }
  else if field.type = tuUnreadMentionCount then
    { u with unreadMentionMeCount := field.getValue Int32 }
  else if field.type = tuLastRead then { u with yoursLastRead := field.getValue Int64 }
  else if field.type = tuLastReadMention then { u with yoursLastReadMention := field.getValue Int64 }
  else if field.type = tuSubscriber then { u with subscriber := field.getValue Bool }
  else u

def unserialize (bs : Bytes) : Option ThreadUpdate × Bytes :=
  let taken := TlvPack.unserialize bs
  let u := taken.pack.foldl readField {}
  (if taken.complete && u.isValid then some u else none, taken.left)

def kind : RecordKind := ⟨ThreadUpdate, fun u => u.parentTopic.msgId, serialize, unserialize⟩

/-- The update is valid, and no text is longer than a value can be. -/
structure Readable (u : ThreadUpdate) : Prop where
  valid : u.isValid = true
  id : u.id.length < 2 ^ 32
  chatId : u.parentTopic.chatId.length < 2 ^ 32
  taskId : u.parentTopic.taskId.length < 2 ^ 32

end ThreadUpdate

section

variable {α : Type} {f : α → Tlv → α}

/-- Values without a tag change nothing where no field has their tag. -/
theorem foldl_blanks (hf : ∀ a t, t.type = 0 → f a t = a) {blanks : TlvPack}
    (h : ∀ t ∈ blanks, t.type = 0) (a : α) : blanks.foldl f a = a :=
  List.foldlRecOn blanks f (motive := fun b => b = a) rfl fun b hb t ht =>
    (hf b t (h t ht)).trans hb

theorem length_lt_of_serialize {pack : TlvPack} (h : pack.serialize.length < 2 ^ 32) :
    ∀ t ∈ pack, t.value.length < 2 ^ 32 :=
  fun _ ht => Nat.lt_of_le_of_lt (TlvPack.length_value_le ht) h

/-- Reading the fields of a padded pack is reading the fields of the pack. -/
theorem foldl_padded (hf : ∀ a t, t.type = 0 → f a t = a) {pack : TlvPack}
    (h : ∀ t ∈ pack, t.value.length < 2 ^ 32) (n : Nat) (a : α) :
    (TlvPack.unserialize (pack.serialize ++ List.replicate n 0)).complete = true ∧
      (TlvPack.unserialize (pack.serialize ++ List.replicate n 0)).left = [] ∧
      (TlvPack.unserialize (pack.serialize ++ List.replicate n 0)).pack.foldl f a =
        pack.foldl f a := by
  obtain ⟨blanks, hblanks, hread⟩ := TlvPack.unserialize_padded h n
  rw [hread]
  exact ⟨rfl, rfl, by rw [List.foldl_append, foldl_blanks hf hblanks]⟩

end

theorem Reaction.unserialize_serialize {r : Reaction} (ht : r.reaction.length < 2 ^ 32)
    (h : r.serialize.value.length < 2 ^ 32) : Reaction.unserialize r.serialize.getPack = some r := by
  rw [Reaction.serialize, Tlv.getPack_ofPack h]
  simp [Reaction.unserialize, getText, getScalar, TlvPack.getItem_cons, Tlv.textValue_eq ht, rdCounter,
    rdReaction]

theorem ReactionsData.unserialize_padded {r : ReactionsData} (hr : r.Readable)
    (h : ∀ t ∈ r.pack, t.value.length < 2 ^ 32) (n : Nat) :
    ReactionsData.unserialize (r.serialize ++ List.replicate n 0) = (some r.kept, []) := by
  have hblank (a : ReactionsData) (t : Tlv) (ht : t.type = 0) : readField a t = a := by
    simp [readField, ht, rdMsgId, rdMyReaction, rdReactionItem]
  obtain ⟨hcomplete, hleft, hfold⟩ := foldl_padded hblank h n {}
  have hitems (items : List Reaction) (a : ReactionsData)
      (hi : ∀ x ∈ items, x.reaction.length < 2 ^ 32 ∧ x.serialize.value.length < 2 ^ 32) :
      (items.map Reaction.serialize).foldl readField a = { a with reactions := a.reactions ++ items } := by
    induction items generalizing a with
    | nil => simp
    | cons x items ih =>
      obtain ⟨⟨ht, hv⟩, hi⟩ := List.forall_mem_cons.mp hi
      have hread : readField a x.serialize = { a with reactions := a.reactions ++ [x] } := by
        have hu := Reaction.unserialize_serialize ht hv
        have htype : x.serialize.type = rdReactionItem := rfl
        simp [readField, htype, hu, rdMsgId, rdMyReaction, rdReactionItem]
      rw [List.map_cons, List.foldl_cons, hread, ih _ hi]
      simp
  have hpack : r.pack.foldl readField {} = r.kept := by
    rw [ReactionsData.pack, List.foldl_append, hitems r.reactions _ fun x hx => ⟨hr.reactions x hx,
      h _ (List.mem_append_right _ (List.mem_map_of_mem hx))⟩]
    simp [readField, kept, rdMsgId, rdMyReaction, Tlv.textValue_eq hr.myReaction]
  rw [hpack] at hfold
  have hid : r.kept.msgId ≠ 0 := hr.msgId
  simp only [ReactionsData.unserialize, ReactionsData.serialize, hcomplete, hleft, hfold]
  simp [hid]

theorem ThreadUpdate.unserialize_padded {u : ThreadUpdate} (hu : u.Readable)
    (h : ∀ t ∈ u.pack, t.value.length < 2 ^ 32) (n : Nat) :
    ThreadUpdate.unserialize (u.serialize ++ List.replicate n 0) = (some u, []) := by
  have hblank (a : ThreadUpdate) (t : Tlv) (ht : t.type = 0) : readField a t = a := by
    simp [readField, ht, tuThreadId, tuParentTopicType, tuParentTopicChatId, tuParentTopicMsgId,
      tuParentTopicTaskId, tuRepliesCount, tuUnreadMsgCount, tuUnreadMentionCount, tuLastRead,
      tuLastReadMention, tuSubscriber]
  obtain ⟨hcomplete, hleft, hfold⟩ := foldl_padded hblank h n {}
  have hpack : u.pack.foldl readField {} = u := by
    simp [ThreadUpdate.pack, readField, tuThreadId, tuParentTopicType, tuParentTopicChatId,
      tuParentTopicMsgId, tuParentTopicTaskId, tuRepliesCount, tuUnreadMsgCount,
      tuUnreadMentionCount, tuLastRead, tuLastReadMention, tuSubscriber, Tlv.textValue_eq hu.id,
      Tlv.textValue_eq hu.chatId, Tlv.textValue_eq hu.taskId]
  rw [hpack] at hfold
  simp only [ThreadUpdate.unserialize, ThreadUpdate.serialize, hcomplete, hleft, hfold, hu.valid]
  simp

def insertReactions : RecordStorage → List ReactionsData → RecordStorage :=
  RecordStorage.insertRecords ReactionsData.kind

def getReactions : RecordStorage → List Int64 → RecordStorage × List ReactionsData × List Int64 :=
  RecordStorage.getRecords ReactionsData.kind

def insertThreadUpdates : RecordStorage → List ThreadUpdate → RecordStorage :=
  RecordStorage.insertRecords ThreadUpdate.kind

def getThreadUpdates : RecordStorage → List Int64 → RecordStorage × List ThreadUpdate × List Int64 :=
  RecordStorage.getRecords ThreadUpdate.kind

end Icq.Archive
