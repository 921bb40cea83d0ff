import Icq.Archive.MessageRoundTrip
import Icq.Archive.NotSentMessages
import Icq.Archive.StorageRoundTrip

/-! How what is pending is written to its two files and read from them. -/

namespace Icq.Archive
open Icq.Lib Icq.Tools

namespace DeleteOperation

def toInt : DeleteOperation → Int32
  | .min => 0
  | .delUpTo => 2
  | .delForMe => 3
  | .delForAll => 4
  | .max => 5

/-- The operation a number stands for. 1 names none and is never written. -/
def ofInt (n : Int32) : Option DeleteOperation :=
  [min, delUpTo, delForMe, delForAll, max].find? fun operation => decide (operation.toInt = n)

theorem ofInt_toInt (operation : DeleteOperation) : ofInt operation.toInt = some operation := by
  cases operation <;> rfl

end DeleteOperation

namespace DeleteMessage

def contactField : UInt32 := 1
def messageIdField : UInt32 := 2
def internalIdField : UInt32 := 3
def operationField : UInt32 := 4

def serialize (d : DeleteMessage) : TlvPack :=
  [.ofText contactField d.aimid, .ofScalar messageIdField d.messageId,
    .ofText internalIdField d.internalId, .ofScalar operationField d.operation.toInt]

def make (pack : TlvPack) : Option DeleteMessage :=
  match getText pack contactField, getScalar Int64 pack messageIdField,
    getText pack internalIdField, getScalar Int32 pack operationField with
  | some aimid, some messageId, some internalId, some operation =>
    if operation ≤ DeleteOperation.min.toInt ∨ DeleteOperation.max.toInt ≤ operation then none
    else (DeleteOperation.ofInt operation).map fun operation =>
      { aimid, messageId, internalId, operation }
  | _, _, _, _ => none

end DeleteMessage

namespace NotSentMessage

def contactField : UInt32 := 1
def messageField : UInt32 := 2
def duplicatedField : UInt32 := 3
def modifiedField : UInt32 := 4
def networkRequestIdField : UInt32 := 5
def deletedField : UInt32 := 6
def deleteOpField : UInt32 := 7
def draftDeleteTimeField : UInt32 := 8

def serialize (w : Surroundings) (e : NotSentMessage) : TlvPack :=
  [.ofText contactField e.aimid, .ofScalar duplicatedField e.duplicated,
    .ofScalar modifiedField e.modified, .ofText networkRequestIdField e.networkRequestId,
    .ofScalar deletedField e.deleted, .ofScalar deleteOpField e.deleteOperation.toInt] ++
  (pushSome e.draftDeleteTime (.ofScalar draftDeleteTimeField) ++
    [{ type := messageField, value := e.message.serialize w }])

/-- A message made from a pack is created at the moment. Without a contact or with a message that
cannot be read there is none. -/
def make (w : Surroundings) (now : Int64) (pack : TlvPack) : Outcome (Option NotSentMessage) :=
  match pack.getItem messageField, getText pack contactField with
  | some message, some aimid =>
    match HistoryMessage.unserialize w message.value with
    | .ok message =>
      .ok (some
        { aimid, message, createTime := now
          duplicated := (getScalar Bool pack duplicatedField).getD false
          modified := (getScalar Bool pack modifiedField).getD false
          networkRequestId := (getText pack networkRequestIdField).getD []
          deleted := (getScalar Bool pack deletedField).getD false
          deleteOperation :=
            ((getScalar Int32 pack deleteOpField).bind DeleteOperation.ofInt).getD .delForAll
          draftDeleteTime := getScalar Int64 pack draftDeleteTimeField })
    | .refused => .ok none
    | .crashed => .crashed
  | _, _ => .ok none

end NotSentMessage

namespace PendingOperations

/-- Each record is a value without a tag. -/
def recordsData (packs : List TlvPack) : Bytes :=
  TlvPack.serialize (packs.map fun pack => { type := 0, value := pack.serialize })

/-- The file is emptied and gets one block. -/
def saveFile (data : Bytes) : Bytes :=
  ((Storage.reader []).writeDataBlock (.ofBytes data)).storage.stream.bytes

def loadFile (file : Bytes) : Option Bytes :=
  match (Storage.reader file).readDataBlock (-1) {} with
  | (true, data, _) => some data.unread
  | (false, _, _) => none

/-- A block that cannot be read gives no records, and neither does a record that cannot be. -/
def loadRecords (file : Bytes) : List TlvPack :=
  match loadFile file with
  | none => []
  | some data =>
    let root := TlvPack.unserialize data
    if root.complete then
      root.pack.filterMap fun t =>
        let inner := TlvPack.unserialize t.value
        if inner.complete then some inner.pack else none
    else []

def pushMessage (m : KeyMap ContactMessages.contact) (e : NotSentMessage) :
    KeyMap ContactMessages.contact :=
  m.put ⟨e.aimid, ((m.find? e.aimid).map ContactMessages.messages).getD [] ++ [e]⟩

def pushDeletion (m : KeyMap ContactDeletions.contact) (d : DeleteMessage) :
    KeyMap ContactDeletions.contact :=
  m.put ⟨d.aimid, ((m.find? d.aimid).map ContactDeletions.messages).getD [] ++ [d]⟩

variable (w : Surroundings) (now : Int64)

/-- Go on with the record of a message. -/
def loadMessage (m : KeyMap ContactMessages.contact) (pack : TlvPack) :
    Outcome (KeyMap ContactMessages.contact) := do
  match ← NotSentMessage.make w now pack with
  | some e => pure (pushMessage m e)
  | none => pure m

def loadPendingSentMessages (file : Bytes) : Outcome (KeyMap ContactMessages.contact) :=
  (loadRecords file).foldlM (loadMessage w now) ∅

def loadPendingDeleteMessages (file : Bytes) : KeyMap ContactDeletions.contact :=
  ((loadRecords file).filterMap DeleteMessage.make).foldl pushDeletion ∅

def sentData (s : PendingOperations) : Bytes :=
  recordsData ((s.pendingMessages.items.flatMap ContactMessages.messages).map
    (NotSentMessage.serialize w))

def deleteData (s : PendingOperations) : Bytes :=
  recordsData ((s.pendingDeleteMessages.items.flatMap ContactDeletions.messages).map
    DeleteMessage.serialize)

/-- What is pending is saved, and the program starts again. -/
def saveLoad (s : PendingOperations) : Outcome PendingOperations := do
  let pendingMessages ← loadPendingSentMessages w now (saveFile (s.sentData w))
  pure
    { s with
      pendingMessages
      pendingDeleteMessages := loadPendingDeleteMessages (saveFile s.deleteData) }

/-- A contact loses everything that is pending. -/
def drop (s : PendingOperations) (aimid : Bytes) : PendingOperations :=
  { s with
    pendingMessages := s.pendingMessages.erase aimid
    pendingDeleteMessages := s.pendingDeleteMessages.erase aimid }

/-- Deletions are the same when they are of one message and of one kind. A contact with none left
is forgotten. -/
def removeDeletedMessage (s : PendingOperations) (contact : Bytes) (d : DeleteMessage) :
    PendingOperations :=
  match s.pendingDeleteMessages.find? contact with
  | none => s
  | some entry =>
    let left := entry.messages.filter fun x =>
      !(decide (d.messageId = x.messageId) && decide (d.operation = x.operation))
    { s with
      pendingDeleteMessages :=
        if left.isEmpty then s.pendingDeleteMessages.erase contact
        else s.pendingDeleteMessages.put ⟨contact, left⟩ }

def getFirstPendingDeleteMessage (s : PendingOperations) : Option (Bytes × DeleteMessage) :=
  match s.pendingDeleteMessages.first? with
  | none => none
  | some entry => entry.messages.head?.map fun d => (entry.contact, d)

theorem loadFile_refused {file : Bytes}
    (h : ((Storage.reader file).readDataBlock (-1) {}).1 = false) : loadFile file = none := by
  unfold loadFile
  split
  · rename_i hread
    rw [hread] at h
    cases h
  · rfl

/-- What a file gives back of the data that was saved in it: all, or nothing where it is none or
more than a block may hold. -/
theorem loadFile_saveFile {data : Bytes} (h : data.length < 2 ^ 32) :
    loadFile (saveFile data) =
      if data ≠ [] ∧ data.length ≤ maxDataBlockSize.toNat then some data else none := by
  obtain ⟨-, -, hbytes, -, -⟩ :=
    Storage.writeDataBlock_block data Storage.fresh_empty.atEnd Storage.fresh_empty.reliable
  have hfile : saveFile data = Storage.block data := hbytes
  have hlength : (UInt32.ofNat data.length).toNat = data.length := by
    rw [UInt32.toNat_ofNat', Nat.mod_eq_of_lt h]
  rw [hfile, Storage.block, hlength, List.take_length]
  by_cases hnil : data = []
  · subst hnil
    exact (if_neg fun hread => hread.1 rfl).symm
  · have haccepted : Storage.accepted data = true := by
      rw [Storage.accepted, bne_iff_ne, ne_eq, ← UInt32.toNat_inj, hlength]
      exact fun h0 => hnil (List.length_eq_zero_iff.mp h0)
    rw [if_pos haccepted]
    have hahead : (Storage.reader
        (Storage.frameParts (UInt32.ofNat data.length) data).flatten).stream.ahead =
          (Storage.frameParts (UInt32.ofNat data.length) data).flatten ++ [] := by
      rw [List.append_nil]
      rfl
    have hfits : UInt32.ofNat data.length ≤ maxDataBlockSize ↔
        data.length ≤ maxDataBlockSize.toNat := by
      rw [UInt32.le_iff_toNat_le, hlength]
    by_cases hm : UInt32.ofNat data.length ≤ maxDataBlockSize
    · obtain ⟨read, hread, -, hunread⟩ := Storage.readDataBlock_frame
        BinaryStream.Ordered.empty rfl hahead hlength.symm hm
      rw [if_pos ⟨hnil, hfits.mp hm⟩, loadFile, hread]
      exact congrArg some hunread
    · rw [if_neg fun hread => hm (hfits.mpr hread.2)]
      apply loadFile_refused
      have hsizes := hahead
      rw [Storage.frameParts, List.flatten_cons, List.flatten_cons, List.append_assoc,
        List.append_assoc] at hsizes
      exact Storage.readDataBlock_big {} rfl hsizes (UInt32.not_le.mp hm)

theorem length_le_recordsData {packs : List TlvPack} {pack : TlvPack} (h : pack ∈ packs) :
    pack.serialize.length ≤ (recordsData packs).length := by
  have hmem : ({ type := 0, value := pack.serialize } : Tlv) ∈
      packs.map fun pack => { type := 0, value := TlvPack.serialize pack } :=
    List.mem_map.mpr ⟨pack, h, rfl⟩
  exact TlvPack.length_value_le hmem

/-- Saved records come back one by one, unless they are too many for a block. -/
theorem loadRecords_saveFile {packs : List TlvPack} (h : (recordsData packs).length < 2 ^ 32) :
    loadRecords (saveFile (recordsData packs)) =
      if (recordsData packs).length ≤ maxDataBlockSize.toNat then packs else [] := by
  rw [loadRecords, loadFile_saveFile h]
  cases packs with
  | nil => rfl
  | cons pack packs =>
    have hne : recordsData (pack :: packs) ≠ [] := List.cons_ne_nil _ _
    by_cases hsmall : (recordsData (pack :: packs)).length ≤ maxDataBlockSize.toNat
    · have hroot := TlvPack.unserialize_serialize fun t ht =>
        Nat.lt_of_le_of_lt (TlvPack.length_value_le ht) h
      rw [← recordsData] at hroot
      rw [if_pos ⟨hne, hsmall⟩, if_pos hsmall]
      show (if (TlvPack.unserialize (recordsData (pack :: packs))).complete then _ else _) = _
      rw [hroot, if_pos rfl, List.filterMap_map]
      show (pack :: packs).filterMap _ = pack :: packs
      conv_rhs => rw [← List.filterMap_some (l := pack :: packs)]
      apply List.filterMap_congr
      intro record hrecord
      have hinner := TlvPack.unserialize_serialize fun t ht =>
        Nat.lt_of_le_of_lt (TlvPack.length_value_le ht)
          (Nat.lt_of_le_of_lt (length_le_recordsData hrecord) h)
      show (if (TlvPack.unserialize record.serialize).complete then _ else _) = _
      rw [hinner, if_pos rfl]
    · rw [if_neg fun hread => hsmall hread.2, if_neg hsmall]

end PendingOperations

/-- A message without JSON keeps its internal id. -/
theorem HistoryMessage.unserialize_plain {w : Surroundings} {m : HistoryMessage}
    (hfits : Fits (m.serializePack w [])) (hjson : m.json = []) :
    ∃ read, unserialize w (m.serialize w) = .ok read ∧
      read.internalId = Tlv.textValue m.internalId ∧ read.json = [] := by
  have hread := @unserializeCall_eq w m [] [] hfits
  have hnext : readJson w m.storedHead [] = .ok (.next m.storedHead []) := by
    apply readJson_next
    left
    show Tlv.textValue m.json = []
    rw [hjson]
    rfl
  rw [hnext] at hread
  refine ⟨_, by rw [unserialize, serialize, hread]; rfl, rfl, ?_⟩
  show (if m.reactions.isNone then Tlv.textValue m.json else []) = []
  rw [hjson]
  exact ite_self _

/-- What the second start finds of a message that was saved. -/
structure NotSentMessage.Reloaded (e read : NotSentMessage) : Prop where
  aimid : read.aimid = Tlv.textValue e.aimid
  internalId : read.internalId = Tlv.textValue e.internalId
  json : read.message.json = []

theorem NotSentMessage.make_serialize {w : Surroundings} {e : NotSentMessage} (now : Int64)
    (hlength : (TlvPack.serialize (e.serialize w)).length < 2 ^ 32) (hjson : e.message.json = []) :
    ∃ read, make w now (e.serialize w) = .ok (some read) ∧ Reloaded e read := by
  have hitem : (e.serialize w).getItem messageField =
      some { type := messageField, value := e.message.serialize w } := by
    cases hdraft : e.draftDeleteTime <;>
      simp +decide [serialize, TlvPack.getItem_append, TlvPack.getItem_cons, getItem_pushSome, hdraft]
  have hcontact : getText (e.serialize w) contactField = some (Tlv.textValue e.aimid) := rfl
  have hvalue := TlvPack.length_value_le
    (show ({ type := messageField, value := e.message.serialize w } : Tlv) ∈ e.serialize w by
      simp [serialize])
  have hfits : Fits (e.message.serializePack w []) := fun t ht =>
    Nat.lt_of_le_of_lt (TlvPack.length_value_le ht) (Nat.lt_of_le_of_lt hvalue hlength)
  obtain ⟨read, hread, hid, hempty⟩ := HistoryMessage.unserialize_plain hfits hjson
  have hmade : ∃ x, make w now (e.serialize w) = .ok (some x) ∧
      x.aimid = Tlv.textValue e.aimid ∧ x.message = read := by
    rw [make, hitem, hcontact]
    simp only [hread]
    exact ⟨_, rfl, rfl, rfl⟩
  obtain ⟨x, hx, haimid, rfl⟩ := hmade
  exact ⟨x, hx, haimid, hid, hempty⟩

namespace PendingOperations

section Load

variable {w : Surroundings} {now : Int64}

/-- Every saved message is filed again. -/
theorem foldlM_loadMessage (now : Int64) {l : List NotSentMessage} (m : KeyMap ContactMessages.contact)
    (hlength : ∀ e ∈ l, (TlvPack.serialize (e.serialize w)).length < 2 ^ 32)
    (hjson : ∀ e ∈ l, e.message.json = []) :
    ∃ read, List.Forall₂ NotSentMessage.Reloaded l read ∧
      (l.map (NotSentMessage.serialize w)).foldlM (loadMessage w now) m =
        .ok (read.foldl pushMessage m) := by
  induction l generalizing m with
  | nil => exact ⟨[], .nil, rfl⟩
  | cons e l ih =>
    obtain ⟨x, hx, hreloaded⟩ := NotSentMessage.make_serialize now
      (hlength e List.mem_cons_self) (hjson e List.mem_cons_self)
    obtain ⟨read, hall, hfold⟩ := ih (pushMessage m x)
      (fun y hy => hlength y (List.mem_cons_of_mem _ hy))
      (fun y hy => hjson y (List.mem_cons_of_mem _ hy))
    refine ⟨x :: read, .cons hreloaded hall, ?_⟩
    rw [List.map_cons, List.foldlM_cons, loadMessage, hx]
    exact hfold

theorem find_pushMessage (m : KeyMap ContactMessages.contact) (e : NotSentMessage) (contact : Bytes) :
    (((pushMessage m e).find? contact).map ContactMessages.messages).getD [] =
      ((m.find? contact).map ContactMessages.messages).getD [] ++
        (if e.aimid = contact then [e] else []) := by
  unfold pushMessage
  rw [KeyMap.find_put]
  split
  · rename_i h
    rw [show e.aimid = contact from h]
    rfl
  · simp

theorem find_foldl_pushMessage (l : List NotSentMessage) (m : KeyMap ContactMessages.contact)
    (contact : Bytes) :
    (((l.foldl pushMessage m).find? contact).map ContactMessages.messages).getD [] =
      ((m.find? contact).map ContactMessages.messages).getD [] ++
        l.filter fun e => decide (e.aimid = contact) := by
  induction l generalizing m with
  | nil => simp
  | cons e l ih =>
    rw [List.foldl_cons, ih, find_pushMessage, List.append_assoc]
    congr 1
    rw [List.filter_cons]
    by_cases h : e.aimid = contact <;> simp [h]

theorem mem_pushDeletion {m : KeyMap ContactDeletions.contact} {d : DeleteMessage}
    (h : ∀ entry ∈ m.items, entry.messages ≠ []) :
    ∀ entry ∈ (pushDeletion m d).items, entry.messages ≠ [] := by
  intro entry hentry
  rcases KeyMap.mem_put.mp hentry with rfl | hentry
  · simp
  · exact h entry hentry.1

/-- Loading leaves no contact without deletions, whatever the file holds. -/
theorem loadPendingDeleteMessages_nonempty (file : Bytes) :
    ∀ entry ∈ (loadPendingDeleteMessages file).items, entry.messages ≠ [] := by
  unfold loadPendingDeleteMessages
  refine List.foldlRecOn ((loadRecords file).filterMap DeleteMessage.make) pushDeletion
    (motive := fun m : KeyMap ContactDeletions.contact => ∀ entry ∈ m.items, entry.messages ≠ [])
    (fun _ h => absurd h List.not_mem_nil) ?_
  exact fun m hm d _ => mem_pushDeletion hm

end Load

end PendingOperations

end Icq.Archive
