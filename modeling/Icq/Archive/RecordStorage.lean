import Icq.Archive.IndexFile
import Icq.Archive.MessageParts

/-! Records of messages in a data file, found through an index file. Reactions and updates of
threads are both kept like this. -/

namespace Icq.Archive
open Icq.Lib Icq.Tools

/-- A kind of records, by what is written of one and read back. -/
structure RecordKind where
  Record : Type
  msgId : Record → Int64
  serialize : Record → Bytes
  /-- The record, if it is one, and the bytes that are still there. -/
  unserialize : Bytes → Option Record × Bytes

/-- Where the record of a message lies. -/
structure IndexRecord where
  offset : Int64 := 0
  msgId : Int64 := 0

namespace IndexRecord

def tlvIndexOffset : UInt32 := 1
def tlvIndexMsgId : UInt32 := 2

def serialize (r : IndexRecord) : Bytes :=
  TlvPack.serialize [.ofScalar tlvIndexOffset r.offset, .ofScalar tlvIndexMsgId r.msgId]

/-- Whether the record is whole, and what there is of it. -/
def unserialize (bs : Bytes) : Bool × IndexRecord :=
  let taken := TlvPack.unserialize bs
  if !taken.complete then (false, {})
  else
    match getScalar Int64 taken.pack tlvIndexMsgId with
    | none => (false, {})
    | some msgId =>
      match getScalar Int64 taken.pack tlvIndexOffset with
      | none => (false, { msgId })
      | some offset => (true, { offset, msgId })

end IndexRecord

/-- Offsets in a file by the ids of messages. -/
abbrev Offsets : Type := KeyMap (Prod.fst : Int64 × Int → Int64)

structure RecordStorage where
  index : Offsets := ∅
  /-- Where the records of the index file lie. -/
  indexOffsets : Offsets := ∅
  indexLoaded : Bool := false
  indexDisk : Disk
  dataDisk : Disk

/-- A fifth more than is needed now. -/
def reservedSize (currentSize : Nat) : Nat := currentSize + currentSize / 5

/-- Reading a file that is open for writing only meets its end at once. -/
def Storage.readIf (readable : Bool) (s : Storage) (offset : Int) (data : BinaryStream) :
    Bool × BinaryStream × Storage :=
  if readable then s.readDataBlock offset data
  else
    let f := s.stream.seekp offset
    let f := if f.good then { f with eof := true } else f.fail
    (false, data, { s with stream := f, lastError := .endOfFile })

namespace RecordStorage

/-- The data file while records are written, with the index records to be saved. -/
structure Writing where
  storage : Storage
  index : Offsets
  added : List IndexRecord := []

def addRecord (k : RecordKind) (w : Writing) (r : k.Record) : Writing :=
  let data := k.serialize r
  let block := w.storage.writeDataBlock (.ofBytes (resizeBytes data (reservedSize data.length)))
  { storage := block.storage
    index := w.index.put (k.msgId r, block.offset)
    added := w.added ++ [{ offset := Int64.ofInt block.offset, msgId := k.msgId r }] }

/-- A record that fits its block is written there, and another one is added. -/
def updateRecordAt (k : RecordKind) (readable : Bool) (w : Writing) (r : k.Record) (offset : Int) :
    Writing :=
  let (readSuccessful, existing, storage) := w.storage.readIf readable offset {}
  let data := k.serialize r
  if readSuccessful && decide (data.length ≤ existing.available) then
    let block := storage.writeDataBlockAt (.ofBytes (resizeBytes data existing.available)) offset
    { w with storage := block.storage }
  else addRecord k { w with storage } r

def insertRecord (k : RecordKind) (readable : Bool) (w : Writing) (r : k.Record) : Writing :=
  match w.index.find? (k.msgId r) with
  | none => addRecord k w r
  | some (_, offset) => updateRecordAt k readable w r offset

/-- Read index records up to the first block that cannot be read. -/
def loadRecords : Nat → Storage → BinaryStream → Int → Offsets × Offsets → Offsets × Offsets
  | 0, _, _, _, maps => maps
  | fuel + 1, storage, data, offset, (index, indexOffsets) =>
    match storage.readDataBlock (-1) data with
    | (false, _, _) => (index, indexOffsets)
    | (true, data, storage) =>
      let (whole, record) := IndexRecord.unserialize data.unread
      loadRecords fuel storage data.reset storage.getOffset
        (if whole then index.put (record.msgId, record.offset.toInt) else index,
          indexOffsets.put (record.msgId, offset))

def loadIndex (s : RecordStorage) : RecordStorage :=
  if s.indexLoaded then s
  else
    match Storage.open { read := true } s.indexDisk with
    | .error _ => s
    | .ok storage =>
      let (index, indexOffsets) :=
        loadRecords (storage.stream.bytes.length + 1) storage {} 0 (s.index, s.indexOffsets)
      { s with index, indexOffsets, indexLoaded := true }

def saveIndexRecord (st : Storage × Offsets) (record : IndexRecord) : Storage × Offsets :=
  match st.2.find? record.msgId with
  | some (_, offset) => ((st.1.writeDataBlockAt (.ofBytes record.serialize) offset).storage, st.2)
  | none =>
    let block := st.1.writeDataBlock (.ofBytes record.serialize)
    (block.storage, st.2.put (record.msgId, block.offset))

def saveIndexRecords (s : RecordStorage) (records : List IndexRecord) : RecordStorage :=
  match Storage.open { write := true, atEnd := true, read := s.indexDisk.file.isSome } s.indexDisk with
  | .error _ => s
  | .ok storage =>
    let (storage, indexOffsets) := records.foldl saveIndexRecord (storage, s.indexOffsets)
    { s with indexOffsets, indexDisk := s.indexDisk.close storage }

def insertRecords (k : RecordKind) (s : RecordStorage) (records : List k.Record) : RecordStorage :=
  let s := s.loadIndex
  let readable := s.dataDisk.file.isSome
  match Storage.open { write := true, atEnd := true, read := readable } s.dataDisk with
  | .error _ => s
  | .ok storage =>
    let w := records.foldl (insertRecord k readable) { storage, index := s.index }
    saveIndexRecords { s with index := w.index, dataDisk := s.dataDisk.close w.storage } w.added

/-- One record out of the data file; what an earlier record left unread comes before it. -/
def getRecord (k : RecordKind) (index : Offsets) (storage : Storage) (left : Bytes) (id : Int64) :
    Storage × Bytes × Option k.Record :=
  match index.find? id with
  | none => (storage, left, none)
  | some (_, offset) =>
    let (found, data, storage) := storage.readDataBlock offset (.ofBytes left)
    if found then
      let (record, left) := k.unserialize data.unread
      (storage, left, record)
    else (storage, data.unread, none)

def getEach (k : RecordKind) (index : Offsets) :
    Storage → Bytes → List Int64 → List k.Record × List Int64
  | _, _, [] => ([], [])
  | storage, left, id :: ids =>
    let (storage, left, record) := getRecord k index storage left id
    let (records, missing) := getEach k index storage left ids
    match record with
    | some r => (r :: records, missing)
    | none => (records, id :: missing)

/-- The records of messages, and the ids of those that have none. -/
def getRecords (k : RecordKind) (s : RecordStorage) (ids : List Int64) :
    RecordStorage × List k.Record × List Int64 :=
  let s := s.loadIndex
  match Storage.open { read := true } s.dataDisk with
  | .error _ => (s, [], ids)
  | .ok storage => (s, getEach k s.index storage [] ids)

/-- A new object on the same files. -/
def restart (s : RecordStorage) : RecordStorage := { indexDisk := s.indexDisk, dataDisk := s.dataDisk }

end RecordStorage

end Icq.Archive
