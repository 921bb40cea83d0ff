import Icq.Archive.ArchiveIndex
import Icq.Archive.HeaderCodec
import Icq.Archive.StorageRoundTrip
import Icq.Tools.Tlv

namespace Icq.Archive
open Icq.Lib Icq.Tools Icq.Common

namespace Disk

/-- The disk after a storage was closed. -/
def close (d : Disk) (s : Storage) : Disk :=
  { d with file := some s.stream.bytes, folderExists := true, room := s.stream.room }

/-- Nothing stands in the way of opening the file. -/
def Usable (d : Disk) : Prop := (d.folderExists || d.createsFolder) = true ∧ d.opensFile = true

theorem Usable.folder {d : Disk} (h : d.Usable) :
    (!d.folderExists && !d.createsFolder) = false := by
  rw [← Bool.not_or, h.1]
  rfl

theorem open_usable {d : Disk} {mode : StorageMode} {s : Storage}
    (h : Storage.open mode d = .ok s) : d.Usable := by
  unfold Storage.open at h
  split at h
  · cases h
  · split at h
    · cases h
    · rename_i hf
      split at h
      · cases h
      · rename_i ho
        refine ⟨?_, by simpa using ho⟩
        rw [Bool.not_eq_true, ← Bool.not_or, Bool.not_eq_false'] at hf
        exact hf

theorem close_usable {d : Disk} {s s' : Storage} {mode : StorageMode}
    (h : Storage.open mode d = .ok s) : (d.close s').Usable :=
  ⟨by simp [close], (open_usable h).2⟩

theorem open_append {d : Disk} {s : Storage}
    (h : Storage.open { write := true, append := true } d = .ok s) :
    s.stream.bytes = d.file.getD [] ∧ s.stream.AtEnd := by
  have hu := open_usable h
  unfold Storage.open at h
  simp only [Bool.false_and, Bool.false_eq_true, if_false, hu.folder, hu.2, Bool.not_true,
    Bool.true_or, Bool.and_self, if_true, Except.ok.injEq] at h
  subst h
  exact ⟨rfl, rfl, rfl⟩

theorem open_truncate {d : Disk} {s : Storage}
    (h : Storage.open { write := true, truncate := true } d = .ok s) :
    s.stream.bytes = [] ∧ s.stream.AtEnd := by
  have hu := open_usable h
  unfold Storage.open at h
  simp only [Bool.false_and, Bool.false_eq_true, if_false, hu.folder, hu.2, Bool.not_true,
    Bool.or_self, if_true, Except.ok.injEq] at h
  subst h
  exact ⟨rfl, rfl, rfl⟩

theorem open_read {d : Disk} {bytes : Bytes} (hu : d.Usable) (hf : d.file = some bytes) :
    Storage.open { read := true } d = .ok { stream := { bytes, room := d.room } } := by
  simp only [Storage.open, hf, hu.folder, hu.2, Option.isNone_some, Bool.and_false,
    Bool.false_eq_true, if_false, Bool.not_true, Bool.or_self, Option.getD_some]

end Disk

/-- What the index takes over from a message of the server. -/
structure ReceivedMessage where
  flags : MessageFlags := {}
  time : UInt64 := 0
  msgid : Int64
  prevMsgid : Int64 := -1
  dataOffset : Int64 := -1
  dataSize : UInt32 := 0
  updatePatchVersion : PatchVersion := {}
  hasSharedContactWithSn : Bool := false
  hasPollWithId : Bool := false
  hasTaskWithId : Bool := false
  hasReactions : Bool := false
  hasThread : Bool := false

def ReceivedMessage.header (m : ReceivedMessage) : MessageHeader :=
  { id := m.msgid, version := headerVersion, flags := m.flags, time := m.time
    prevId := m.prevMsgid, dataOffset := m.dataOffset, dataSize := m.dataSize
    updatePatchVersion := m.updatePatchVersion
    hasSharedContactWithSn := m.hasSharedContactWithSn, hasPollWithId := m.hasPollWithId
    hasTaskWithId := m.hasTaskWithId, hasReactions := m.hasReactions, hasThread := m.hasThread }

/-- The tag of a header in the index file. -/
def headerTag : UInt32 := 1

/-- So many headers fill a block when the whole index is saved. -/
def historyBlockSize : Nat := 1000

namespace ArchiveIndex

def serializeBlock (headers : List MessageHeader) : Bytes :=
  TlvPack.serialize (headers.map (fun h => { type := headerTag, value := h.serialize }))

/-- Read the headers of a block into the index. It stops at the first that is not well formed
and keeps those before it; a null pointer gives nothing. -/
def unserializeBlock (currentTime : Int) :
    Nat → ArchiveIndex → Bytes → Option (Bool × ArchiveIndex)
  | 0, s, _ => some (true, s)
  | fuel + 1, s, data =>
    if data.length = 0 then some (true, s)
    else if data.length < 8 then some (false, s)
    else
      let tlvLength : UInt32 := Scalar.decode (data.drop 4)
      if data.length < tlvLength.toNat then some (false, s)
      else
        match MessageHeader.unserialize (data.drop 8) with
        | .ok (header, rest) =>
          unserializeBlock currentTime fuel (s.insertHeader header currentTime).1 rest
        | .refused => some (false, s)
        | .crashed => none

def saveBlock (disk : Disk) (block : List MessageHeader) : ResultType × Disk :=
  match Storage.open { write := true, append := true } disk with
  | .error _ => (⟨false, 0⟩, disk)
  | .ok storage =>
    let w := storage.writeDataBlock (.ofBytes (serializeBlock block))
    (w.result, disk.close w.storage)

/-- Take messages into the index and append their headers to the file, as the index left them. -/
def update (s : ArchiveIndex) (disk : Disk) (data : List ReceivedMessage) (currentTime : Int) :
    ResultType × List MessageHeader × ArchiveIndex × Disk :=
  let (s, headers) := s.insertBlock currentTime (data.map ReceivedMessage.header)
  let (result, disk) := saveBlock disk headers
  (result, headers, s, disk)

/-- A header with what is saved of its modifications. -/
def saved (header : MessageHeader) : List MessageHeader :=
  header :: (if header.isModified then header.modifications else [])

/-- The blocks of a saved index: full ones, and the last. -/
def saveGroups : List MessageHeader → List MessageHeader → List (List MessageHeader)
  | _, [] => []
  | headers, header :: rest =>
    let headers := headers ++ saved header
    if historyBlockSize ≤ headers.length || rest.isEmpty then headers :: saveGroups [] rest
    else saveGroups headers rest

/-- Write blocks until one fails. -/
def writeGroups : Storage → List (List MessageHeader) → Bool × Storage
  | storage, [] => (true, storage)
  | storage, headers :: rest =>
    let w := storage.writeDataBlock (.ofBytes (serializeBlock headers))
    if w.result.result then writeGroups w.storage rest else (false, w.storage)

def saveAll (s : ArchiveIndex) (disk : Disk) : Bool × Disk :=
  match Storage.open { write := true, truncate := true } disk with
  | .error _ => (false, disk)
  | .ok storage =>
    let (ok, storage) := writeGroups storage (saveGroups [] s.headersIndex.items)
    (ok, disk.close storage)

/-- Read block after block into the index, until none is left or one is not well formed. -/
def loadBlocks (currentTime : Int) :
    Nat → Storage → BinaryStream → ArchiveIndex → Option (Bool × Storage × ArchiveIndex)
  | 0, storage, _, s => some (true, storage, s)
  | fuel + 1, storage, dataStream, s =>
    match storage.readDataBlock (-1) dataStream with
    | (false, _, storage) => some (true, storage, s)
    | (true, dataStream, storage) =>
      match unserializeBlock currentTime (dataStream.unread.length + 1) s dataStream.unread with
      | none => none
      | some (false, s) => some (false, storage, s)
      | some (true, s) => loadBlocks currentTime fuel storage dataStream.reset s

/-- Load the index up to the point where outdated headers are dropped: what was in memory goes
in again behind the file. -/
def readLocal (s : ArchiveIndex) (disk : Disk) (currentTime : Int) : Option (Bool × ArchiveIndex) :=
  match Storage.open { read := true } disk with
  | .error error => some (false, { s with lastError := error })
  | .ok storage =>
    let tmpHeaders := s.headersIndex.items.map (·, currentTime)
    let s :=
      { s with lastError := .ok, headersIndex := ∅, outgoingCount := 0, mergedCount := 0 }
    match loadBlocks currentTime (storage.stream.bytes.length + 1) storage {} s with
    | none => none
    | some (false, _, s) =>
      some (false, { s.insertHeaders tmpHeaders with lastError := .parseHeaders })
    | some (true, storage, s) =>
      let s := s.insertHeaders tmpHeaders
      if storage.lastError ≠ .endOfFile then some (false, { s with lastError := storage.lastError })
      else some (true, { s with loadedFromLocal := true })

def loadFromLocal (s : ArchiveIndex) (disk : Disk) (currentTime : Int) :
    Option (Bool × ArchiveIndex) :=
  match s.readLocal disk currentTime with
  | none => none
  | some (false, s) => some (false, s)
  | some (true, s) => some (true, s.dropOutdatedHeaders currentTime)

/-- A header the file format can hold. -/
structure Writable (h : MessageHeader) : Prop where
  version : h.version ≤ headerVersion
  positive : 0 < h.id

/-- Reading a written block inserts what the format keeps of its headers. -/
theorem unserializeBlock_serializeBlock {headers : List MessageHeader} (s : ArchiveIndex)
    (currentTime : Int) {fuel : Nat} (hw : ∀ h ∈ headers, Writable h) (hf : headers.length < fuel) :
    unserializeBlock currentTime fuel s (serializeBlock headers) =
      some (true, s.insertHeaders (headers.map (fun h => (h.stored, currentTime)))) := by
  induction headers generalizing s fuel with
  | nil =>
    obtain ⟨fuel, rfl⟩ := Nat.exists_eq_add_one_of_ne_zero (by omega : fuel ≠ 0)
    rfl
  | cons h headers ih =>
    obtain ⟨fuel, rfl⟩ := Nat.exists_eq_add_one_of_ne_zero (by omega : fuel ≠ 0)
    have hh := hw h List.mem_cons_self
    have hdata : serializeBlock (h :: headers) =
        Scalar.encode headerTag ++ (Scalar.encode (UInt32.ofNat h.serialize.length) ++
          (h.serialize ++ serializeBlock headers)) := by
      simp [serializeBlock, TlvPack.serialize, Tlv.serialize]
    have h4 : (serializeBlock (h :: headers)).drop 4 =
        Scalar.encode (UInt32.ofNat h.serialize.length) ++
          (h.serialize ++ serializeBlock headers) := by
      rw [hdata, List.drop_left' (Storage.length_size _)]
    have h8 : (serializeBlock (h :: headers)).drop 8 = h.serialize ++ serializeBlock headers := by
      rw [show 8 = 4 + 4 from rfl, ← List.drop_drop, h4, List.drop_left' (Storage.length_size _)]
    have hlen : (serializeBlock (h :: headers)).length =
        8 + (h.serialize.length + (serializeBlock headers).length) := by
      rw [hdata]
      simp only [List.length_append, Storage.length_size]
      omega
    have hmod : (UInt32.ofNat h.serialize.length).toNat ≤ h.serialize.length := by
      rw [UInt32.toNat_ofNat']
      exact Nat.mod_le _ _
    have hlong : ¬ (serializeBlock (h :: headers)).length <
        (UInt32.ofNat h.serialize.length).toNat := by omega
    rw [unserializeBlock, if_neg (by omega), if_neg (by omega)]
    simp only [h4, h8, Scalar.decode_encode_append, hlong, if_false,
      MessageHeader.unserialize_serialize hh.version hh.positive]
    rw [ih _ (fun x hx => hw x (List.mem_cons_of_mem _ hx)) (by simpa using hf)]
    rfl

theorem length_le_serializeBlock (headers : List MessageHeader) :
    headers.length ≤ (serializeBlock headers).length := by
  induction headers with
  | nil => exact Nat.le_refl _
  | cons h headers ih =>
    simp only [serializeBlock, TlvPack.serialize, List.map_cons, List.flatMap_cons,
      List.length_cons, List.length_append, Tlv.serialize, Storage.length_size] at ih ⊢
    omega

/-- The bytes of a file of blocks. -/
def blockFile (blocks : List (List MessageHeader)) : Bytes :=
  ((blocks.map serializeBlock).map frame).flatten

/-- Blocks that the format holds and the readers accept. -/
structure Loadable (blocks : List (List MessageHeader)) : Prop where
  writable : ∀ b ∈ blocks, ∀ h ∈ b, Writable h
  small : ∀ b ∈ blocks, (serializeBlock b).length ≤ maxDataBlockSize.toNat

theorem Loadable.tail {b : List MessageHeader} {blocks : List (List MessageHeader)}
    (h : Loadable (b :: blocks)) : Loadable blocks :=
  ⟨fun c hc => h.writable c (List.mem_cons_of_mem _ hc),
    fun c hc => h.small c (List.mem_cons_of_mem _ hc)⟩

theorem loadBlocks_blockFile {blocks : List (List MessageHeader)} (storage : Storage)
    {data : BinaryStream} (s : ArchiveIndex) {fuel : Nat} (currentTime : Int)
    (hl : Loadable blocks) (ho : data.Ordered) (hu : data.unread = [])
    (hg : storage.stream.good = true) (hd : storage.stream.ahead = blockFile blocks)
    (hf : blocks.length < fuel) :
    ∃ storage', loadBlocks currentTime fuel storage data s =
        some (true, storage',
          s.insertHeaders (blocks.flatten.map (fun h => (h.stored, currentTime)))) ∧
      storage'.lastError = .endOfFile := by
  induction blocks generalizing storage data s fuel with
  | nil =>
    obtain ⟨fuel, rfl⟩ := Nat.exists_eq_add_one_of_ne_zero (by omega : fuel ≠ 0)
    simp only [loadBlocks, Storage.readDataBlock_end data hg hd]
    exact ⟨_, rfl, rfl⟩
  | cons b blocks ih =>
    obtain ⟨fuel, rfl⟩ := Nat.exists_eq_add_one_of_ne_zero (by omega : fuel ≠ 0)
    obtain ⟨hsize, hle⟩ := Storage.size_fits (hl.small b List.mem_cons_self)
    have hd' : storage.stream.ahead = frame (serializeBlock b) ++ blockFile blocks := hd
    obtain ⟨data', hread, ho', hu'⟩ := Storage.readDataBlock_frame ho hg hd' hsize hle
    rw [hu, List.nil_append] at hu'
    have hahead := FileStream.ahead_advance hd' (Storage.frame_length _)
    obtain ⟨storage', hload, hend⟩ := @ih
      { storage with stream := storage.stream.advance ((serializeBlock b).length + 16) } data'.reset
      (s.insertHeaders (b.map (fun h => (h.stored, currentTime)))) fuel hl.tail
      (BinaryStream.Ordered.reset _) (BinaryStream.unread_reset _) hg hahead (by simpa using hf)
    refine ⟨storage', ?_, hend⟩
    have hblock := unserializeBlock_serializeBlock s currentTime
      (hl.writable b List.mem_cons_self)
      (Nat.lt_succ_of_le (length_le_serializeBlock b))
    simp only [loadBlocks, hread, hu', hblock, hload]
    rw [List.flatten_cons, List.map_append, insertHeaders_append]

/-- A new index that loads a file of blocks inserts the headers of the file in order. -/
theorem readLocal_blockFile {blocks : List (List MessageHeader)} {disk : Disk} (currentTime : Int)
    (hl : Loadable blocks) (hd : disk.Usable) (hf : disk.file = some (blockFile blocks)) :
    readLocal {} disk currentTime =
      some (true, { insertHeaders {} (blocks.flatten.map (fun h => (h.stored, currentTime))) with
        loadedFromLocal := true }) := by
  have hfuel : blocks.length < (blockFile blocks).length + 1 := by
    have := Storage.length_le_frames (blocks.map serializeBlock)
    rw [List.length_map] at this
    exact Nat.lt_succ_of_le this
  obtain ⟨storage', hload, hend⟩ := loadBlocks_blockFile
    { stream := { bytes := blockFile blocks, room := disk.room } } {} currentTime hl
    BinaryStream.Ordered.empty rfl rfl (by simp [FileStream.ahead]) hfuel
  unfold readLocal
  rw [Disk.open_read hd hf]
  simp only [hload, hend, ne_eq, not_true_eq_false, if_false]
  rfl

/-- A block that was saved with success lies at the end of the file. -/
theorem saveBlock_ok {disk : Disk} {block : List MessageHeader}
    (hm : (serializeBlock block).length ≤ maxDataBlockSize.toNat)
    (h : (saveBlock disk block).1.result = true) :
    (saveBlock disk block).2.file = some (disk.file.getD [] ++ frame (serializeBlock block)) ∧
      (saveBlock disk block).2.Usable := by
  unfold saveBlock at h ⊢
  cases ho : Storage.open { write := true, append := true } disk with
  | error e => simp [ho] at h
  | ok storage =>
    simp only [ho] at h ⊢
    obtain ⟨hb, ha⟩ := Disk.open_append ho
    obtain ⟨hw, _⟩ := Storage.writeDataBlock_cases ha (BinaryStream.ordered_ofBytes _)
    obtain ⟨_, _, hbytes⟩ := hw h
    refine ⟨?_, Disk.close_usable ho⟩
    rw [BinaryStream.unread_ofBytes, ← (Storage.size_fits hm).1, List.take_length, hb] at hbytes
    simp only [Disk.close, hbytes, frame]

/-- Headers of the current format are not dropped after loading. -/
theorem dropOutdatedHeaders_recent {s : ArchiveIndex} {currentTime : Int}
    (h : ∀ x ∈ s.headersIndex.items, ¬ x.version < reactionsHeaderVersion) :
    s.dropOutdatedHeaders currentTime = s := by
  unfold dropOutdatedHeaders
  simp only
  split
  · rfl
  · rename_i x rest hx
    have hm : x ∈ s.headersIndex.items := List.mem_of_mem_drop (hx ▸ List.mem_cons_self)
    rw [if_neg (h x hm)]

end ArchiveIndex

/-- The feature bits are those the version of the header knows. -/
structure BitsFit (h : MessageHeader) : Prop where
  sharedContact : h.hasSharedContactWithSn = true → 1 < h.version
  poll : h.hasPollWithId = true → 2 < h.version
  reactions : h.hasReactions = true → 3 < h.version
  task : h.hasTaskWithId = true → 4 < h.version
  thread : h.hasThread = true → 5 < h.version

/-- A header as it is constructed from a message or read from the file. -/
structure NewHeader (h : MessageHeader) : Prop where
  version : h.version ≤ headerVersion
  positive : 0 < h.id
  bits : BitsFit h
  single : h.modifications = []

theorem takeIf_eq_ok {c b : Bool} {bs rest : Bytes}
    (h : Parser.takeIf c false bs = .ok (b, rest)) : b = true → c = true := by
  intro hb
  cases c with
  | true => rfl
  | false =>
    simp only [Parser.takeIf, Bool.false_eq_true, if_false, Parser.pure_apply, Outcome.ok.injEq,
      Prod.mk.injEq] at h
    exact absurd (h.1.trans hb) Bool.false_ne_true

/-- Every header the reader accepts is well formed. -/
theorem unserialize_newHeader {bs rest : Bytes} {h : MessageHeader}
    (hr : MessageHeader.unserialize bs = .ok (h, rest)) : NewHeader h := by
  unfold MessageHeader.unserialize at hr
  obtain ⟨_, _, _, hr⟩ := Parser.bind_eq_ok hr
  obtain ⟨version, _, _, hr⟩ := Parser.bind_eq_ok hr
  obtain ⟨_, _, hv, hr⟩ := Parser.bind_eq_ok hr
  obtain ⟨_, _, _, hr⟩ := Parser.bind_eq_ok hr
  obtain ⟨flags, _, _, hr⟩ := Parser.bind_eq_ok hr
  obtain ⟨time, _, _, hr⟩ := Parser.bind_eq_ok hr
  obtain ⟨id, _, _, hr⟩ := Parser.bind_eq_ok hr
  obtain ⟨_, _, hid, hr⟩ := Parser.bind_eq_ok hr
  obtain ⟨prevId, _, _, hr⟩ := Parser.bind_eq_ok hr
  obtain ⟨dataOffset, _, _, hr⟩ := Parser.bind_eq_ok hr
  obtain ⟨dataSize, _, _, hr⟩ := Parser.bind_eq_ok hr
  obtain ⟨patch, _, _, hr⟩ := Parser.bind_eq_ok hr
  obtain ⟨shared, _, h1, hr⟩ := Parser.bind_eq_ok hr
  obtain ⟨poll, _, h2, hr⟩ := Parser.bind_eq_ok hr
  obtain ⟨reactions, _, h3, hr⟩ := Parser.bind_eq_ok hr
  obtain ⟨task, _, h4, hr⟩ := Parser.bind_eq_ok hr
  obtain ⟨thread, _, h5, hr⟩ := Parser.bind_eq_ok hr
  simp only [Parser.pure_apply, Outcome.ok.injEq, Prod.mk.injEq] at hr
  obtain ⟨rfl, _⟩ := hr
  refine ⟨?_, ?_, ⟨?_, ?_, ?_, ?_, ?_⟩, rfl⟩
  · exact UInt8.not_lt.mp (of_decide_eq_false (Parser.refuseIf_eq_ok hv).1)
  · exact not_le.mp (of_decide_eq_false (Parser.refuseIf_eq_ok hid).1)
  · exact fun hb => of_decide_eq_true (takeIf_eq_ok h1 hb)
  · exact fun hb => of_decide_eq_true (takeIf_eq_ok h2 hb)
  · exact fun hb => of_decide_eq_true (takeIf_eq_ok h3 hb)
  · exact fun hb => of_decide_eq_true (takeIf_eq_ok h4 hb)
  · exact fun hb => of_decide_eq_true (takeIf_eq_ok h5 hb)

namespace ArchiveIndex

section Induction

variable {P : ArchiveIndex → Prop} {currentTime : Int}

/-- What insertions keep, reading a block keeps. -/
theorem unserializeBlock_induct
    (step : ∀ s h, P s → NewHeader h → P (s.insertHeader h currentTime).1)
    {fuel : Nat} {s s' : ArchiveIndex} {data : Bytes} {ok : Bool} (hs : P s)
    (h : unserializeBlock currentTime fuel s data = some (ok, s')) : P s' := by
  induction fuel generalizing s data with
  | zero =>
    simp only [unserializeBlock, Option.some.injEq, Prod.mk.injEq] at h
    exact h.2 ▸ hs
  | succ fuel ih =>
    have hstop : ∀ b : Bool, some (b, s) = some (ok, s') → P s' := by
      intro b hb
      simp only [Option.some.injEq, Prod.mk.injEq] at hb
      exact hb.2 ▸ hs
    unfold unserializeBlock at h
    split at h
    · exact hstop _ h
    · split at h
      · exact hstop _ h
      · simp only at h
        split at h
        · exact hstop _ h
        · split at h
          · rename_i hread
            exact ih (step _ _ hs (unserialize_newHeader hread)) h
          · exact hstop _ h
          · cases h

theorem loadBlocks_induct
    (step : ∀ s h, P s → NewHeader h → P (s.insertHeader h currentTime).1)
    {fuel : Nat} {storage storage' : Storage} {data : BinaryStream} {s s' : ArchiveIndex} {ok : Bool}
    (hs : P s) (h : loadBlocks currentTime fuel storage data s = some (ok, storage', s')) : P s' := by
  induction fuel generalizing storage data s with
  | zero =>
    simp only [loadBlocks, Option.some.injEq, Prod.mk.injEq] at h
    exact h.2.2 ▸ hs
  | succ fuel ih =>
    unfold loadBlocks at h
    split at h
    · simp only [Option.some.injEq, Prod.mk.injEq] at h
      exact h.2.2 ▸ hs
    · split at h
      · cases h
      · rename_i hblock
        simp only [Option.some.injEq, Prod.mk.injEq] at h
        exact h.2.2 ▸ unserializeBlock_induct step hs hblock
      · rename_i hblock
        exact ih (unserializeBlock_induct step hs hblock) h

theorem insertHeaders_induct {s : ArchiveIndex} {headers : List MessageHeader} (hs : P s)
    (step : ∀ s h, P s → h ∈ headers → P (s.insertHeader h currentTime).1) :
    P (s.insertHeaders (headers.map (·, currentTime))) := by
  induction headers generalizing s with
  | nil => exact hs
  | cons h headers ih =>
    exact ih (step s h hs List.mem_cons_self)
      (fun s x hx hm => step s x hx (List.mem_cons_of_mem _ hm))

/-- Loading either does nothing but leave an error, or inserts into the emptied index what the
file holds and then what was there before. -/
theorem readLocal_induct {s s' : ArchiveIndex} {disk : Disk} {ok : Bool}
    (h : s.readLocal disk currentTime = some (ok, s'))
    (empty : P { s with lastError := .ok, headersIndex := ∅, outgoingCount := 0, mergedCount := 0 })
    (step : ∀ s h, P s → NewHeader h → P (s.insertHeader h currentTime).1)
    (again : ∀ t h, P t → h ∈ s.headersIndex.items → P (t.insertHeader h currentTime).1) :
    (ok = false ∧ ∃ e, s' = { s with lastError := e }) ∨
      ∃ t, P t ∧ s'.headersIndex = t.headersIndex ∧ s'.outgoingCount = t.outgoingCount ∧
        s'.loadedFromLocal = (ok || t.loadedFromLocal) := by
  unfold readLocal at h
  split at h
  · rename_i e _
    simp only [Option.some.injEq, Prod.mk.injEq] at h
    exact Or.inl ⟨h.1.symm, e, h.2.symm⟩
  · refine Or.inr ?_
    simp only at h
    split at h
    · cases h
    · rename_i hload
      have ht := insertHeaders_induct (loadBlocks_induct step empty hload) again
      simp only [Option.some.injEq, Prod.mk.injEq] at h
      obtain ⟨rfl, rfl⟩ := h
      exact ⟨_, ht, rfl, rfl, rfl⟩
    · rename_i hload
      have ht := insertHeaders_induct (loadBlocks_induct step empty hload) again
      split at h
      · simp only [Option.some.injEq, Prod.mk.injEq] at h
        obtain ⟨rfl, rfl⟩ := h
        exact ⟨_, ht, rfl, rfl, rfl⟩
      · simp only [Option.some.injEq, Prod.mk.injEq] at h
        obtain ⟨rfl, rfl⟩ := h
        exact ⟨_, ht, rfl, rfl, rfl⟩

end Induction

end ArchiveIndex

end Icq.Archive
