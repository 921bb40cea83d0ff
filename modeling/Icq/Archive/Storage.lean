import Icq.Lib.FileStream
import Icq.Tools.BinaryStream

namespace Icq.Archive
open Icq.Lib Icq.Tools

inductive Error where
  | ok | endOfFile | fileNotExist | createDirectoryError | openFileError | parseHeaders
deriving DecidableEq, Repr

structure StorageMode where
  read : Bool := false
  write : Bool := false
  append : Bool := false
  truncate : Bool := false
  atEnd : Bool := false

/-- The file of a storage and what the system lets happen to it. -/
structure Disk where
  file : Option Bytes := none
  folderExists : Bool := true
  createsFolder : Bool := true
  opensFile : Bool := true
  room : Option Nat := none

/-- A storage whose file is open. -/
structure Storage where
  stream : FileStream
  lastError : Error := .ok
  /-- What the system reports after a failed write. -/
  systemLastError : Int32 := 0

structure ResultType where
  result : Bool := true
  errorCode : Int32 := 0
deriving DecidableEq

/-- The largest block the readers accept. -/
def maxDataBlockSize : UInt32 := 1024 * 1024

namespace Storage

/-- Open the file; a refusal names its reason. -/
def «open» (mode : StorageMode) (disk : Disk) : Except Error Storage :=
  if mode.read && !mode.write && disk.file.isNone then .error .fileNotExist
  else if !disk.folderExists && !disk.createsFolder then .error .createDirectoryError
  else if !disk.opensFile then .error .openFileError
  else
    let stream : FileStream :=
      { bytes := if mode.truncate then [] else disk.file.getD []
        append := mode.append, room := disk.room }
    if (mode.append || mode.atEnd) && mode.write then .ok { stream := stream.seekEnd }
    else .ok { stream }

/-- Write one piece after another up to the first that fails. -/
def writeParts : FileStream → List Bytes → Bool × FileStream
  | f, [] => (true, f)
  | f, part :: parts =>
    let f := f.write part
    if f.failed then (false, f) else writeParts f parts

/-- What a block looks like in the file: its size twice on both sides. -/
def frameParts (size : UInt32) (payload : Bytes) : List Bytes :=
  [Scalar.encode size, Scalar.encode size, payload, Scalar.encode size, Scalar.encode size]

structure Written where
  result : ResultType
  offset : Int
  data : BinaryStream
  storage : Storage

/-- Append the unread part of a stream as one block. The size is kept in 32 bits. -/
def writeDataBlock (s : Storage) (data : BinaryStream) : Written :=
  let offset := s.stream.tellp
  let dataSize := UInt32.ofNat data.available
  if dataSize = 0 then
    { result := ⟨false, Int32.maxValue⟩, offset, data, storage := s }
  else
    let (payload, data) := data.read dataSize.toNat
    let (ok, stream) := writeParts s.stream (frameParts dataSize (payload.getD []))
    { result := if ok then ⟨true, 0⟩ else ⟨false, s.systemLastError⟩
      offset, data, storage := { s with stream } }

/-- Write a block at an offset, and go to the end of the file. -/
def writeDataBlockAt (s : Storage) (data : BinaryStream) (offset : Int) : Written :=
  let w := { s with stream := s.stream.seekp offset : Storage }.writeDataBlock data
  { w with storage := { w.storage with stream := w.storage.stream.seekEnd } }

/-- One of the four copies of the size; nothing if the file ends. -/
def readSize (f : FileStream) : Option UInt32 × FileStream :=
  let (bytes, f) := f.read 4
  if f.good then (some (Scalar.decode bytes), f) else (none, f)

/-- The payload goes behind what the stream already holds; an empty one is not read at all. -/
def readPayload (f : FileStream) (data : BinaryStream) (size : UInt32) :
    BinaryStream × FileStream :=
  if size != 0 then
    let (got, f) := f.read size.toNat
    (data.fill size.toNat got, f)
  else (data, f)

/-- Read the block at an offset, or at the position when the offset is `-1`, behind what the
stream already holds. -/
def readDataBlock (s : Storage) (offset : Int) (data : BinaryStream) :
    Bool × BinaryStream × Storage :=
  let f := if offset != -1 then s.stream.seekp offset else s.stream
  match f.peek with
  | (none, f) => (false, data, { s with stream := f, lastError := .endOfFile })
  | (some _, f) =>
    match readSize f with
    | (none, f) => (false, data, { s with stream := f })
    | (some sz1, f) =>
      match readSize f with
      | (none, f) => (false, data, { s with stream := f })
      | (some sz2, f) =>
        if sz1 != sz2 || decide (maxDataBlockSize < sz1) then
          (false, data, { s with stream := f })
        else
          let (data, f) := readPayload f data sz1
          if !f.good then (false, data, { s with stream := f })
          else
            match readSize f with
            | (none, f) => (false, data, { s with stream := f })
            | (some sz3, f) =>
              match readSize f with
              | (none, f) => (false, data, { s with stream := f })
              | (some sz4, f) =>
                (!(sz1 != sz3 || sz1 != sz4), data, { s with stream := f })

/-- Read blocks from the position on, each into the emptied stream, until one fails. -/
def readBlocks : Nat → Storage → BinaryStream → List Bytes × Storage
  | 0, s, _ => ([], s)
  | fuel + 1, s, data =>
    match s.readDataBlock (-1) data.reset with
    | (false, _, s) => ([], s)
    | (true, data, s) =>
      let (payloads, s) := readBlocks fuel s data
      (data.unread :: payloads, s)

/-- Every block makes the file longer than the fuel it takes. -/
def readAll (s : Storage) : List Bytes × Storage := readBlocks (s.stream.bytes.length + 1) s {}

def getOffset (s : Storage) : Int := s.stream.tellp

/-- A file opened anew for reading. -/
def reader (bytes : Bytes) : Storage := { stream := { bytes } }

end Storage

/-- The bytes of a block whose size fits its 32 bits. -/
def frame (payload : Bytes) : Bytes :=
  (Storage.frameParts (UInt32.ofNat payload.length) payload).flatten

namespace Storage

theorem width_size : Scalar.width UInt32 = 4 := rfl

theorem length_size (size : UInt32) : (Scalar.encode size).length = 4 := by
  rw [Scalar.length_encode, width_size]

theorem length_frameParts (size : UInt32) (payload : Bytes) :
    (frameParts size payload).flatten.length = payload.length + 16 := by
  simp only [frameParts, List.flatten_cons, List.flatten_nil, List.length_append, length_size,
    List.length_nil]
  omega

/-- Pieces that were all written lie at the end of the file. -/
theorem writeParts_atEnd {f f' : FileStream} {parts : List Bytes} (h : f.AtEnd)
    (hw : writeParts f parts = (true, f')) :
    f'.bytes = f.bytes ++ parts.flatten ∧ f'.AtEnd := by
  induction parts generalizing f with
  | nil =>
    simp only [writeParts, Prod.mk.injEq, true_and] at hw
    subst hw
    exact ⟨by simp, h⟩
  | cons part parts ih =>
    simp only [writeParts] at hw
    cases hf : (f.write part).failed with
    | true => simp [hf] at hw
    | false =>
      simp only [hf, Bool.false_eq_true, if_false] at hw
      obtain ⟨hb, ha, _⟩ := FileStream.write_atEnd h hf
      obtain ⟨hb', ha'⟩ := ih ha hw
      refine ⟨?_, ha'⟩
      rw [hb', hb]
      simp

theorem writeParts_reliable {f : FileStream} (parts : List Bytes) (h : f.AtEnd)
    (hr : f.room = none) :
    ∃ f', writeParts f parts = (true, f') ∧ f'.room = none := by
  induction parts generalizing f with
  | nil => exact ⟨f, rfl, hr⟩
  | cons part parts ih =>
    obtain ⟨hf, hr'⟩ := FileStream.write_reliable part h.good hr
    obtain ⟨f', hw, hr''⟩ := ih (FileStream.write_atEnd h hf).2.1 hr'
    exact ⟨f', by simp [writeParts, hf, hw], hr''⟩

/-- Reading one size in a file that has it. -/
theorem readSize_good {f : FileStream} {size : UInt32} {rest : Bytes} (hg : f.good = true)
    (hd : f.ahead = Scalar.encode size ++ rest) :
    readSize f = (some size, f.advance 4) ∧ (f.advance 4).ahead = rest := by
  refine ⟨?_, FileStream.ahead_advance hd (length_size size)⟩
  simp [readSize, FileStream.read_good hg hd (length_size size), hg]

theorem readPayload_good {f : FileStream} {data : BinaryStream} {size : UInt32}
    {payload rest : Bytes} (ho : data.Ordered) (hg : f.good = true) (hd : f.ahead = payload ++ rest)
    (hl : payload.length = size.toNat) :
    ∃ data', readPayload f data size = (data', f.advance size.toNat) ∧ data'.Ordered ∧
      data'.unread = data.unread ++ payload := by
  unfold readPayload
  by_cases hz : size = 0
  · subst hz
    obtain rfl := List.length_eq_zero_iff.mp hl
    exact ⟨data, rfl, ho, by simp⟩
  · refine ⟨data.fill size.toNat payload, ?_, hl ▸ ho.fill payload, hl ▸ ho.unread_fill payload⟩
    simp [hz, FileStream.read_good hg hd hl]

/-- A block that lies at the position is read. -/
theorem readDataBlock_frame {s : Storage} {data : BinaryStream} {size : UInt32}
    {payload rest : Bytes} (ho : data.Ordered) (hg : s.stream.good = true)
    (hd : s.stream.ahead = (frameParts size payload).flatten ++ rest)
    (hl : payload.length = size.toNat) (hm : size ≤ maxDataBlockSize) :
    ∃ data', s.readDataBlock (-1) data =
        (true, data', { s with stream := s.stream.advance (payload.length + 16) }) ∧
      data'.Ordered ∧ data'.unread = data.unread ++ payload := by
  obtain ⟨f, err, sys⟩ := s
  simp only at hg hd
  have hd1 : f.ahead = Scalar.encode size ++ (Scalar.encode size ++
      (payload ++ (Scalar.encode size ++ (Scalar.encode size ++ rest)))) := by
    rw [hd]
    simp [frameParts]
  have hne : f.ahead ≠ [] := by
    intro hnil
    have hlen := congrArg List.length (hnil.symm.trans hd1)
    rw [List.length_append, length_size] at hlen
    simp at hlen
    omega
  obtain ⟨b, hpeek⟩ := FileStream.peek_good hg hne
  obtain ⟨h1, hd2⟩ := readSize_good hg hd1
  obtain ⟨h2, hd3⟩ := readSize_good (f := f.advance 4) hg hd2
  obtain ⟨data', hp, ho', hu⟩ := readPayload_good (f := (f.advance 4).advance 4) ho hg hd3 hl
  have hd4 := FileStream.ahead_advance hd3 hl
  obtain ⟨h3, hd5⟩ := readSize_good (f := ((f.advance 4).advance 4).advance size.toNat) hg hd4
  obtain ⟨h4, _⟩ := readSize_good
    (f := (((f.advance 4).advance 4).advance size.toNat).advance 4) hg hd5
  have hcheck : decide (maxDataBlockSize < size) = false :=
    decide_eq_false (UInt32.not_lt.mpr hm)
  have hoff : ((-1 : Int) != -1) = false := rfl
  refine ⟨data', ?_, ho', hu⟩
  simp only [readDataBlock, hoff, hpeek, h1, h2, hcheck, hp, FileStream.good_advance, hg, h3, h4,
    Bool.false_eq_true, if_false, Bool.not_true, bne_self_eq_false, Bool.or_self, Bool.not_false]
  rw [FileStream.advance_advance, FileStream.advance_advance, FileStream.advance_advance,
    FileStream.advance_advance, hl, show 4 + (4 + (size.toNat + (4 + 4))) = size.toNat + 16 by omega]

theorem readDataBlock_end {s : Storage} (data : BinaryStream) (hg : s.stream.good = true)
    (hd : s.stream.ahead = []) :
    s.readDataBlock (-1) data =
      (false, data, { s with stream := { s.stream with eof := true }, lastError := .endOfFile }) := by
  simp [readDataBlock, FileStream.peek_end hg hd]

/-- Reading at an offset is reading after moving there. -/
theorem readDataBlock_seek {s : Storage} {offset : Nat} (data : BinaryStream)
    (hg : s.stream.good = true) :
    s.readDataBlock offset data =
      readDataBlock { s with stream := { s.stream with pos := offset } } (-1) data := by
  have hoff : ((offset : Int) != -1) = true := by
    rw [bne_iff_ne]
    omega
  have hneg : ¬ (offset : Int) < 0 := by omega
  simp [readDataBlock, hoff, FileStream.seekp, hg, hneg]

theorem frame_length (payload : Bytes) : (frame payload).length = payload.length + 16 :=
  length_frameParts _ _

theorem size_fits {payload : Bytes} (h : payload.length ≤ maxDataBlockSize.toNat) :
    payload.length = (UInt32.ofNat payload.length).toNat ∧
      UInt32.ofNat payload.length ≤ maxDataBlockSize := by
  have hmax : maxDataBlockSize.toNat = 1048576 := rfl
  have hlen : (UInt32.ofNat payload.length).toNat = payload.length := by
    rw [UInt32.toNat_ofNat']
    omega
  refine ⟨hlen.symm, ?_⟩
  rw [UInt32.le_iff_toNat_le, hlen]
  exact h

/-- A file of well-sized blocks is read block by block to its end. -/
theorem readBlocks_frames {payloads : List Bytes} {s : Storage} {data : BinaryStream} {fuel : Nat}
    (hm : ∀ p ∈ payloads, p.length ≤ maxDataBlockSize.toNat) (hg : s.stream.good = true)
    (hd : s.stream.ahead = (payloads.map frame).flatten) (hf : payloads.length < fuel) :
    ∃ s', readBlocks fuel s data = (payloads, s') ∧ s'.lastError = .endOfFile := by
  induction payloads generalizing s data fuel with
  | nil =>
    obtain ⟨fuel, rfl⟩ := Nat.exists_eq_add_one_of_ne_zero (by omega : fuel ≠ 0)
    simp only [readBlocks, readDataBlock_end data.reset hg hd]
    exact ⟨_, rfl, rfl⟩
  | cons p payloads ih =>
    obtain ⟨fuel, rfl⟩ := Nat.exists_eq_add_one_of_ne_zero (by omega : fuel ≠ 0)
    obtain ⟨hl, hle⟩ := size_fits (hm p List.mem_cons_self)
    have hd' : s.stream.ahead = frame p ++ (payloads.map frame).flatten := hd
    obtain ⟨data', hr, _, hu⟩ :=
      readDataBlock_frame (BinaryStream.Ordered.reset data) hg hd' hl hle
    have hrest := FileStream.ahead_advance hd' (frame_length p)
    obtain ⟨s', hs, he⟩ := @ih { s with stream := s.stream.advance (p.length + 16) }
      data' fuel (fun q hq => hm q (List.mem_cons_of_mem _ hq)) hg hrest
      (by simpa using hf)
    refine ⟨s', ?_, he⟩
    simp only [readBlocks, hr, hs, hu]
    simp

theorem length_le_frames (payloads : List Bytes) :
    payloads.length ≤ (payloads.map frame).flatten.length := by
  induction payloads with
  | nil => exact Nat.le_refl _
  | cons p payloads ih =>
    simp only [List.map_cons, List.flatten_cons, List.length_cons, List.length_append, frame_length]
    omega

theorem readAll_frames {payloads : List Bytes}
    (hm : ∀ p ∈ payloads, p.length ≤ maxDataBlockSize.toNat) :
    ∃ s', (reader (payloads.map frame).flatten).readAll = (payloads, s') ∧
      s'.lastError = .endOfFile := by
  apply readBlocks_frames hm rfl
  · simp [reader, FileStream.ahead]
  · exact Nat.lt_succ_of_le (length_le_frames payloads)

/-- What a block write can do to a file that stands at its end. -/
theorem writeDataBlock_cases {s : Storage} {data : BinaryStream} (h : s.stream.AtEnd)
    (ho : data.Ordered) :
    ((s.writeDataBlock data).result.result = true →
      UInt32.ofNat data.unread.length ≠ 0 ∧
        (s.writeDataBlock data).storage.stream.AtEnd ∧
        (s.writeDataBlock data).storage.stream.bytes = s.stream.bytes ++
          (frameParts (UInt32.ofNat data.unread.length)
            (data.unread.take (UInt32.ofNat data.unread.length).toNat)).flatten) ∧
      (s.writeDataBlock data).offset = s.stream.bytes.length := by
  have hfail : s.stream.failed = false := by
    have := h.good
    simp only [FileStream.good, Bool.and_eq_true, Bool.not_eq_true'] at this
    exact this.2
  have htell : s.stream.tellp = s.stream.bytes.length := by
    simp [FileStream.tellp, hfail, h.pos]
  have hle : (UInt32.ofNat data.unread.length).toNat ≤ data.unread.length := by
    rw [UInt32.toNat_ofNat']
    exact Nat.mod_le _ _
  unfold writeDataBlock
  rw [← ho.length_unread]
  generalize UInt32.ofNat data.unread.length = size at hle ⊢
  by_cases hz : size = 0
  · simp [hz, htell]
  · have hnz : size.toNat ≠ 0 := fun h0 => hz (UInt32.toNat_inj.mp h0)
    have hread : (data.read size.toNat).1 = some (data.unread.take size.toNat) := by
      have hav : ¬ data.available < size.toNat := by
        rw [← ho.length_unread]
        omega
      simp only [BinaryStream.read, hnz, hav, if_false]
    simp only [hz, if_false, hread, htell, Option.getD_some]
    refine ⟨?_, trivial⟩
    intro hw
    cases hp : writeParts s.stream (frameParts size (data.unread.take size.toNat)) with
    | mk ok stream =>
      cases ok with
      | false => simp [hp] at hw
      | true =>
        obtain ⟨hb, ha⟩ := writeParts_atEnd h hp
        exact ⟨hz, ha, hb⟩

/-- A reliable device refuses exactly the blocks whose size is zero in 32 bits. -/
theorem writeDataBlock_reliable {s : Storage} (data : BinaryStream) (h : s.stream.AtEnd)
    (hr : s.stream.room = none) :
    (s.writeDataBlock data).storage.stream.room = none ∧
      (UInt32.ofNat data.available = 0 →
        (s.writeDataBlock data).result.result = false ∧ (s.writeDataBlock data).storage = s) ∧
      (UInt32.ofNat data.available ≠ 0 → (s.writeDataBlock data).result.result = true) := by
  unfold writeDataBlock
  generalize UInt32.ofNat data.available = size
  by_cases hz : size = 0
  · simp [hz, hr]
  · obtain ⟨f', hw, hr'⟩ :=
      writeParts_reliable (frameParts size ((data.read size.toNat).1.getD [])) h hr
    simp [hz, hw, hr']

end Storage

end Icq.Archive
