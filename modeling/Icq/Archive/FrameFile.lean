import Icq.Archive.StorageRoundTrip

/-! A file of blocks: a block is read where it lies, replaced in place by one of its size, and new
ones go behind the last. -/

namespace Icq.Archive
open Icq.Lib Icq.Tools

/-- The file of the payloads. -/
def frames (payloads : List Bytes) : Bytes := (payloads.map frame).flatten

/-- Where the block of a number begins. -/
def offsetOf (payloads : List Bytes) (i : Nat) : Nat := (frames (payloads.take i)).length

theorem frames_append (payloads more : List Bytes) :
    frames (payloads ++ more) = frames payloads ++ frames more := by
  simp [frames]

theorem frames_cons (p : Bytes) (payloads : List Bytes) :
    frames (p :: payloads) = frame p ++ frames payloads := rfl

theorem offsetOf_append {payloads : List Bytes} {i : Nat} (h : i ≤ payloads.length)
    (more : List Bytes) : offsetOf (payloads ++ more) i = offsetOf payloads i := by
  rw [offsetOf, offsetOf, List.take_append_of_le_length h]

theorem offsetOf_length (payloads : List Bytes) :
    offsetOf payloads payloads.length = (frames payloads).length := by
  rw [offsetOf, List.take_length]

theorem frames_split {payloads : List Bytes} {i : Nat} (h : i < payloads.length) :
    frames payloads =
      frames (payloads.take i) ++ (frame payloads[i] ++ frames (payloads.drop (i + 1))) := by
  conv_lhs => rw [← List.take_append_drop i payloads, List.drop_eq_getElem_cons h]
  rw [frames_append, frames_cons]

theorem offsetOf_succ {payloads : List Bytes} {i : Nat} (h : i < payloads.length) :
    offsetOf payloads (i + 1) = offsetOf payloads i + (payloads[i].length + 16) := by
  rw [offsetOf, List.take_succ_eq_append_getElem h, frames_append, List.length_append, frames_cons,
    List.length_append, Storage.frame_length]
  rfl

/-- Blocks of the sizes of others lie where those lie. -/
theorem offsetOf_congr {payloads others : List Bytes}
    (h : payloads.map List.length = others.map List.length) (i : Nat) :
    offsetOf payloads i = offsetOf others i := by
  have hlen (l : List Bytes) : (frames l).length = (l.map fun p => p.length + 16).sum := by
    induction l with
    | nil => rfl
    | cons p l ih => rw [frames_cons, List.length_append, Storage.frame_length, ih, List.map_cons, List.sum_cons]
  have hmap (l : List Bytes) : (l.take i).map (fun p => p.length + 16) =
      ((l.map List.length).take i).map (· + 16) := by
    rw [← List.map_take, List.map_map]
    rfl
  rw [offsetOf, offsetOf, hlen, hlen, hmap, hmap, h]

namespace Storage

theorem writeParts_over {parts : List Bytes} {f : FileStream} {before old after : Bytes}
    (hg : f.good = true) (ha : f.append = false) (hr : f.room = none)
    (hb : f.bytes = before ++ (old ++ after)) (hp : f.pos = before.length)
    (hl : parts.flatten.length = old.length) :
    writeParts f parts = (true, { f with
      bytes := before ++ (parts.flatten ++ after), pos := before.length + parts.flatten.length }) := by
  induction parts generalizing f before old with
  | nil =>
    obtain rfl : old = [] := List.length_eq_zero_iff.mp hl.symm
    rw [List.nil_append] at hb
    simp [writeParts, ← hb, ← hp]
  | cons part parts ih =>
    have hfail : f.failed = false := by
      simp only [FileStream.good, Bool.and_eq_true, Bool.not_eq_true'] at hg
      exact hg.2
    rw [List.flatten_cons, List.length_append] at hl
    have hsplit : f.bytes = before ++ (old.take part.length ++ (old.drop part.length ++ after)) := by
      rw [← List.append_assoc (old.take _), List.take_append_drop, hb]
    have hpart : part.length = (old.take part.length).length := by
      rw [List.length_take]
      omega
    have hw := FileStream.write_over hg ha hr hsplit hp hpart
    have hrest := @ih (f.write part) (before ++ part) (old.drop part.length)
      (by rw [hw]; exact hg) (by rw [hw]; exact ha) (by rw [hw]; exact hr)
      (by rw [hw]; simp) (by rw [hw]; simp) (by rw [List.length_drop]; omega)
    have hok : (f.write part).failed = false := by rw [hw]; exact hfail
    simp only [writeParts, hok, Bool.false_eq_true, if_false, hrest]
    rw [hw]
    simp [Nat.add_assoc, hfail]

theorem append_writeParts (f : FileStream) (parts : List Bytes) :
    (writeParts f parts).2.append = f.append := by
  induction parts generalizing f with
  | nil => rfl
  | cons part parts ih =>
    unfold writeParts
    dsimp only
    split
    · exact FileStream.append_write f part
    · rw [ih, FileStream.append_write]

theorem append_writeDataBlock (s : Storage) (data : BinaryStream) :
    (s.writeDataBlock data).storage.stream.append = s.stream.append := by
  unfold writeDataBlock
  dsimp only
  split
  · rfl
  · exact append_writeParts ..

variable {s : Storage} {payloads : List Bytes} {i : Nat} {p : Bytes}

/-- Reading a block leaves the position behind it. -/
theorem readDataBlock_frames (data : BinaryStream) (hb : s.stream.bytes = frames payloads)
    (hg : s.stream.good = true) (h : i < payloads.length)
    (hm : payloads[i].length ≤ maxDataBlockSize.toNat) (ho : data.Ordered) :
    ∃ data', s.readDataBlock (offsetOf payloads i) data =
        (true, data', { s with stream := { s.stream with pos := offsetOf payloads (i + 1) } }) ∧
      data'.Ordered ∧ data'.unread = data.unread ++ payloads[i] := by
  rw [readDataBlock_seek data hg]
  obtain ⟨hl, hle⟩ := size_fits hm
  have hd : (FileStream.mk s.stream.bytes (offsetOf payloads i) s.stream.append s.stream.room
      s.stream.eof s.stream.failed).ahead =
        (frameParts (UInt32.ofNat payloads[i].length) payloads[i]).flatten ++
          frames (payloads.drop (i + 1)) := by
    rw [FileStream.ahead, hb, frames_split h, offsetOf, List.drop_left]
    rfl
  obtain ⟨data', hr, ho', hu⟩ := readDataBlock_frame
    (s := { s with stream := { s.stream with pos := offsetOf payloads i } }) ho hg hd hl hle
  refine ⟨data', ?_, ho', hu⟩
  rw [hr, offsetOf_succ h]
  rfl

/-- A block of the same size takes the place of another. -/
theorem writeDataBlockAt_frames (hb : s.stream.bytes = frames payloads) (hg : s.stream.good = true)
    (ha : s.stream.append = false) (hr : s.stream.room = none) (h : i < payloads.length)
    (hl : p.length = payloads[i].length) (h0 : p ≠ [])
    (hm : p.length ≤ maxDataBlockSize.toNat) :
    let w := s.writeDataBlockAt (.ofBytes p) (offsetOf payloads i)
    w.storage.stream.bytes = frames (payloads.set i p) ∧ w.storage.stream.AtEnd ∧
      w.storage.stream.append = false ∧ w.storage.stream.room = none := by
  intro w
  obtain ⟨hsize, -⟩ := size_fits hm
  have hne : UInt32.ofNat (BinaryStream.ofBytes p).available ≠ 0 := by
    rw [BinaryStream.available_ofBytes]
    intro hz
    rw [hz] at hsize
    exact h0 (List.length_eq_zero_iff.mp hsize)
  have hread : ((BinaryStream.ofBytes p).read (UInt32.ofNat (BinaryStream.ofBytes p).available).toNat).1 =
      some p := by
    rw [BinaryStream.available_ofBytes, ← hsize]
    have hnz : p.length ≠ 0 := fun hz => h0 (List.length_eq_zero_iff.mp hz)
    simp [BinaryStream.read, hnz]
  have hseek : s.stream.seekp (offsetOf payloads i) = { s.stream with pos := offsetOf payloads i } := by
    have hneg : ¬ ((offsetOf payloads i : Nat) : Int) < 0 := by omega
    simp [FileStream.seekp, hg, hneg]
  have hover := @writeParts_over (frameParts (UInt32.ofNat (BinaryStream.ofBytes p).available) p)
    { s.stream with pos := offsetOf payloads i } _ (frame payloads[i]) _ hg ha hr
    (hb.trans (frames_split h)) rfl (by rw [length_frameParts, frame_length, hl])
  have hset : frames (payloads.set i p) =
      frames (payloads.take i) ++ (frame p ++ frames (payloads.drop (i + 1))) := by
    rw [List.set_eq_take_append_cons_drop, if_pos h, frames_append, frames_cons]
  have hframe : (frameParts (UInt32.ofNat (BinaryStream.ofBytes p).available) p).flatten = frame p := by
    rw [BinaryStream.available_ofBytes]
    rfl
  rw [hframe, ← hset] at hover
  have hw : w.storage = { s with stream := { s.stream with
      bytes := frames (payloads.set i p), pos := (frames (payloads.set i p)).length } } := by
    simp only [w, writeDataBlockAt, writeDataBlock, hne, if_false, hread, Option.getD_some, hseek,
      hover, FileStream.seekEnd]
    simp [FileStream.good] at hg ⊢
    simp [hg]
  rw [hw]
  exact ⟨rfl, ⟨hg, rfl⟩, ha, hr⟩

/-- A block written at the end comes behind the others. -/
theorem writeDataBlock_frames (hb : s.stream.bytes = frames payloads) (he : s.stream.AtEnd)
    (hr : s.stream.room = none) (ha : s.stream.append = false) (h0 : p ≠ [])
    (hm : p.length ≤ maxDataBlockSize.toNat) :
    let w := s.writeDataBlock (.ofBytes p)
    w.storage.stream.bytes = frames (payloads ++ [p]) ∧ w.storage.stream.AtEnd ∧
      w.storage.stream.append = false ∧ w.storage.stream.room = none ∧
      w.offset = offsetOf payloads payloads.length := by
  obtain ⟨hend, hroom, hbytes, -, hoff⟩ := writeDataBlock_block p he hr
  have hacc : accepted p = true := by
    have hsize := (size_fits hm).1
    rw [accepted, bne_iff_ne]
    intro hz
    rw [hz] at hsize
    exact h0 (List.length_eq_zero_iff.mp hsize)
  have hblock : block p = frame p := by rw [block_readable (.inl hm), if_pos hacc]
  refine ⟨?_, hend, ?_, hroom, ?_⟩
  · rw [hbytes, hb, hblock, frames_append, frames_cons]
    simp [frames]
  · exact (append_writeDataBlock ..).trans ha
  · rw [hoff, hb, offsetOf_length]

end Storage

end Icq.Archive
