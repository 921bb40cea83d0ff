import Icq.Archive.StorageRoundTrip

namespace Icq.Archive
open Icq.Lib Icq.Tools

namespace Storage

/-- The four bytes at a position of a buffer as a size. -/
def sizeAt (data : Bytes) (position : Nat) : UInt32 := Scalar.decode (data.drop position)

/-- The first position from `pos` on where a whole block lies, with its size, or the position
where the search gave up. -/
def findBlock (data : Bytes) (endPosition : Nat) : Nat → Nat → Option UInt32 × Nat
  | 0, pos => (none, pos)
  | fuel + 1, pos =>
    if pos + 16 ≥ endPosition then (none, pos)
    else
      let sz1 := sizeAt data pos
      let sz2 := sizeAt data (pos + 4)
      if sz1 == 0 || sz1 != sz2 || decide (maxDataBlockSize < sz1) then
        findBlock data endPosition fuel (pos + 1)
      else if pos + 16 + sz1.toNat ≤ endPosition then
        let sz3 := sizeAt data (pos + 8 + sz1.toNat)
        let sz4 := sizeAt data (pos + 12 + sz1.toNat)
        if sz3 != sz1 || sz3 != sz4 then findBlock data endPosition fuel (pos + 1)
        else (some sz1, pos)
      else (none, pos)

structure FastRead where
  found : Bool
  buffer : BinaryStream
  currentPos : Nat
  begin : Nat

/-- Set the cursors of a buffer around the next block before the end position. -/
def fastReadDataBlock (buffer : BinaryStream) (currentPos begin endPosition : Nat) : FastRead :=
  if currentPos + 16 ≥ buffer.allSize then { found := false, buffer, currentPos, begin }
  else
    match findBlock buffer.buffer endPosition (endPosition - currentPos) currentPos with
    | (none, currentPos) => { found := false, buffer, currentPos, begin }
    | (some size, pos) =>
      let begin := pos + 8
      { found := true
        buffer := (buffer.setOutput begin).setInput (begin + size.toNat)
        currentPos := begin + size.toNat + 8, begin }

/-- Read blocks out of a buffer until none is found; also where the scan stopped. -/
def scanBlocks (endPosition : Nat) : Nat → BinaryStream → Nat → List Bytes × Nat
  | 0, _, pos => ([], pos)
  | fuel + 1, buffer, pos =>
    let r := fastReadDataBlock buffer pos 0 endPosition
    if r.found then
      let (payloads, stop) := scanBlocks endPosition fuel r.buffer r.currentPos
      (r.buffer.unread :: payloads, stop)
    else ([], r.currentPos)

/-- Every block found moves the position; the length of the region is fuel enough. -/
def scanRegion (data : Bytes) (start endPosition : Nat) : List Bytes × Nat :=
  scanBlocks endPosition (endPosition - start + 1) { buffer := data } start

/-- Scan a file chunk by chunk. A chunk is loaded between other bytes of the buffer and begins in
the file where the scan of the one before stopped. -/
def scanChunks (file before after : Bytes) (chunkSize : Nat → Nat) : Nat → Nat → List Bytes
  | 0, _ => []
  | fuel + 1, offset =>
    let chunk := (file.drop offset).take (chunkSize offset)
    let (payloads, stop) :=
      scanRegion (before ++ (chunk ++ after)) before.length (before.length + chunk.length)
    if file.length ≤ offset + chunkSize offset then payloads
    else payloads ++ scanChunks file before after chunkSize fuel (offset + (stop - before.length))

theorem sizeAt_encode {data rest : Bytes} {pos : Nat} {size : UInt32}
    (h : data.drop pos = Scalar.encode size ++ rest) : sizeAt data pos = size := by
  rw [sizeAt, h, Scalar.decode_encode_append]

theorem drop_add {data left rest : Bytes} {pos n : Nat} (h : data.drop pos = left ++ rest)
    (hn : left.length = n) : data.drop (pos + n) = rest := by
  rw [← List.drop_drop, h, ← hn, List.drop_left]

/-- A payload the scanner can find. -/
def Scannable (payload : Bytes) : Prop := payload ≠ [] ∧ payload.length ≤ maxDataBlockSize.toNat

theorem findBlock_whole {data rest p : Bytes} {pos endPosition fuel : Nat} (hp : Scannable p)
    (hd : data.drop pos = frame p ++ rest) (he : pos + (p.length + 16) ≤ endPosition) :
    findBlock data endPosition (fuel + 1) pos = (some (UInt32.ofNat p.length), pos) := by
  obtain ⟨hne, hm⟩ := hp
  obtain ⟨hl, hle⟩ := size_fits hm
  have hpos : 0 < p.length := List.length_pos_iff.mpr hne
  simp only [frame, frameParts, List.flatten_cons, List.flatten_nil, List.append_nil,
    List.append_assoc] at hd
  have hd2 := drop_add hd (length_size _)
  have hd3 := drop_add (drop_add hd2 (length_size _)) hl
  have hd4 := drop_add hd3 (length_size _)
  have h1 := sizeAt_encode hd
  have h2 := sizeAt_encode hd2
  have h3 := sizeAt_encode hd3
  have h4 := sizeAt_encode hd4
  rw [show pos + 4 + 4 + (UInt32.ofNat p.length).toNat =
    pos + 8 + (UInt32.ofNat p.length).toNat by omega] at h3
  rw [show pos + 4 + 4 + (UInt32.ofNat p.length).toNat + 4 =
    pos + 12 + (UInt32.ofNat p.length).toNat by omega] at h4
  have hz : (UInt32.ofNat p.length == 0) = false := by
    rw [beq_eq_false_iff_ne, ne_eq, ← UInt32.toNat_inj, ← hl]
    exact Nat.ne_of_gt hpos
  have hmax : decide (maxDataBlockSize < UInt32.ofNat p.length) = false :=
    decide_eq_false (UInt32.not_lt.mpr hle)
  have hend : ¬ pos + 16 ≥ endPosition := by omega
  have hfit : pos + 16 + (UInt32.ofNat p.length).toNat ≤ endPosition := by omega
  simp only [findBlock, hend, h1, h2, h3, h4, hz, hmax, hfit, bne_self_eq_false, Bool.or_self,
    Bool.false_eq_true, if_false, if_true]

/-- A block cut off by the end position stops the search where it begins. -/
theorem findBlock_cut {data more p : Bytes} {pos endPosition fuel : Nat} (hp : Scannable p)
    (hd : (data.drop pos).take (endPosition - pos) = (frame p ++ more).take (endPosition - pos))
    (he : endPosition < pos + (p.length + 16)) :
    findBlock data endPosition fuel pos = (none, pos) := by
  cases fuel with
  | zero => rfl
  | succ fuel =>
    by_cases hend : pos + 16 ≥ endPosition
    · simp only [findBlock, hend, if_true]
    · obtain ⟨hl, _⟩ := size_fits hp.2
      have hpre : ∃ rest, data.drop pos = Scalar.encode (UInt32.ofNat p.length) ++
          (Scalar.encode (UInt32.ofNat p.length) ++ rest) := by
        refine ⟨data.drop (pos + 8), ?_⟩
        have h8 := congrArg (List.take 8) hd
        rw [List.take_take, List.take_take, Nat.min_eq_left (by omega)] at h8
        have hf : (frame p ++ more).take 8 = Scalar.encode (UInt32.ofNat p.length) ++
            Scalar.encode (UInt32.ofNat p.length) := by
          simp only [frame, frameParts, List.flatten_cons, List.append_assoc]
          rw [← List.append_assoc]
          exact List.take_left' (by rw [List.length_append, length_size])
        rw [hf] at h8
        rw [← List.append_assoc, ← h8, ← List.drop_drop, List.take_append_drop]
      obtain ⟨rest, hd1⟩ := hpre
      have h1 := sizeAt_encode hd1
      have h2 := sizeAt_encode (drop_add hd1 (length_size _))
      have hz : (UInt32.ofNat p.length == 0) = false := by
        rw [beq_eq_false_iff_ne, ne_eq, ← UInt32.toNat_inj, ← hl]
        exact Nat.ne_of_gt (List.length_pos_iff.mpr hp.1)
      have hmax : decide (maxDataBlockSize < UInt32.ofNat p.length) = false :=
        decide_eq_false (UInt32.not_lt.mpr (size_fits hp.2).2)
      have hfit : ¬ pos + 16 + (UInt32.ofNat p.length).toNat ≤ endPosition := by omega
      simp only [findBlock, hend, h1, h2, hz, hmax, hfit, bne_self_eq_false, Bool.or_self,
        Bool.false_eq_true, if_false]

theorem fastRead_whole {buffer : BinaryStream} {rest p : Bytes} {pos endPosition : Nat}
    (begin : Nat) (hp : Scannable p) (hd : buffer.buffer.drop pos = frame p ++ rest)
    (he : pos + (p.length + 16) ≤ endPosition) :
    ∃ buffer', fastReadDataBlock buffer pos begin endPosition =
        ⟨true, buffer', pos + (p.length + 16), pos + 8⟩ ∧
      buffer'.buffer = buffer.buffer ∧ buffer'.unread = p := by
  obtain ⟨hl, _⟩ := size_fits hp.2
  have hlen := congrArg List.length hd
  rw [List.length_drop, List.length_append, frame_length] at hlen
  have hpos : 0 < p.length := List.length_pos_iff.mpr hp.1
  have hsize : ¬ pos + 16 ≥ buffer.allSize := by
    rw [BinaryStream.allSize]
    omega
  obtain ⟨fuel, hfuel⟩ := Nat.exists_eq_add_one_of_ne_zero (by omega : endPosition - pos ≠ 0)
  refine ⟨(buffer.setOutput (pos + 8)).setInput (pos + 8 + p.length), ?_, rfl, ?_⟩
  · simp only [fastReadDataBlock, hsize, if_false, hfuel, findBlock_whole hp hd he]
    rw [← hl, show pos + 8 + p.length + 8 = pos + (p.length + 16) by omega]
  · simp only [frame, frameParts, List.flatten_cons, List.append_assoc] at hd
    have hd2 := drop_add (drop_add hd (length_size _)) (length_size _)
    simp only [BinaryStream.unread, BinaryStream.setInput, BinaryStream.setOutput]
    rw [List.drop_take, show pos + 8 = pos + 4 + 4 by omega, hd2, Nat.add_sub_cancel_left,
      List.take_left]

theorem fastRead_cut {buffer : BinaryStream} {more p : Bytes} {pos begin endPosition : Nat}
    (hp : Scannable p)
    (hd : (buffer.buffer.drop pos).take (endPosition - pos) =
      (frame p ++ more).take (endPosition - pos))
    (he : endPosition < pos + (p.length + 16)) :
    fastReadDataBlock buffer pos begin endPosition = ⟨false, buffer, pos, begin⟩ := by
  unfold fastReadDataBlock
  split
  · rfl
  · rw [findBlock_cut hp hd he]

theorem fastRead_end {buffer : BinaryStream} {pos begin endPosition : Nat}
    (hd : (buffer.buffer.drop pos).take (endPosition - pos) = []) :
    fastReadDataBlock buffer pos begin endPosition = ⟨false, buffer, pos, begin⟩ := by
  unfold fastReadDataBlock
  split
  · rfl
  · rename_i hsize
    have hlen := congrArg List.length hd
    rw [List.length_take, List.length_drop, List.length_nil] at hlen
    rw [BinaryStream.allSize] at hsize
    have hend : endPosition - pos = 0 := by omega
    rw [hend]
    rfl

/-- A region that begins with whole blocks is scanned up to the first block it cuts off. -/
theorem scanBlocks_frames {payloads : List Bytes} {buffer : BinaryStream} {pos n fuel : Nat}
    (hp : ∀ p ∈ payloads, Scannable p)
    (hd : (buffer.buffer.drop pos).take n = (payloads.map frame).flatten.take n) (hf : n < fuel) :
    ∃ done todo, payloads = done ++ todo ∧
      scanBlocks (pos + n) fuel buffer pos = (done, pos + (done.map frame).flatten.length) ∧
      (done.map frame).flatten.length ≤ n ∧
      ∀ p rest, todo = p :: rest → n < (done.map frame).flatten.length + (p.length + 16) := by
  induction payloads generalizing buffer pos n fuel with
  | nil =>
    obtain ⟨fuel, rfl⟩ := Nat.exists_eq_add_one_of_ne_zero (by omega : fuel ≠ 0)
    have hstop : fastReadDataBlock buffer pos 0 (pos + n) = ⟨false, buffer, pos, 0⟩ :=
      fastRead_end (by simpa using hd)
    exact ⟨[], [], rfl, by simp [scanBlocks, hstop], by simp, by simp⟩
  | cons p payloads ih =>
    obtain ⟨fuel, rfl⟩ := Nat.exists_eq_add_one_of_ne_zero (by omega : fuel ≠ 0)
    have hps := hp p List.mem_cons_self
    rw [List.map_cons, List.flatten_cons] at hd
    by_cases hcut : n < p.length + 16
    · have hstop : fastReadDataBlock buffer pos 0 (pos + n) = ⟨false, buffer, pos, 0⟩ :=
        fastRead_cut hps (by rw [Nat.add_sub_cancel_left]; exact hd) (by omega)
      refine ⟨[], p :: payloads, rfl, by simp [scanBlocks, hstop], by simp, ?_⟩
      intro q rest he
      obtain ⟨rfl, _⟩ := List.cons.inj he
      simpa using hcut
    · obtain ⟨m, rfl⟩ := Nat.exists_eq_add_of_le (Nat.not_lt.mp hcut)
      have htake : (frame p ++ (payloads.map frame).flatten).take (p.length + 16 + m) =
          frame p ++ (payloads.map frame).flatten.take m := by
        rw [← frame_length p, List.take_length_add_append]
      have hd1 : buffer.buffer.drop pos = frame p ++ ((payloads.map frame).flatten.take m ++
          (buffer.buffer.drop pos).drop (p.length + 16 + m)) := by
        rw [← List.append_assoc, ← htake, ← hd, List.take_append_drop]
      obtain ⟨buffer', hread, hbuf, hun⟩ :=
        @fastRead_whole buffer _ p pos (pos + (p.length + 16 + m)) 0 hps hd1 (by omega)
      have hd2 : (buffer'.buffer.drop (pos + (p.length + 16))).take m =
          (payloads.map frame).flatten.take m := by
        have hdrop := congrArg (List.drop (p.length + 16)) hd
        rw [List.drop_take, List.drop_take, Nat.add_sub_cancel_left, List.drop_drop,
          List.drop_left' (frame_length p)] at hdrop
        rw [hbuf, hdrop]
      obtain ⟨done, todo, he, hscan, hle, hrest⟩ :=
        @ih buffer' (pos + (p.length + 16)) m fuel (fun q hq => hp q (List.mem_cons_of_mem _ hq)) hd2
          (by omega)
      refine ⟨p :: done, todo, by rw [he]; rfl, ?_, ?_, ?_⟩
      · rw [show pos + (p.length + 16 + m) = pos + (p.length + 16) + m by omega] at hread ⊢
        simp only [scanBlocks, hread, if_true, hscan, hun, List.map_cons, List.flatten_cons,
          List.length_append, frame_length]
        rw [Nat.add_assoc]
      · simp only [List.map_cons, List.flatten_cons, List.length_append, frame_length]
        omega
      · intro q rest hq
        have := hrest q rest hq
        simp only [List.map_cons, List.flatten_cons, List.length_append, frame_length]
        omega

/-- One chunk: the blocks that lie whole in it, and the position behind the last of them. -/
theorem scanRegion_frames {payloads : List Bytes} (before after : Bytes) {chunk : Bytes} {n : Nat}
    (hp : ∀ p ∈ payloads, Scannable p) (hc : chunk = (payloads.map frame).flatten.take n) :
    ∃ done todo, payloads = done ++ todo ∧
      scanRegion (before ++ (chunk ++ after)) before.length (before.length + chunk.length) =
        (done, before.length + (done.map frame).flatten.length) ∧
      (done.map frame).flatten.length ≤ chunk.length ∧
      ∀ p rest, todo = p :: rest →
        chunk.length < (done.map frame).flatten.length + (p.length + 16) := by
  apply scanBlocks_frames hp
  · rw [List.drop_left, List.take_left, hc, List.take_eq_take_min, List.length_take]
    congr 1
    omega
  · omega

/-- Of a region of whole blocks all are found. -/
theorem scanRegion_whole {payloads : List Bytes} (before after : Bytes) {chunk : Bytes}
    (hp : ∀ p ∈ payloads, Scannable p) (hc : chunk = (payloads.map frame).flatten) :
    scanRegion (before ++ (chunk ++ after)) before.length (before.length + chunk.length) =
      (payloads, before.length + chunk.length) := by
  have htake : chunk = (payloads.map frame).flatten.take chunk.length := by
    rw [← hc, List.take_length]
  obtain ⟨done, todo, he, hscan, -, hrest⟩ := scanRegion_frames before after hp htake
  cases todo with
  | nil =>
    rw [List.append_nil] at he
    rw [hscan, ← he, ← hc]
  | cons p rest =>
    have hcut := hrest p rest rfl
    rw [hc, he] at hcut
    simp only [List.map_append, List.map_cons, List.flatten_append, List.flatten_cons,
      List.length_append, frame_length] at hcut
    omega

/-- Chunks that are larger than every block lose none of them. -/
theorem scanChunks_frames {payloads : List Bytes} {file before after : Bytes}
    {chunkSize : Nat → Nat} {offset fuel : Nat} (hp : ∀ p ∈ payloads, Scannable p)
    (hd : file.drop offset = (payloads.map frame).flatten) (ho : offset ≤ file.length)
    (hc : ∀ o, o + chunkSize o < file.length → ∀ p ∈ payloads, p.length + 16 < chunkSize o)
    (hf : file.length - offset < fuel) :
    scanChunks file before after chunkSize fuel offset = payloads := by
  induction fuel generalizing payloads offset with
  | zero => omega
  | succ fuel ih =>
    obtain ⟨done, todo, he, hscan, hle, hrest⟩ :=
      scanRegion_frames before after hp
        (congrArg (List.take (chunkSize offset)) hd)
    have hlen := congrArg List.length hd
    rw [List.length_drop] at hlen
    simp only [scanChunks, hscan]
    rw [List.length_take, List.length_drop] at hle hrest
    by_cases hlast : file.length ≤ offset + chunkSize offset
    · rw [if_pos hlast]
      cases todo with
      | nil => simpa using he.symm
      | cons p rest =>
        have hcut := hrest p rest rfl
        rw [he] at hlen
        simp only [List.map_append, List.map_cons, List.flatten_append, List.flatten_cons,
          List.length_append, frame_length] at hlen
        omega
    · rw [if_neg hlast, Nat.add_sub_cancel_left]
      have hbig := hc offset (by omega)
      have hmore : 0 < (done.map frame).flatten.length := by
        cases done with
        | nil =>
          cases todo with
          | nil =>
            rw [he] at hlen
            simp at hlen
            omega
          | cons p rest =>
            have hcut := hrest p rest rfl
            have hlt := hbig p (he ▸ List.mem_cons_self)
            simp at hcut
            omega
        | cons p done =>
          simp only [List.map_cons, List.flatten_cons, List.length_append, frame_length]
          omega
      have hnext : file.drop (offset + (done.map frame).flatten.length) =
          (todo.map frame).flatten := by
        rw [← List.drop_drop, hd, he, List.map_append, List.flatten_append, List.drop_left]
      rw [@ih todo _ (fun q hq => hp q (he ▸ List.mem_append_right _ hq)) hnext
        (by omega) (fun o h q hq => hc o h q (he ▸ List.mem_append_right _ hq)) (by omega), ← he]

/-- The scanner, over the whole file in one buffer or chunk by chunk, meets the same blocks as
the reader. -/
theorem scan_reads_same_blocks {s : Storage} {payloads : List Bytes} (h : Fresh s)
    (hp : ∀ p ∈ payloads, Scannable p) (before after : Bytes) (chunkSize : Nat → Nat) :
    let file := (s.writeBlocks payloads).2.stream.bytes
    (∀ o, o + chunkSize o < file.length → ∀ p ∈ payloads, (frame p).length < chunkSize o) →
      (reader file).readAll.1 = payloads ∧
        (scanRegion (file ++ after) 0 file.length).1 = payloads ∧
        scanChunks file before after chunkSize (file.length + 1) 0 = payloads := by
  intro file hc
  have hread : ∀ p ∈ payloads, Readable p := fun p hm => Or.inl (hp p hm).2
  have hacc : payloads.filter accepted = payloads := by
    apply List.filter_eq_self.mpr
    intro p hm
    cases ha : accepted p with
    | true => rfl
    | false =>
      have hdvd := (accepted_iff p).mp ha
      have hpos : 0 < p.length := List.length_pos_iff.mpr (hp p hm).1
      have hle := Nat.le_of_dvd hpos hdvd
      have hmax : p.length ≤ 1048576 := (hp p hm).2
      omega
  have hfile : file = (payloads.map frame).flatten := by
    obtain ⟨hb, _⟩ := writeBlocks_layout payloads h.atEnd h.reliable
    rw [h.empty, List.nil_append, blocks_readable hread, hacc] at hb
    exact hb
  refine ⟨?_, ?_, ?_⟩
  · obtain ⟨s', hr, _⟩ := readAll_frames (fun p hm => (hp p hm).2)
    rw [hfile, hr]
  · have hscan := scanRegion_whole [] after hp hfile
    rw [List.nil_append, List.length_nil, Nat.zero_add] at hscan
    rw [hscan]
  · apply scanChunks_frames hp
    · rw [List.drop_zero]
      exact hfile
    · exact Nat.zero_le _
    · intro o ho p hm
      rw [← frame_length p]
      exact hc o ho p hm
    · omega

theorem scan_reads_small_blocks :
    let file := ((reader []).writeBlocks [[1, 2, 3], [4]]).2.stream.bytes
    (reader file).readAll.1 = [[1, 2, 3], [4]] ∧
      (scanRegion (file ++ [0]) 0 file.length).1 = [[1, 2, 3], [4]] ∧
      scanChunks file [] [0] (fun _ => 20) (file.length + 1) 0 = [[1, 2, 3], [4]] := by
  apply scan_reads_same_blocks fresh_empty
  · intro p hp
    simp only [List.mem_cons, List.not_mem_nil, or_false] at hp
    rcases hp with rfl | rfl
    · exact ⟨by decide, by decide⟩
    · exact ⟨by decide, by decide⟩
  · intro o _ p hp
    simp only [List.mem_cons, List.not_mem_nil, or_false] at hp
    rcases hp with rfl | rfl
    · decide
    · decide

end Storage

end Icq.Archive
