import Icq.Archive.Storage

namespace Icq.Archive
open Icq.Lib Icq.Tools

namespace Storage

/-- Write each payload as a block; the results and offsets in order. -/
def writeBlocks (s : Storage) : List Bytes → List (ResultType × Int) × Storage
  | [] => ([], s)
  | p :: payloads =>
    let w := s.writeDataBlock (.ofBytes p)
    let (results, s) := w.storage.writeBlocks payloads
    ((w.result, w.offset) :: results, s)

/-- An empty file opened for writing on a device that keeps every byte. -/
structure Fresh (s : Storage) : Prop where
  empty : s.stream.bytes = []
  atEnd : s.stream.AtEnd
  reliable : s.stream.room = none

/-- The payloads whose write was reported as a success. -/
def written (payloads : List Bytes) (results : List (ResultType × Int)) : List Bytes :=
  ((payloads.zip results).filter (fun w => w.2.1.result)).map Prod.fst

/-- Whoever reads the file finds the payload at the offset. -/
def FoundAt (bytes : Bytes) (offset : Int) (payload : Bytes) : Prop :=
  ∀ (r : Storage) (out : BinaryStream), r.stream.bytes = bytes → r.stream.good = true →
    out.Ordered → out.unread = [] →
      ∃ out' r', r.readDataBlock offset out = (true, out', r') ∧ out'.unread = payload

/-- Each block written with success is found at its offset, and reading from the start meets
just these blocks and then the end of the file. -/
def ReadsBack (s : Storage) (payloads : List Bytes) : Prop :=
  let (results, w) := s.writeBlocks payloads
  (∀ b ∈ payloads.zip results, b.2.1.result = true → FoundAt w.stream.bytes b.2.2 b.1) ∧
    (reader w.stream.bytes).readAll.1 = written payloads results ∧
    (reader w.stream.bytes).readAll.2.lastError = .endOfFile

/-- The sizes a block may have to be read again: the reader's limit, or a multiple of `2 ^ 32`,
which the writer refuses. -/
def Readable (payload : Bytes) : Prop :=
  payload.length ≤ maxDataBlockSize.toNat ∨ 2 ^ 32 ∣ payload.length

theorem foundAt_frame {before after payload : Bytes}
    (hm : payload.length ≤ maxDataBlockSize.toNat) :
    FoundAt (before ++ (frame payload ++ after)) before.length payload := by
  intro r out hb hg ho hu
  rw [readDataBlock_seek out hg]
  obtain ⟨hl, hle⟩ := size_fits hm
  have hd : (FileStream.mk r.stream.bytes before.length r.stream.append r.stream.room r.stream.eof
      r.stream.failed).ahead = frame payload ++ after := by
    simp [FileStream.ahead, hb]
  obtain ⟨out', hr, _, hu'⟩ := readDataBlock_frame
    (s := { r with stream := { r.stream with pos := before.length } }) ho hg hd hl hle
  exact ⟨out', _, hr, by simpa [hu] using hu'⟩

/-- The payloads the writer accepts. -/
def accepted (payload : Bytes) : Bool := UInt32.ofNat payload.length != 0

/-- What a payload leaves in the file. -/
def block (payload : Bytes) : Bytes :=
  let size := UInt32.ofNat payload.length
  if accepted payload then (frameParts size (payload.take size.toNat)).flatten else []

theorem accepted_iff (payload : Bytes) : accepted payload = false ↔ 2 ^ 32 ∣ payload.length := by
  simp only [accepted, bne_eq_false_iff_eq, ← UInt32.toNat_inj, UInt32.toNat_ofNat']
  rw [Nat.dvd_iff_mod_eq_zero]
  rfl

theorem block_readable {payload : Bytes} (h : Readable payload) :
    block payload = if accepted payload then frame payload else [] := by
  cases ha : accepted payload with
  | false => simp [block, ha]
  | true =>
    have hm : payload.length ≤ maxDataBlockSize.toNat := by
      rcases h with h | h
      · exact h
      · rw [← accepted_iff, ha] at h
        cases h
    simp [block, frame, ha, ← (size_fits hm).1]

theorem blocks_readable {payloads : List Bytes} (h : ∀ p ∈ payloads, Readable p) :
    (payloads.map block).flatten = ((payloads.filter accepted).map frame).flatten := by
  induction payloads with
  | nil => rfl
  | cons p payloads ih =>
    have ih := ih (fun q hq => h q (List.mem_cons_of_mem _ hq))
    rw [List.map_cons, List.flatten_cons, ih, block_readable (h p List.mem_cons_self)]
    cases ha : accepted p <;> simp [ha]

/-- One block write on a reliable device. -/
theorem writeDataBlock_block {s : Storage} (p : Bytes) (h : s.stream.AtEnd)
    (hr : s.stream.room = none) :
    let w := s.writeDataBlock (.ofBytes p)
    w.storage.stream.AtEnd ∧ w.storage.stream.room = none ∧
      w.storage.stream.bytes = s.stream.bytes ++ block p ∧ w.result.result = accepted p ∧
      w.offset = s.stream.bytes.length := by
  obtain ⟨hok, hoff⟩ := writeDataBlock_cases h (BinaryStream.ordered_ofBytes p)
  obtain ⟨hroom, hrefuse, haccept⟩ :=
    writeDataBlock_reliable (BinaryStream.ofBytes p) h hr
  rw [BinaryStream.available_ofBytes] at hrefuse haccept
  rw [BinaryStream.unread_ofBytes] at hok
  by_cases hz : UInt32.ofNat p.length = 0
  · obtain ⟨hres, hst⟩ := hrefuse hz
    have ha : accepted p = false := by simp [accepted, hz]
    refine ⟨by rw [hst]; exact h, hroom, ?_, hres.trans ha.symm, hoff⟩
    simp [hst, block, ha]
  · obtain ⟨_, hend, hbytes⟩ := hok (haccept hz)
    have ha : accepted p = true := by simp [accepted, hz]
    refine ⟨hend, hroom, ?_, (haccept hz).trans ha.symm, hoff⟩
    simp [hbytes, block, ha]

/-- A run of block writes on a reliable device: where every block lies. -/
theorem writeBlocks_layout {s : Storage} (payloads : List Bytes) (h : s.stream.AtEnd)
    (hr : s.stream.room = none) :
    let (results, w) := s.writeBlocks payloads
    w.stream.bytes = s.stream.bytes ++ (payloads.map block).flatten ∧
      results.length = payloads.length ∧
      ∀ b ∈ payloads.zip results, b.2.1.result = accepted b.1 ∧
        ∃ pre post, payloads = pre ++ b.1 :: post ∧
          b.2.2 = (s.stream.bytes ++ (pre.map block).flatten).length := by
  induction payloads generalizing s with
  | nil => simp [writeBlocks]
  | cons p payloads ih =>
    obtain ⟨hend, hroom, hbytes, hres, hoff⟩ := writeDataBlock_block p h hr
    obtain ⟨hb, hl, hz⟩ := ih hend hroom
    simp only [writeBlocks]
    refine ⟨?_, by simp [hl], ?_⟩
    · rw [hb, hbytes]
      simp
    · intro b hm
      rw [List.zip_cons_cons] at hm
      rcases List.mem_cons.mp hm with rfl | hm
      · exact ⟨hres, [], payloads, rfl, by simpa using hoff⟩
      · obtain ⟨hok, pre, post, he, ho⟩ := hz b hm
        refine ⟨hok, p :: pre, post, by rw [he]; rfl, ?_⟩
        rw [ho, hbytes]
        simp

theorem written_eq {payloads : List Bytes} {results : List (ResultType × Int)}
    (hl : results.length = payloads.length)
    (h : ∀ b ∈ payloads.zip results, b.2.1.result = accepted b.1) :
    written payloads results = payloads.filter accepted := by
  have hfst : (payloads.zip results).map Prod.fst = payloads := by
    rw [List.map_fst_zip (by omega)]
  rw [written, List.filter_congr h]
  conv_rhs => rw [← hfst, List.filter_map]
  rfl

/-- Readable sizes are enough. -/
theorem readsBack_of_readable {s : Storage} {payloads : List Bytes} (h : Fresh s)
    (hp : ∀ p ∈ payloads, Readable p) : ReadsBack s payloads := by
  obtain ⟨hb, hl, hz⟩ := writeBlocks_layout payloads h.atEnd h.reliable
  rw [h.empty, List.nil_append] at hb
  have hw := written_eq hl (fun b hm => (hz b hm).1)
  have hall : ∀ p ∈ payloads.filter accepted, p.length ≤ maxDataBlockSize.toNat := by
    intro p hm
    obtain ⟨hm, ha⟩ := List.mem_filter.mp hm
    rcases hp p hm with hle | hdvd
    · exact hle
    · rw [← accepted_iff, ha] at hdvd
      cases hdvd
  unfold ReadsBack
  simp only [hb, hw]
  refine ⟨?_, ?_⟩
  · intro b hm hok
    obtain ⟨hacc, pre, post, he, ho⟩ := hz b hm
    have ha : accepted b.1 = true := hacc ▸ hok
    have hmem : b.1 ∈ payloads := he ▸ List.mem_append_right _ List.mem_cons_self
    rw [h.empty, List.nil_append] at ho
    have hblock : block b.1 = frame b.1 := by rw [block_readable (hp _ hmem), if_pos ha]
    have hsplit : (payloads.map block).flatten =
        (pre.map block).flatten ++ (frame b.1 ++ (post.map block).flatten) := by
      rw [he]
      simp [hblock]
    rw [hsplit, ho]
    exact foundAt_frame (hall _ (List.mem_filter.mpr ⟨hmem, ha⟩))
  · obtain ⟨s', hread, hend⟩ := readAll_frames hall
    rw [blocks_readable hp, hread]
    exact ⟨rfl, hend⟩

/-- A block whose size is above the limit is refused. -/
theorem readDataBlock_big {s : Storage} (data : BinaryStream) {size : UInt32} {rest : Bytes}
    (hg : s.stream.good = true)
    (hd : s.stream.ahead = Scalar.encode size ++ (Scalar.encode size ++ rest))
    (hm : maxDataBlockSize < size) : (s.readDataBlock (-1) data).1 = false := by
  have hne : s.stream.ahead ≠ [] := by
    intro hnil
    have hlen := congrArg List.length (hnil.symm.trans hd)
    rw [List.length_append, length_size] at hlen
    simp at hlen
    omega
  obtain ⟨b, hpeek⟩ := FileStream.peek_good hg hne
  obtain ⟨h1, hd2⟩ := readSize_good hg hd
  obtain ⟨h2, _⟩ := readSize_good (f := s.stream.advance 4) hg hd2
  have hoff : ((-1 : Int) != -1) = false := rfl
  simp only [readDataBlock, hoff, hpeek, h1, h2, hm, decide_true, Bool.or_true, if_true,
    Bool.false_eq_true, if_false]

/-- A payload of any other size is lost: cut to its low 32 bits, or refused when read. -/
theorem not_foundAt {before after p : Bytes} (ha : accepted p = true) (hn : ¬ Readable p) :
    ¬ FoundAt (before ++ (block p ++ after)) before.length p := by
  intro hfound
  let bytes := before ++ (block p ++ after)
  obtain ⟨out', r', hread, hu⟩ := hfound (reader bytes) {} rfl rfl BinaryStream.Ordered.empty rfl
  rw [readDataBlock_seek (s := reader bytes) _ rfl] at hread
  let s : Storage := { stream := { bytes, pos := before.length } }
  have hread : s.readDataBlock (-1) {} = (true, out', r') := hread
  have hahead : s.stream.ahead =
      (frameParts (UInt32.ofNat p.length) (p.take (UInt32.ofNat p.length).toNat)).flatten ++
        after := by
    simp [s, bytes, FileStream.ahead, block, ha]
  have hle : (UInt32.ofNat p.length).toNat ≤ p.length := by
    rw [UInt32.toNat_ofNat']
    exact Nat.mod_le _ _
  by_cases hm : UInt32.ofNat p.length ≤ maxDataBlockSize
  · obtain ⟨out'', hread', _, hu'⟩ := readDataBlock_frame (s := s) BinaryStream.Ordered.empty rfl
      hahead (by rw [List.length_take, Nat.min_eq_left hle]) hm
    obtain rfl : out'' = out' := congrArg (fun x => x.2.1) (hread'.symm.trans hread)
    have hcut : p.take (UInt32.ofNat p.length).toNat = p := by
      rw [hu] at hu'
      simpa [BinaryStream.unread] using hu'.symm
    have hlen := congrArg List.length hcut
    rw [List.length_take, Nat.min_eq_left hle] at hlen
    exact hn (Or.inl (hlen ▸ UInt32.le_iff_toNat_le.mp hm))
  · have hbig := @readDataBlock_big s {} (UInt32.ofNat p.length) _ rfl
      (by rw [hahead]; simp only [frameParts, List.flatten_cons, List.append_assoc]; rfl)
      (UInt32.not_le.mp hm)
    rw [hread] at hbig
    cases hbig

theorem not_readsBack {s : Storage} {payloads : List Bytes} {p : Bytes} (h : Fresh s)
    (hp : p ∈ payloads) (hn : ¬ Readable p) : ¬ ReadsBack s payloads := by
  obtain ⟨hb, hl, hz⟩ := writeBlocks_layout payloads h.atEnd h.reliable
  rw [h.empty, List.nil_append] at hb
  rintro ⟨hfound, _⟩
  have ha : accepted p = true := by
    cases ha : accepted p with
    | true => rfl
    | false => exact absurd (Or.inr ((accepted_iff p).mp ha)) hn
  have hfst : (payloads.zip (s.writeBlocks payloads).1).map Prod.fst = payloads := by
    rw [List.map_fst_zip (by omega)]
  rw [← hfst] at hp
  obtain ⟨b, hm, rfl⟩ := List.mem_map.mp hp
  obtain ⟨hacc, pre, post, he, ho⟩ := hz b hm
  rw [h.empty, List.nil_append] at ho
  have hfound := hfound b hm (hacc.trans ha)
  have hsplit : (payloads.map block).flatten =
      (pre.map block).flatten ++ (block b.1 ++ (post.map block).flatten) := by
    rw [he]
    simp
  rw [hb, ho, hsplit] at hfound
  exact not_foundAt ha hn hfound

/-- Blocks can be read back exactly when each size is one of the readable ones. -/
theorem readsBack_iff {s : Storage} (h : Fresh s) (payloads : List Bytes) :
    ReadsBack s payloads ↔ ∀ p ∈ payloads, Readable p := by
  constructor
  · intro hback p hp
    by_contra hn
    exact not_readsBack h hp hn hback
  · exact readsBack_of_readable h

theorem fresh_empty : Fresh (reader []) := ⟨rfl, ⟨rfl, rfl⟩, rfl⟩

theorem readsBack_small : ReadsBack (reader []) [[1, 2, 3], [], [4]] := by
  apply (readsBack_iff fresh_empty _).mpr
  intro p hp
  simp only [List.mem_cons, List.not_mem_nil, or_false] at hp
  rcases hp with rfl | rfl | rfl
  · exact Or.inl (by decide)
  · exact Or.inl (by decide)
  · exact Or.inl (by decide)

/-- One byte over the reader's limit is written with success and never read again. -/
theorem readsBack_fails_over_limit :
    ¬ ReadsBack (reader []) [List.replicate (1024 * 1024 + 1) 0] := by
  refine not_readsBack fresh_empty List.mem_cons_self ?_
  rw [Readable, List.length_replicate]
  decide

end Storage

end Icq.Archive
