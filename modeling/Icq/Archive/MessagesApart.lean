import Icq.Archive.MessageRoundTrip
import Icq.Archive.MessagesData
import Icq.Tools.TlvPack

/-! Whether what is read for a header depends on the headers in front of it. -/

namespace Icq.Archive
open Icq.Lib Icq.Tools

/-- What reading a block at a place comes to: whether all of it is there and its sizes agree, what
goes to the buffer, and where the file stands then, unless its end was met. -/
structure BlockRead where
  whole : Bool := false
  payload : Bytes := []
  stop : Option Nat := none

def blockAt (file : Bytes) (place : Nat) : BlockRead :=
  let ahead := file.drop place
  let size := Storage.sizeAt ahead 0
  if ahead.length < 8 then {}
  else if Storage.sizeAt ahead 4 ≠ size ∨ maxDataBlockSize < size then { stop := some (place + 8) }
  else if ahead.length < size.toNat + 16 then {}
  else
    { whole := decide (Storage.sizeAt ahead (8 + size.toNat) = size ∧
        Storage.sizeAt ahead (12 + size.toNat) = size)
      payload := (ahead.drop 8).take size.toNat
      stop := some (place + size.toNat + 16) }

/-- Reading at an offset; the offset -1 is where the file stands. -/
def readAt (file : Bytes) (stands : Option Nat) (offset : Int) : BlockRead :=
  match stands with
  | none => {}
  | some place =>
    if offset = -1 then blockAt file place
    else if offset < 0 then {}
    else blockAt file offset.toNat

theorem readAt_stands {file : Bytes} {st : Option Nat} {offset : Int}
    (h : (readAt file st offset).stop ≠ none) : st ≠ none := by
  rintro rfl
  exact h rfl

theorem readAt_stop {file : Bytes} {st : Option Nat} {offset : Int}
    (h : (readAt file st offset).whole = true) : (readAt file st offset).stop ≠ none := by
  have hblock : ∀ place, (blockAt file place).whole = true → (blockAt file place).stop ≠ none := by
    intro place hwhole
    unfold blockAt at hwhole ⊢
    simp only at hwhole ⊢
    split at hwhole
    · cases hwhole
    · split at hwhole
      · cases hwhole
      · split at hwhole
        · cases hwhole
        · rename_i h8 hbad hcut
          rw [if_neg h8, if_neg hbad, if_neg hcut]
          exact Option.some_ne_none _
  cases st with
  | none => cases h
  | some place =>
    unfold readAt at h ⊢
    simp only at h ⊢
    split
    · rename_i hoff
      rw [if_pos hoff] at h
      exact hblock place h
    · rename_i hoff
      rw [if_neg hoff] at h
      split
      · rename_i hneg
        rw [if_pos hneg] at h
        cases h
      · rename_i hneg
        rw [if_neg hneg] at h
        exact hblock _ h

/-- An open file stands at a place of it, or it does nothing more. -/
inductive Stands (file : Bytes) : Option Nat → FileStream → Prop where
  | good {f : FileStream} : f.bytes = file → f.good = true → Stands file (some f.pos) f
  | marked {f : FileStream} : f.good = false → Stands file none f

theorem Stands.advance {f : FileStream} {n place : Nat} (hg : f.good = true) (h : place = f.pos + n) :
    Stands f.bytes (some place) (f.advance n) := by
  subst h
  exact .good (f := f.advance n) rfl hg

namespace Storage

variable {f : FileStream} {s : Storage} {data : BinaryStream}

theorem ahead_advance (f : FileStream) (n : Nat) : (f.advance n).ahead = f.ahead.drop n := by
  simp [FileStream.ahead, FileStream.advance, List.drop_drop]

theorem read_short {n : Nat} (hg : f.good = true) (h : f.ahead.length < n) :
    (f.read n).2.good = false := by
  have ht : ((f.bytes.drop f.pos).take n).length < n := by
    rw [List.length_take]
    exact lt_of_le_of_lt (Nat.min_le_right _ _) h
  simp only [FileStream.read, hg, Bool.not_true, Bool.false_eq_true, if_false, if_pos ht]
  rfl

theorem readSize_short (hg : f.good = true) (h : f.ahead.length < 4) :
    ∃ f', readSize f = (none, f') ∧ f'.good = false := by
  have hread := read_short hg h
  exact ⟨(f.read 4).2, by simp only [readSize, hread, Bool.false_eq_true, if_false], hread⟩

/-- The size ahead, behind so many bytes. -/
theorem readSize_ahead {n : Nat} (hg : f.good = true) (h : n + 4 ≤ f.ahead.length) :
    readSize (f.advance n) = (some (sizeAt f.ahead n), f.advance (n + 4)) := by
  have hlen : 4 ≤ (f.ahead.drop n).length := by
    rw [List.length_drop]
    omega
  have hd : (f.advance n).ahead = Scalar.encode (sizeAt f.ahead n) ++ (f.ahead.drop n).drop 4 := by
    rw [ahead_advance, sizeAt, Scalar.encode_decode (show Scalar.width UInt32 ≤ _ from hlen)]
    exact (List.take_append_drop 4 _).symm
  rw [← FileStream.advance_advance]
  exact (readSize_good (f := f.advance n) hg hd).1

theorem readDataBlock_marked (offset : Int) (h : s.stream.good = false) :
    ∃ s', s.readDataBlock offset data = (false, data, s') ∧ s'.stream.good = false := by
  have hseek : (if offset != -1 then s.stream.seekp offset else s.stream) = s.stream := by
    split
    · rw [FileStream.seekp, h]
      rfl
    · rfl
  refine ⟨{ s with stream := s.stream.fail, lastError := .endOfFile }, ?_, ?_⟩
  · simp only [readDataBlock, hseek, FileStream.peek, h, Bool.not_false, if_true]
  · simp [FileStream.good, FileStream.fail]

/-- A size that is cut off ends reading. -/
theorem readSize_cut {n : Nat} (hg : f.good = true) (h : f.ahead.length < n + 4) (hn : n ≤ f.ahead.length) :
    ∃ f', readSize (f.advance n) = (none, f') ∧ f'.good = false := by
  refine readSize_short hg ?_
  rw [ahead_advance, List.length_drop]
  omega

/-- Nothing more is read from a stream that has met its end in a payload. -/
theorem readPayload_short {size : UInt32} (hg : f.good = true) (h : f.ahead.length < size.toNat) :
    (readPayload f data size).2.good = false := by
  have hne : size ≠ 0 := by
    rintro rfl
    exact absurd h (by simp)
  rw [readPayload, if_pos (bne_iff_ne.mpr hne)]
  exact read_short hg h

/-- What reading at a place comes to: where the file stands then, and what the buffer holds. -/
def ReadsAs (file : Bytes) (data : BinaryStream) (r : BlockRead) (got : Bool × BinaryStream × Storage) :
    Prop :=
  got.1 = r.whole ∧ Stands file r.stop got.2.2.stream ∧
    (r.stop ≠ none → got.2.1.Ordered ∧ got.2.1.unread = data.unread ++ r.payload)

theorem ReadsAs.marked {file : Bytes} {data' : BinaryStream} (h : s.stream.good = false) :
    ReadsAs file data {} (false, data', s) := ⟨rfl, .marked h, fun hne => absurd rfl hne⟩

theorem readDataBlock_here (hg : s.stream.good = true) (ho : data.Ordered) :
    ReadsAs s.stream.bytes data (blockAt s.stream.bytes s.stream.pos) (s.readDataBlock (-1) data) := by
  obtain ⟨f, err, sys⟩ := s
  simp only at hg ⊢
  have hoff : ((-1 : Int) != -1) = false := rfl
  have hahead : f.bytes.drop f.pos = f.ahead := rfl
  simp only [blockAt, hahead, readDataBlock, hoff, Bool.false_eq_true, if_false]
  by_cases hnil : f.ahead = []
  · rw [FileStream.peek_end hg hnil, hnil, if_pos (by decide)]
    exact .marked (by simp [FileStream.good])
  obtain ⟨b, hpeek⟩ := FileStream.peek_good hg hnil
  simp only [hpeek]
  have hzero : f.advance 0 = f := rfl
  by_cases h4 : f.ahead.length < 4
  · obtain ⟨f', hread, hf'⟩ := readSize_short hg h4
    rw [hread, if_pos (by omega)]
    exact .marked hf'
  rw [← hzero, readSize_ahead hg (by omega), hzero]
  simp only [Nat.zero_add]
  by_cases h8 : f.ahead.length < 8
  · obtain ⟨f', hread, hf'⟩ := readSize_cut hg h8 (by omega)
    rw [hread, if_pos h8]
    exact .marked hf'
  rw [readSize_ahead hg (by omega), if_neg h8]
  simp only
  generalize hsize : sizeAt f.ahead 0 = size
  by_cases hbad : sizeAt f.ahead 4 ≠ size ∨ maxDataBlockSize < size
  · have hcheck : (size != sizeAt f.ahead 4 || decide (maxDataBlockSize < size)) = true := by
      rcases hbad with h | h
      · simp [bne_iff_ne.mpr (Ne.symm h)]
      · simp [h]
    rw [if_pos hcheck, if_pos hbad]
    exact ⟨rfl, .advance hg rfl, fun _ => ⟨ho, by simp⟩⟩
  have hcheck : ¬ (size != sizeAt f.ahead 4 || decide (maxDataBlockSize < size)) = true := by
    obtain ⟨h, hmax⟩ := not_or.mp hbad
    simp [not_not.mp h, hmax]
  rw [if_neg hcheck, if_neg hbad]
  by_cases hcut : f.ahead.length < size.toNat + 8
  · have hshort : (f.advance (4 + 4)).ahead.length < size.toNat := by
      rw [ahead_advance, List.length_drop]
      omega
    have hmark : (readPayload (f.advance (4 + 4)) data size).2.good = false :=
      readPayload_short hg hshort
    rw [if_pos (by omega), hmark]
    exact .marked hmark
  have hpayload : (f.advance (4 + 4)).ahead = (f.ahead.drop 8).take size.toNat ++
      (f.ahead.drop 8).drop size.toNat := by
    rw [ahead_advance, List.take_append_drop]
  have hlen : ((f.ahead.drop 8).take size.toNat).length = size.toNat := by
    rw [List.length_take, List.length_drop]
    omega
  obtain ⟨data', hp, ho', hu⟩ := readPayload_good (f := f.advance (4 + 4)) ho hg hpayload hlen
  simp only [hp, FileStream.advance_advance, FileStream.good_advance, hg, Bool.not_true,
    Bool.false_eq_true, if_false]
  by_cases h12 : f.ahead.length < size.toNat + 12
  · obtain ⟨f', hread, hf'⟩ := readSize_cut (n := 4 + 4 + size.toNat) hg (by omega) (by omega)
    rw [hread, if_pos (by omega)]
    exact .marked hf'
  rw [readSize_ahead hg (by omega)]
  simp only
  by_cases h16 : f.ahead.length < size.toNat + 16
  · obtain ⟨f', hread, hf'⟩ := readSize_cut (n := 4 + 4 + size.toNat + 4) hg (by omega) (by omega)
    rw [hread, if_pos h16]
    exact .marked hf'
  rw [readSize_ahead hg (by omega), if_neg h16]
  refine ⟨?_, .advance hg (by omega), fun _ => ⟨ho', hu⟩⟩
  rw [show 4 + 4 + size.toNat = 8 + size.toNat by omega,
    show 8 + size.toNat + 4 = 12 + size.toNat by omega]
  change (!(size != sizeAt f.ahead (8 + size.toNat) || size != sizeAt f.ahead (12 + size.toNat))) = _
  rw [Bool.eq_iff_iff, Bool.not_eq_true', Bool.or_eq_false_iff, bne_eq_false_iff_eq,
    bne_eq_false_iff_eq, decide_eq_true_iff]
  exact and_congr eq_comm eq_comm

theorem readDataBlock_at {file : Bytes} {st : Option Nat} (offset : Int)
    (hs : Stands file st s.stream) (ho : st ≠ none → data.Ordered) :
    ReadsAs file data (readAt file st offset) (s.readDataBlock offset data) := by
  cases hs with
  | marked hm =>
    obtain ⟨s', hread, hs'⟩ : ∃ s', s.readDataBlock offset data = (false, data, s') ∧ _ :=
      readDataBlock_marked offset hm
    rw [hread]
    exact .marked hs'
  | good hfile hg =>
    subst hfile
    rw [readAt]
    split
    · rename_i hoff
      rw [hoff]
      exact readDataBlock_here hg (ho (by simp))
    · rename_i hoff
      have hseek : (if offset != -1 then s.stream.seekp offset else s.stream) =
          s.stream.seekp offset := if_pos (bne_iff_ne.mpr hoff)
      split
      · rename_i hneg
        have hfail : s.stream.seekp offset = s.stream.fail := by
          simp only [FileStream.seekp, hg, Bool.not_true, Bool.false_eq_true, if_false, if_pos hneg]
        have hmark : s.stream.fail.good = false := by simp [FileStream.good, FileStream.fail]
        have hpeek : s.stream.fail.peek = (none, s.stream.fail) := by
          rw [FileStream.peek, hmark]
          rfl
        have hread : s.readDataBlock offset data =
            (false, data, { s with stream := s.stream.fail, lastError := .endOfFile }) := by
          simp only [readDataBlock, hseek.trans hfail, hpeek]
        rw [hread]
        exact .marked (s := { s with stream := s.stream.fail, lastError := .endOfFile }) hmark
      · rename_i hneg
        obtain ⟨place, rfl⟩ := Int.eq_ofNat_of_zero_le (Int.not_lt.mp hneg)
        rw [readDataBlock_seek data hg]
        exact readDataBlock_here (s := { s with stream := { s.stream with pos := place } }) hg
          (ho (by simp))

end Storage

namespace MessagesData

variable (w : Surroundings) (file : Bytes)

/-- The modifications that are read where the file stands, and where it stands then. What a reader
left in the buffer comes in front of the next block. -/
def modificationsAt : Option Nat → Bytes → List MessageHeader →
    Outcome (List HistoryMessage × Option Nat)
  | st, _, [] => .ok ([], st)
  | st, left, header :: rest =>
    let r := readAt file st header.dataOffset.toInt
    let data := left ++ r.payload
    if !r.whole then modificationsAt r.stop data rest
    else
      let left := (TlvPack.unserialize data).left
      match HistoryMessage.unserialize w data with
      | .crashed => .crashed
      | .refused => modificationsAt r.stop left rest
      | .ok modification =>
        if modification.msgid ≠ header.id then modificationsAt r.stop left rest
        else do
          let (modifications, st) ← modificationsAt r.stop left rest
          pure (modification :: modifications, st)

def messageModificationsAt (st : Option Nat) (header : MessageHeader) :
    Outcome (List HistoryMessage × Option Nat) :=
  if !header.isModified && !header.isUpdated then .ok ([], st)
  else modificationsAt w file st [] header.modifications

/-- What is read for a header where the file stands, and where it stands then. -/
def messageAt (st : Option Nat) (header : MessageHeader) : Outcome (Fetched × Option Nat) :=
  let r := readAt file st header.dataOffset.toInt
  if !r.whole then .ok (.fake 1 header, r.stop)
  else
    match HistoryMessage.unserialize w r.payload with
    | .crashed => .crashed
    | .refused => .ok (.fake 2 header, r.stop)
    | .ok message =>
      if message.msgid ≠ header.id then .ok (.fake 3 header, r.stop)
      else do
        let (modifications, st) ← messageModificationsAt w file r.stop header
        pure ({ message := (message.applyHeaderFlags header).applyModifications modifications }, st)

def messagesAt : Option Nat → List MessageHeader → Outcome (List Fetched × Option Nat)
  | st, [] => .ok ([], st)
  | st, header :: rest => do
    let (fetched, st) ← messageAt w file st header
    let (others, st) ← messagesAt st rest
    pure (fetched :: others, st)

variable {w file}

/-- The code reads what is said here, and its file stands where it is said. -/
inductive Follows {α σ : Type} (file : Bytes) (stream : σ → FileStream) :
    Outcome (α × σ) → Outcome (α × Option Nat) → Prop where
  | ok {a : α} {s : σ} {st : Option Nat} : Stands file st (stream s) →
      Follows file stream (.ok (a, s)) (.ok (a, st))
  | refused : Follows file stream .refused .refused
  | crashed : Follows file stream .crashed .crashed

theorem Follows.bind {α β σ τ : Type} {stream : σ → FileStream} {stream' : τ → FileStream}
    {x : Outcome (α × σ)} {y : Outcome (α × Option Nat)} (h : Follows file stream x y)
    {f : α × σ → Outcome (β × τ)} {g : α × Option Nat → Outcome (β × Option Nat)}
    (hfg : ∀ {a s st}, Stands file st (stream s) → Follows file stream' (f (a, s)) (g (a, st))) :
    Follows file stream' (x >>= f) (y >>= g) := by
  cases h with
  | ok h => exact hfg h
  | refused => exact .refused
  | crashed => exact .crashed

theorem drained_unread {data : BinaryStream} (h : data.Ordered) : (drained data).Ordered ∧
    (drained data).unread = (TlvPack.unserialize data.unread).left := by
  have hsuffix := (TlvPack.reads_unserialize data.unread).left_suffix
  have hlen := hsuffix.length_le
  have hin := h.in_le
  rw [h.length_unread, BinaryStream.available] at hlen
  have hend : (TlvPack.unserialize data.unread).left <:+ data.buffer.take data.inputCursor :=
    hsuffix.trans (List.drop_suffix _ _)
  refine ⟨⟨Nat.sub_le _ _, hin⟩, ?_⟩
  have hdrop := List.suffix_iff_eq_drop.mp hend
  rw [List.length_take_of_le hin] at hdrop
  exact hdrop.symm

theorem readModifications_follows {s : Storage} {data : BinaryStream} {st : Option Nat}
    {left : Bytes} {headers : List MessageHeader} (hs : Stands file st s.stream)
    (hd : st ≠ none → data.Ordered ∧ data.unread = left) :
    Follows file Storage.stream (readModifications w s data headers)
      (modificationsAt w file st left headers) := by
  induction headers generalizing s data st left with
  | nil => exact .ok hs
  | cons header rest ih =>
    have hread := Storage.readDataBlock_at header.dataOffset.toInt hs fun h => (hd h).1
    unfold readModifications modificationsAt
    simp only
    generalize s.readDataBlock header.dataOffset.toInt data = got at hread ⊢
    obtain ⟨ok, data', s'⟩ := got
    obtain ⟨rfl, hstands, hdata⟩ := hread
    have hunread : (readAt file st header.dataOffset.toInt).stop ≠ none → data'.Ordered ∧
        data'.unread = left ++ (readAt file st header.dataOffset.toInt).payload := by
      intro hne
      obtain ⟨ho, hu⟩ := hdata hne
      exact ⟨ho, by rw [hu, (hd (readAt_stands hne)).2]⟩
    cases hwhole : (readAt file st header.dataOffset.toInt).whole with
    | false => exact ih hstands hunread
    | true =>
      obtain ⟨ho, hu⟩ := hunread (readAt_stop hwhole)
      obtain ⟨hdo, hdu⟩ := drained_unread ho
      rw [hu] at hdu
      have hnext := ih hstands fun _ => ⟨hdo, hdu⟩
      simp only [hu]
      cases HistoryMessage.unserialize w
        (left ++ (readAt file st header.dataOffset.toInt).payload) with
      | crashed => exact .crashed
      | refused => exact hnext
      | ok modification =>
        by_cases hid : modification.msgid ≠ header.id
        · simp only [if_pos hid]
          exact hnext
        · simp only [if_neg hid]
          exact hnext.bind fun h => .ok h

theorem modifications_follows {s : Storage} {st : Option Nat} {header : MessageHeader}
    (hs : Stands file st s.stream) :
    Follows file Storage.stream (getMessageModifications w s header)
      (messageModificationsAt w file st header) := by
  unfold getMessageModifications messageModificationsAt
  split
  · exact .ok hs
  · exact readModifications_follows hs fun _ => ⟨.empty, rfl⟩

theorem readMessage_follows {s : Storage} {data : BinaryStream} {st : Option Nat}
    {header : MessageHeader} (hs : Stands file st s.stream) :
    Follows file (fun r : BinaryStream × Storage => r.2.stream) (readMessage w s data header)
      (messageAt w file st header) := by
  have hread := Storage.readDataBlock_at header.dataOffset.toInt hs
    fun _ => BinaryStream.Ordered.reset data
  unfold readMessage messageAt
  simp only
  generalize s.readDataBlock header.dataOffset.toInt data.reset = got at hread ⊢
  obtain ⟨ok, data', s'⟩ := got
  obtain ⟨rfl, hstands, hdata⟩ := hread
  cases hwhole : (readAt file st header.dataOffset.toInt).whole with
  | false => exact .ok hstands
  | true =>
    obtain ⟨-, hu⟩ := hdata (readAt_stop hwhole)
    rw [BinaryStream.unread_reset, List.nil_append] at hu
    simp only [hu]
    cases HistoryMessage.unserialize w (readAt file st header.dataOffset.toInt).payload with
    | crashed => exact .crashed
    | refused => exact .ok hstands
    | ok message =>
      by_cases hid : message.msgid ≠ header.id
      · simp only [if_pos hid]
        exact .ok hstands
      · simp only [if_neg hid]
        exact (modifications_follows hstands).bind fun h => .ok h

theorem readMessages_follows {s : Storage} {data : BinaryStream} {st : Option Nat}
    {headers : List MessageHeader} (hs : Stands file st s.stream) :
    Follows file Storage.stream (readMessages w s data headers) (messagesAt w file st headers) := by
  induction headers generalizing s data st with
  | nil => exact .ok hs
  | cons header rest ih =>
    exact (readMessage_follows hs).bind fun h => (ih h).bind fun h' => .ok h'

/-- What is read for headers is what is read from the start of the file on. -/
theorem fetch_eq (headers : List MessageHeader) :
    fetch w file headers =
      (do let (fetched, _) ← messagesAt w file (some 0) headers; pure fetched) := by
  let f : FileStream := { bytes := file, append := true }
  have hs : Stands file (some 0) f := .good (f := f) rfl rfl
  have h : Follows file Storage.stream (readMessages w { stream := f } {} headers)
      (messagesAt w file (some 0) headers) := readMessages_follows hs
  rw [fetch]
  change (readMessages w { stream := f } {} headers >>= _) = _
  generalize readMessages w { stream := f } {} headers = x at h ⊢
  generalize messagesAt w file (some 0) headers = y at h ⊢
  cases h <;> rfl

variable (w file)

/-- The block of a header is a message of its id. -/
def readable (st : Option Nat) (header : MessageHeader) : Bool :=
  let r := readAt file st header.dataOffset.toInt
  r.whole &&
    match HistoryMessage.unserialize w r.payload with
    | .ok message => message.msgid == header.id
    | _ => false

/-- The blocks that are read for a header: its own, and those of its modifications. -/
def blocksOf (st : Option Nat) (header : MessageHeader) : List MessageHeader :=
  header ::
    if readable w file st header && (header.isModified || header.isUpdated) then header.modifications
    else []

/-- Where a file stands behind blocks. -/
def behindBlocks (st : Option Nat) (blocks : List MessageHeader) : Option Nat :=
  blocks.foldl (fun st header => (readAt file st header.dataOffset.toInt).stop) st

/-- Where the file stands behind headers, unless its end was met. -/
def behind (st : Option Nat) (headers : List MessageHeader) : Option Nat :=
  headers.foldl (fun st header => behindBlocks file st (blocksOf w file st header)) st

/-- Each header gets what it gets alone. -/
def Apart (headers : List MessageHeader) (fetched : List Fetched) : Prop :=
  ∀ (i : Nat) header, headers[i]? = some header → ∃ f, fetched[i]? = some f ∧ fetch w file [header] = .ok [f]

/-- No block that is read in front of a header goes over the end of the file, unless the header's
own block is not whole either. A header without an offset gets the same where the file stands as at
its start. -/
def Undisturbed (headers : List MessageHeader) : Prop :=
  ∀ before header after, headers = before ++ header :: after →
    match behind w file (some 0) before with
    | none => (readAt file (some 0) header.dataOffset.toInt).whole = false
    | some place => header.dataOffset.toInt ≠ -1 ∨ ∃ f st st',
        messageAt w file (some place) header = .ok (f, st) ∧
          messageAt w file (some 0) header = .ok (f, st')

variable {w file}

theorem modificationsAt_stop {st st' : Option Nat} {left : Bytes} {headers : List MessageHeader}
    {ms : List HistoryMessage} (h : modificationsAt w file st left headers = .ok (ms, st')) :
    st' = behindBlocks file st headers := by
  induction headers generalizing st left ms with
  | nil =>
    cases h
    rfl
  | cons header rest ih =>
    unfold modificationsAt at h
    simp only at h
    split at h
    · exact ih h
    · split at h
      · cases h
      · exact ih h
      · split at h
        · exact ih h
        · obtain ⟨r, hr, he⟩ := Outcome.bind_eq_ok h
          cases he
          exact ih hr

theorem behindBlocks_unread {st : Option Nat} {header : MessageHeader}
    (h : readable w file st header = false) : behindBlocks file st (blocksOf w file st header) =
      (readAt file st header.dataOffset.toInt).stop := by
  rw [blocksOf, h]
  rfl

theorem behindBlocks_read {st : Option Nat} {header : MessageHeader}
    (h : readable w file st header = true) : behindBlocks file st (blocksOf w file st header) =
      if !header.isModified && !header.isUpdated then (readAt file st header.dataOffset.toInt).stop
      else behindBlocks file (readAt file st header.dataOffset.toInt).stop header.modifications := by
  rw [blocksOf, h]
  cases header.isModified <;> cases header.isUpdated <;> rfl

theorem messageModificationsAt_stop {st st' : Option Nat} {header : MessageHeader}
    {ms : List HistoryMessage} (h : messageModificationsAt w file st header = .ok (ms, st')) :
    st' = if !header.isModified && !header.isUpdated then st
      else behindBlocks file st header.modifications := by
  unfold messageModificationsAt at h
  split at h
  · rename_i hplain
    cases h
    rw [if_pos hplain]
  · rename_i hplain
    rw [if_neg hplain]
    exact modificationsAt_stop h

theorem messageAt_stop {st st' : Option Nat} {header : MessageHeader} {f : Fetched}
    (h : messageAt w file st header = .ok (f, st')) :
    st' = behindBlocks file st (blocksOf w file st header) := by
  unfold messageAt at h
  simp only at h
  split at h
  · rename_i hwhole
    cases h
    rw [Bool.not_eq_true'] at hwhole
    exact (behindBlocks_unread (by rw [readable, hwhole, Bool.false_and])).symm
  · rename_i hwhole
    split at h
    · cases h
    · rename_i hun
      cases h
      exact (behindBlocks_unread (by rw [readable, hun, Bool.and_false])).symm
    · rename_i message hun
      split at h
      · rename_i hid
        cases h
        refine (behindBlocks_unread ?_).symm
        rw [readable, hun]
        simp [hid]
      · rename_i hid
        obtain ⟨r, hr, he⟩ := Outcome.bind_eq_ok h
        cases he
        have hread : readable w file st header = true := by
          rw [readable, hun]
          simp_all
        rw [behindBlocks_read hread]
        exact messageModificationsAt_stop hr

/-- A header in a list that is read gets what is read where the file stands behind those in front
of it. -/
theorem messagesAt_split {st st' : Option Nat} {before after : List MessageHeader}
    {header : MessageHeader} {fetched : List Fetched}
    (h : messagesAt w file st (before ++ header :: after) = .ok (fetched, st')) :
    ∃ f stop, fetched[before.length]? = some f ∧
      messageAt w file (behind w file st before) header = .ok (f, stop) := by
  induction before generalizing st fetched with
  | nil =>
    obtain ⟨⟨f, stop⟩, hf, he⟩ := Outcome.bind_eq_ok h
    obtain ⟨r, -, hr⟩ := Outcome.bind_eq_ok he
    cases hr
    exact ⟨f, stop, rfl, hf⟩
  | cons first before ih =>
    obtain ⟨⟨f, st₁⟩, hf, he⟩ := Outcome.bind_eq_ok h
    obtain ⟨r, hr, he⟩ := Outcome.bind_eq_ok he
    cases he
    obtain ⟨f', stop, hget, hat⟩ := ih hr
    refine ⟨f', stop, hget, ?_⟩
    rw [messageAt_stop hf] at hat
    exact hat

theorem fetch_single {header : MessageHeader} {f : Fetched} :
    fetch w file [header] = .ok [f] ↔ ∃ st, messageAt w file (some 0) header = .ok (f, st) := by
  rw [fetch_eq, messagesAt]
  constructor
  · intro h
    obtain ⟨r, hr, he⟩ := Outcome.bind_eq_ok h
    obtain ⟨⟨f', st⟩, hf, he'⟩ := Outcome.bind_eq_ok hr
    cases he'
    cases he
    exact ⟨st, hf⟩
  · rintro ⟨st, hf⟩
    rw [hf]
    rfl

theorem messageAt_whole {st st' : Option Nat} {header : MessageHeader} {f : Fetched}
    (hwhole : (readAt file st header.dataOffset.toInt).whole = true)
    (h : messageAt w file st header = .ok (f, st')) : f.error ≠ some 1 := by
  unfold messageAt at h
  simp only [hwhole, Bool.not_true, Bool.false_eq_true, if_false] at h
  split at h
  · cases h
  · cases h
    simp [Fetched.fake]
  · split at h
    · cases h
      simp [Fetched.fake]
    · obtain ⟨r, -, he⟩ := Outcome.bind_eq_ok h
      cases he
      simp

theorem messageAt_seek {place : Nat} {header : MessageHeader} (h : header.dataOffset.toInt ≠ -1) :
    messageAt w file (some place) header = messageAt w file (some 0) header := by
  have hread : readAt file (some place) header.dataOffset.toInt =
      readAt file (some 0) header.dataOffset.toInt := by
    simp only [readAt, if_neg h]
  rw [messageAt, messageAt, hread]

/-- Every header gets what it gets alone if and only if the reads in front of it leave it alone. -/
theorem apart_iff_undisturbed {headers : List MessageHeader} {fetched : List Fetched}
    (h : fetch w file headers = .ok fetched) :
    Apart w file headers fetched ↔ Undisturbed w file headers := by
  rw [fetch_eq] at h
  obtain ⟨⟨fetched', st'⟩, hread, he⟩ := Outcome.bind_eq_ok h
  cases he
  constructor
  · rintro hapart before header after rfl
    obtain ⟨f, stop, hget, hat⟩ := messagesAt_split hread
    obtain ⟨f', hget', halone⟩ := hapart before.length header (by simp)
    rw [hget] at hget'
    cases hget'
    obtain ⟨stop', hstart⟩ := fetch_single.mp halone
    cases hbehind : behind w file (some 0) before with
    | none =>
      rw [hbehind] at hat
      cases hat
      cases hwhole : (readAt file (some 0) header.dataOffset.toInt).whole with
      | false => rfl
      | true => exact absurd rfl (messageAt_whole hwhole hstart)
    | some place =>
      rw [hbehind] at hat
      exact .inr ⟨f, stop, stop', hat, hstart⟩
  · intro hun i header hi
    obtain ⟨hlt, hheader⟩ := List.getElem?_eq_some_iff.mp hi
    have hsplit : headers = headers.take i ++ header :: headers.drop (i + 1) := by
      rw [← hheader, List.getElem_cons_drop, List.take_append_drop]
    have hlen : (headers.take i).length = i := List.length_take_of_le (Nat.le_of_lt hlt)
    have hat := hun _ _ _ hsplit
    rw [hsplit] at hread
    obtain ⟨f, stop, hget, hf⟩ := messagesAt_split hread
    rw [hlen] at hget
    refine ⟨f, hget, fetch_single.mpr ?_⟩
    cases hbehind : behind w file (some 0) (headers.take i) with
    | none =>
      rw [hbehind] at hat hf
      cases hf
      refine ⟨(readAt file (some 0) header.dataOffset.toInt).stop, ?_⟩
      simp only at hat
      simp only [messageAt, hat, Bool.not_false, if_true]
    | some place =>
      rw [hbehind] at hat hf
      rcases hat with hseek | ⟨f', st₁, st₂, hplace, hstart⟩
      · exact ⟨stop, (messageAt_seek hseek).symm.trans hf⟩
      · rw [hplace] at hf
        cases hf
        exact ⟨st₂, hstart⟩

theorem blockAt_beyond {place : Nat} (h : file.length ≤ place) : blockAt file place = {} := by
  have hnil : file.drop place = [] := List.drop_eq_nil_of_le h
  simp only [blockAt, hnil]
  exact if_pos (by decide)

theorem readAt_seek (place offset : Nat) : readAt file (some place) offset = blockAt file offset := by
  have hoff : ¬ (offset : Int) = -1 := by omega
  have hneg : ¬ (offset : Int) < 0 := by omega
  rw [readAt, if_neg hoff, if_neg hneg, Int.toNat_natCast]

/-- A written block is read where it lies. -/
theorem blockAt_frame (before : Bytes) {payload : Bytes} (rest : Bytes) (h : payload.length ≤ maxDataBlockSize.toNat) :
    blockAt (before ++ (frame payload ++ rest)) before.length =
      { whole := true, payload, stop := some (before.length + payload.length + 16) } := by
  obtain ⟨hl, hle⟩ := Storage.size_fits h
  have hahead : (before ++ (frame payload ++ rest)).drop before.length = frame payload ++ rest :=
    List.drop_left
  have hd : (frame payload ++ rest).drop 0 = Scalar.encode (UInt32.ofNat payload.length) ++
      (Scalar.encode (UInt32.ofNat payload.length) ++ (payload ++
        (Scalar.encode (UInt32.ofNat payload.length) ++
          (Scalar.encode (UInt32.ofNat payload.length) ++ rest)))) := by
    simp [frame, Storage.frameParts]
  have hd2 := Storage.drop_add hd (Storage.length_size _)
  have hd3 := Storage.drop_add hd2 (Storage.length_size _)
  have hd4 := Storage.drop_add hd3 hl
  have hd5 := Storage.drop_add hd4 (Storage.length_size _)
  have h1 := Storage.sizeAt_encode hd
  have h2 := Storage.sizeAt_encode hd2
  have h3 := Storage.sizeAt_encode hd4
  have h4 := Storage.sizeAt_encode hd5
  have hlen : (frame payload ++ rest).length = payload.length + 16 + rest.length := by
    rw [List.length_append, Storage.frame_length]
  rw [show 0 + 4 + 4 + (UInt32.ofNat payload.length).toNat =
    8 + (UInt32.ofNat payload.length).toNat by omega] at h3
  rw [show 0 + 4 + 4 + (UInt32.ofNat payload.length).toNat + 4 =
    12 + (UInt32.ofNat payload.length).toNat by omega] at h4
  have hok : ¬ (UInt32.ofNat payload.length ≠ UInt32.ofNat payload.length ∨
      maxDataBlockSize < UInt32.ofNat payload.length) := by
    rintro (hne | hlt)
    · exact hne rfl
    · exact absurd hlt (UInt32.not_lt.mpr hle)
  have hpayload : ((frame payload ++ rest).drop 8).take (UInt32.ofNat payload.length).toNat = payload := by
    rw [show (8 : Nat) = 0 + 4 + 4 from rfl, hd3, ← hl, List.take_left]
  simp only [blockAt, hahead, h1]
  rw [if_neg (by omega), h2, if_neg hok, if_neg (by omega), h3, h4, hpayload, ← hl]
  simp

section

open HistoryMessage

/-- A header whose data was given up, with the offset that stands for that. -/
def givenUp : MessageHeader := { id := 3, dataOffset := Int64.maxValue }

/-- The header of the only message of a file. -/
def greetingHeader : MessageHeader := { id := 7, dataOffset := 0 }

def greetingFile : Bytes := frame (greeting.serialize blank)

theorem readAt_greeting : readAt greetingFile (some 0) greetingHeader.dataOffset.toInt =
    { whole := true, payload := greeting.serialize blank
      stop := some ((greeting.serialize blank).length + 16) } := by
  have hlen : (greeting.serialize blank).length ≤ maxDataBlockSize.toNat := by decide +kernel
  have h := blockAt_frame [] [] hlen
  rw [List.nil_append, List.append_nil, List.length_nil, Nat.zero_add] at h
  exact (readAt_seek 0 0).trans h

theorem readAt_givenUp (place : Nat) :
    readAt greetingFile (some place) givenUp.dataOffset.toInt = {} := by
  have hlen : greetingFile.length ≤ givenUp.dataOffset.toInt.toNat := by
    rw [greetingFile, Storage.frame_length]
    decide +kernel
  exact (readAt_seek place givenUp.dataOffset.toInt.toNat).trans (blockAt_beyond hlen)

/-- A header whose offset lies inside of the block, where no two equal sizes stand. -/
def misplaced : MessageHeader := { id := 5, dataOffset := 4 }

theorem messageAt_misplaced :
    messageAt blank greetingFile (some 0) misplaced = .ok (.fake 1 misplaced, some 12) := by
  have hread : (readAt greetingFile (some 0) misplaced.dataOffset.toInt).whole = false ∧
      (readAt greetingFile (some 0) misplaced.dataOffset.toInt).stop = some 12 := by
    decide +kernel
  simp [messageAt, hread]

theorem unserialize_greeting :
    unserialize blank (greeting.serialize blank) = .ok (greeting.stored blank) := by
  have hfits : Fits (greeting.serializePack blank []) := show ∀ t ∈ _, _ by decide
  rw [unserialize, serialize, unserializeCall_stored hfits (Or.inl rfl)]
  rfl

theorem messageAt_greeting (place : Nat) :
    messageAt blank greetingFile (some place) greetingHeader =
      .ok ({ message := (greeting.stored blank).applyHeaderFlags greetingHeader },
        some ((greeting.serialize blank).length + 16)) := by
  have hid : (greeting.stored blank).msgid = greetingHeader.id := rfl
  rw [messageAt_seek (by decide)]
  simp only [messageAt, readAt_greeting, unserialize_greeting]
  rw [if_neg (not_not.mpr hid)]
  rfl

theorem messageAt_givenUp (place : Nat) :
    messageAt blank greetingFile (some place) givenUp = .ok (.fake 1 givenUp, none) := by
  simp [messageAt, readAt_givenUp]

/-- A message that is read between one whose offset is wrong and one whose data was given up. -/
theorem greeting_apart :
    fetch blank greetingFile [misplaced, greetingHeader, givenUp] = .ok [.fake 1 misplaced,
        { message := (greeting.stored blank).applyHeaderFlags greetingHeader }, .fake 1 givenUp] ∧
      Apart blank greetingFile [misplaced, greetingHeader, givenUp] [.fake 1 misplaced,
        { message := (greeting.stored blank).applyHeaderFlags greetingHeader }, .fake 1 givenUp] := by
  have hread : fetch blank greetingFile [misplaced, greetingHeader, givenUp] = .ok [.fake 1 misplaced,
      { message := (greeting.stored blank).applyHeaderFlags greetingHeader }, .fake 1 givenUp] := by
    rw [fetch_eq, messagesAt, messageAt_misplaced]
    simp only [Outcome.ok_bind, messagesAt, messageAt_greeting, messageAt_givenUp,
      Outcome.pure_eq_ok]
  refine ⟨hread, (apart_iff_undisturbed hread).mpr fun before header after hsplit => ?_⟩
  have hbehind : behind blank greetingFile (some 0) [misplaced] = some 12 := by
    rw [behind, List.foldl_cons, List.foldl_nil, ← messageAt_stop messageAt_misplaced]
  rcases before with _ | ⟨first, _ | ⟨second, _ | ⟨third, before⟩⟩⟩
  · cases hsplit
    exact .inl (by decide)
  · cases hsplit
    rw [hbehind]
    exact .inl (by decide)
  · cases hsplit
    split
    · exact congrArg BlockRead.whole (readAt_givenUp 0)
    · exact .inl (by decide)
  · simp at hsplit

/-- A message is not read behind one whose data was given up. -/
theorem given_up_not_apart :
    fetch blank greetingFile [givenUp, greetingHeader] =
        .ok [.fake 1 givenUp, .fake 1 greetingHeader] ∧
      ¬ Apart blank greetingFile [givenUp, greetingHeader]
        [.fake 1 givenUp, .fake 1 greetingHeader] := by
  constructor
  · rw [fetch_eq, messagesAt, messageAt, readAt_givenUp]
    rfl
  · intro hapart
    obtain ⟨f, hget, halone⟩ := hapart 1 greetingHeader rfl
    cases hget
    obtain ⟨stop, hat⟩ := fetch_single.mp halone
    refine messageAt_whole ?_ hat rfl
    rw [readAt_greeting]

end

end MessagesData

end Icq.Archive
