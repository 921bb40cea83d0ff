import Icq.Archive.MessagesApart

/-! Whether what is read for a modification depends on the modifications in front of it. -/

namespace Icq.Archive
open Icq.Lib Icq.Tools

/-- Where an open file stands, unless it does nothing more. -/
def placeOf (f : FileStream) : Option Nat := if f.good then some f.pos else none

theorem stands_placeOf (f : FileStream) : Stands f.bytes (placeOf f) f := by
  rw [placeOf]
  split
  · rename_i hgood
    exact .good rfl hgood
  · rename_i hbad
    exact .marked (Bool.not_eq_true _ ▸ hbad)

namespace MessagesData

variable (w : Surroundings) (file : Bytes)

/-- What a modification is by its own block: there if the block is whole, can be decoded and is of
the header's id. -/
def ownModification (header : MessageHeader) (block : BlockRead) : Option HistoryMessage :=
  if block.whole then
    match HistoryMessage.unserialize w block.payload with
    | .ok modification => if modification.msgid = header.id then some modification else none
    | _ => none
  else none

/-- The modifications by their own blocks. A header without an offset has the block where the file
stands behind the one in front, and a file that met its end has no blocks. -/
def ownModifications : Option Nat → List MessageHeader → List HistoryMessage
  | _, [] => []
  | st, header :: rest =>
    let block := readAt file st header.dataOffset.toInt
    (ownModification w header block).toList ++ ownModifications block.stop rest

/-- One turn of the loop over the modifications, with what lies in the buffer. -/
def turn (left : Bytes) (header : MessageHeader) (block : BlockRead) :
    Outcome (Option HistoryMessage) :=
  if !block.whole then .ok none
  else
    match HistoryMessage.unserialize w (left ++ block.payload) with
    | .crashed => .crashed
    | .refused => .ok none
    | .ok modification => .ok (if modification.msgid = header.id then some modification else none)

/-- What lies in the buffer behind a block. -/
def leftAfter (left : Bytes) (block : BlockRead) : Bytes :=
  if block.whole then (TlvPack.unserialize (left ++ block.payload)).left else left ++ block.payload

/-- Each block comes to the same behind what lies in the buffer as it does alone. -/
def Unmixed : Option Nat → Bytes → List MessageHeader → Prop
  | _, _, [] => True
  | st, left, header :: rest =>
    let block := readAt file st header.dataOffset.toInt
    turn w left header block = .ok (ownModification w header block) ∧
      Unmixed block.stop (leftAfter left block) rest

/-- No block comes to anything. -/
def NoneReadable : Option Nat → List MessageHeader → Prop
  | _, [] => True
  | st, header :: rest =>
    let block := readAt file st header.dataOffset.toInt
    ownModification w header block = none ∧ NoneReadable block.stop rest

variable {w file}

theorem modificationsAt_cons {st : Option Nat} {left : Bytes} {header : MessageHeader}
    {rest : List MessageHeader} {block : BlockRead}
    (hblock : readAt file st header.dataOffset.toInt = block) :
    modificationsAt w file st left (header :: rest) = (do
      let found ← turn w left header block
      let r ← modificationsAt w file block.stop (leftAfter left block) rest
      pure (found.toList ++ r.1, r.2)) := by
  subst hblock
  rw [modificationsAt, turn, leftAfter]
  generalize readAt file st header.dataOffset.toInt = block
  cases hwhole : block.whole with
  | false =>
    simp only [Bool.not_false, if_true, Bool.false_eq_true, if_false, Outcome.ok_bind]
    cases modificationsAt w file block.stop (left ++ block.payload) rest <;> rfl
  | true =>
    simp only [Bool.not_true, Bool.false_eq_true, if_false, if_true]
    generalize (TlvPack.unserialize (left ++ block.payload)).left = left'
    cases HistoryMessage.unserialize w (left ++ block.payload) with
    | crashed => rfl
    | refused =>
      simp only [Outcome.ok_bind]
      cases modificationsAt w file block.stop left' rest <;> rfl
    | ok modification =>
      by_cases hid : modification.msgid = header.id
      · simp only [hid, ne_eq, not_true_eq_false, if_false, if_true, Outcome.ok_bind]
        cases modificationsAt w file block.stop left' rest <;> rfl
      · simp only [ne_eq, if_pos hid, if_neg hid, Outcome.ok_bind]
        cases modificationsAt w file block.stop left' rest <;> rfl

/-- With what was read for a modification and for those behind it there is what is read for all. -/
theorem modificationsAt_cons_ok {st stop : Option Nat} {left : Bytes} {header : MessageHeader}
    {rest : List MessageHeader} {found : Option HistoryMessage} {ms : List HistoryMessage}
    {block : BlockRead} (hblock : readAt file st header.dataOffset.toInt = block)
    (hturn : turn w left header block = .ok found)
    (hrest : modificationsAt w file block.stop (leftAfter left block) rest = .ok (ms, stop)) :
    modificationsAt w file st left (header :: rest) = .ok (found.toList ++ ms, stop) := by
  rw [modificationsAt_cons hblock, hturn, Outcome.ok_bind, hrest]
  rfl

theorem ownModifications_cons {st : Option Nat} {header : MessageHeader} {rest : List MessageHeader}
    {block : BlockRead} (hblock : readAt file st header.dataOffset.toInt = block) :
    ownModifications w file st (header :: rest) =
      (ownModification w header block).toList ++ ownModifications w file block.stop rest := by
  subst hblock
  rfl

theorem toList_inj {α : Type} {a b : Option α} (h : a.toList = b.toList) : a = b := by
  have hhead := congrArg List.head? h
  rwa [Option.head?_toList, Option.head?_toList] at hhead

/-- However many of the modifications there are, each is read as it is by its own block, if and only
if no block in front of another changes what that comes to. -/
theorem modificationsAt_own_iff {st : Option Nat} {left : Bytes} {headers : List MessageHeader} :
    (∀ n, ∃ stop, modificationsAt w file st left (headers.take n) =
        .ok (ownModifications w file st (headers.take n), stop)) ↔
      Unmixed w file st left headers := by
  induction headers generalizing st left with
  | nil => exact ⟨fun _ => trivial, fun _ n => ⟨st, by rw [List.take_nil]; rfl⟩⟩
  | cons header rest ih =>
    obtain ⟨block, hblock⟩ : ∃ block, readAt file st header.dataOffset.toInt = block := ⟨_, rfl⟩
    have hown : ∀ n, ownModifications w file st (header :: rest.take n) =
        (ownModification w header block).toList ++
          ownModifications w file block.stop (rest.take n) :=
      fun n => ownModifications_cons hblock
    simp only [Unmixed, hblock]
    constructor
    · intro h
      have hturn : turn w left header block = .ok (ownModification w header block) := by
        obtain ⟨stop, hone⟩ := h 1
        rw [List.take_succ_cons, hown, List.take_zero, modificationsAt_cons hblock] at hone
        obtain ⟨found, hfound, hone⟩ := Outcome.bind_eq_ok hone
        have hlist := (Prod.mk.inj (Outcome.ok.inj hone)).1
        rw [ownModifications, List.append_nil, List.append_nil] at hlist
        rw [hfound, toList_inj hlist]
      refine ⟨hturn, ih.mp fun n => ?_⟩
      obtain ⟨stop, hmore⟩ := h (n + 1)
      rw [List.take_succ_cons, hown, modificationsAt_cons hblock, hturn, Outcome.ok_bind] at hmore
      obtain ⟨⟨ms, stop'⟩, hrest, hmore⟩ := Outcome.bind_eq_ok hmore
      have hlist : ms = ownModifications w file block.stop (rest.take n) :=
        List.append_cancel_left (Prod.mk.inj (Outcome.ok.inj hmore)).1
      exact ⟨stop', hlist ▸ hrest⟩
    · rintro ⟨hturn, hrest⟩ n
      cases n with
      | zero => exact ⟨st, rfl⟩
      | succ n =>
        obtain ⟨stop, hmore⟩ := ih.mpr hrest n
        refine ⟨stop, ?_⟩
        rw [List.take_succ_cons, modificationsAt_cons_ok hblock hturn hmore, hown]

theorem ownModifications_eq_nil {st : Option Nat} {headers : List MessageHeader} :
    (∀ n, ownModifications w file st (headers.take n) = []) ↔ NoneReadable w file st headers := by
  induction headers generalizing st with
  | nil => exact ⟨fun _ => trivial, fun _ n => by rw [List.take_nil]; rfl⟩
  | cons header rest ih =>
    obtain ⟨block, hblock⟩ : ∃ block, readAt file st header.dataOffset.toInt = block := ⟨_, rfl⟩
    have hown : ∀ n, ownModifications w file st (header :: rest.take n) =
        (ownModification w header block).toList ++
          ownModifications w file block.stop (rest.take n) :=
      fun n => ownModifications_cons hblock
    simp only [NoneReadable, hblock]
    constructor
    · intro h
      have hboth : ∀ n, (ownModification w header block).toList = [] ∧
          ownModifications w file block.stop (rest.take n) = [] :=
        fun n => List.append_eq_nil_iff.mp ((hown n).symm.trans (h (n + 1)))
      exact ⟨Option.toList_eq_nil_iff.mp (hboth 0).1, ih.mp fun n => (hboth n).2⟩
    · rintro ⟨hnone, hrest⟩ n
      cases n with
      | zero => rfl
      | succ n =>
        rw [List.take_succ_cons, hown, hnone, ih.mpr hrest n]
        rfl

theorem Follows.ok_iff {α σ : Type} {stream : σ → FileStream} {x : Outcome (α × σ)}
    {y : Outcome (α × Option Nat)} (h : Follows file stream x y) (a : α) :
    (∃ s, x = .ok (a, s)) ↔ ∃ stop, y = .ok (a, stop) := by
  cases h with
  | ok h =>
    constructor
    · rintro ⟨s, hs⟩
      cases hs
      exact ⟨_, rfl⟩
    · rintro ⟨stop, hstop⟩
      cases hstop
      exact ⟨_, rfl⟩
  | refused => constructor <;> (rintro ⟨_, h⟩; cases h)
  | crashed => constructor <;> (rintro ⟨_, h⟩; cases h)

/-- The blocks of the modifications. -/
def ownBlocks (file : Bytes) : Option Nat → List MessageHeader → List BlockRead
  | _, [] => []
  | st, header :: rest =>
    let block := readAt file st header.dataOffset.toInt
    block :: ownBlocks file block.stop rest

theorem turn_empty {header : MessageHeader} {block : BlockRead}
    (h : block.whole = true → HistoryMessage.unserialize w block.payload ≠ .crashed) :
    turn w [] header block = .ok (ownModification w header block) := by
  rw [turn, ownModification, List.nil_append]
  cases hwhole : block.whole with
  | false => rfl
  | true =>
    cases hun : HistoryMessage.unserialize w block.payload with
    | crashed => exact absurd hun (h hwhole)
    | refused => rfl
    | ok modification => rfl

/-- Nothing of the block stays in the buffer: it is whole and its payload is read to the end, or it
gives no payload. -/
def LeavesNothing (block : BlockRead) : Prop :=
  if block.whole then (TlvPack.unserialize block.payload).left = [] else block.payload = []

theorem LeavesNothing.leftAfter_eq {block : BlockRead} (h : LeavesNothing block) :
    leftAfter [] block = [] := by
  rw [LeavesNothing] at h
  cases hwhole : block.whole with
  | false => simpa [leftAfter, hwhole] using h
  | true => simpa [leftAfter, hwhole] using h

/-- Behind a block that leaves something no block is whole, and of none that is whole the decoder
uses a null pointer. -/
def NothingCarried (w : Surroundings) : List BlockRead → Prop
  | [] => True
  | block :: behind =>
    (block.whole = true → HistoryMessage.unserialize w block.payload ≠ .crashed) ∧
      (LeavesNothing block ∨ ∀ later ∈ behind, later.whole = false) ∧ NothingCarried w behind

/-- What lies in the buffer does not matter where no block is whole. -/
theorem unmixed_of_none_whole {st : Option Nat} {left : Bytes} {headers : List MessageHeader}
    (h : ∀ block ∈ ownBlocks file st headers, block.whole = false) :
    Unmixed w file st left headers := by
  induction headers generalizing st left with
  | nil => trivial
  | cons header rest ih =>
    obtain ⟨hblock, hrest⟩ := List.forall_mem_cons.mp h
    refine ⟨?_, ih hrest⟩
    simp [turn, ownModification, hblock]

/-- Blocks do not mix as long as nothing is left in front of a whole one. -/
theorem unmixed_of_nothing_carried {st : Option Nat} {headers : List MessageHeader}
    (h : NothingCarried w (ownBlocks file st headers)) : Unmixed w file st [] headers := by
  induction headers generalizing st with
  | nil => trivial
  | cons header rest ih =>
    obtain ⟨hcrash, hleft, hrest⟩ := h
    refine ⟨turn_empty hcrash, ?_⟩
    rcases hleft with hnothing | hnone
    · rw [hnothing.leftAfter_eq]
      exact ih hrest
    · exact unmixed_of_none_whole hnone

/-- The blocks of a header's modifications do not disturb each other, and none is passed over because
the header is not marked. -/
def Independent (w : Surroundings) (s : Storage) (header : MessageHeader) : Prop :=
  if header.isModified || header.isUpdated then
    NothingCarried w (ownBlocks s.stream.bytes (placeOf s.stream) header.modifications)
  else NoneReadable w s.stream.bytes (placeOf s.stream) header.modifications

theorem messageModificationsAt_own {s : Storage} {header : MessageHeader}
    (h : Independent w s header) :
    ∃ stop, messageModificationsAt w s.stream.bytes (placeOf s.stream) header =
      .ok (ownModifications w s.stream.bytes (placeOf s.stream) header.modifications, stop) := by
  rw [Independent] at h
  rw [messageModificationsAt]
  cases hmarked : header.isModified || header.isUpdated with
  | true =>
    rw [hmarked, if_pos rfl] at h
    have hown := modificationsAt_own_iff.mpr (unmixed_of_nothing_carried h) header.modifications.length
    rw [List.take_length] at hown
    rw [if_neg]
    · exact hown
    · rw [Bool.or_eq_true] at hmarked
      rcases hmarked with h | h <;> simp [h]
  | false =>
    rw [hmarked, if_neg Bool.false_ne_true] at h
    have hnone := ownModifications_eq_nil.mpr h header.modifications.length
    rw [List.take_length] at hnone
    obtain ⟨hmod, hup⟩ := Bool.or_eq_false_iff.mp hmarked
    exact ⟨placeOf s.stream, by rw [if_pos (by simp [hmod, hup]), hnone]⟩

/-- Those modifications of a header are read that can be read by their own blocks, as they are by
their own blocks. -/
theorem getMessageModifications_own {w : Surroundings} {s : Storage} {header : MessageHeader}
    (h : Independent w s header) :
    ∃ s', getMessageModifications w s header =
      .ok (ownModifications w s.stream.bytes (placeOf s.stream) header.modifications, s') :=
  ((modifications_follows (stands_placeOf s.stream)).ok_iff _).mpr (messageModificationsAt_own h)

section

open HistoryMessage

/-- A block of one byte whose last two sizes were lost. -/
def lostSizes : Bytes :=
  Scalar.encode (1 : UInt32) ++ (Scalar.encode (1 : UInt32) ++ ([0] ++
    (Scalar.encode (0 : UInt32) ++ Scalar.encode (0 : UInt32))))

/-- A file with a block that can be read in front of one that cannot. -/
def keptFile : Bytes := [] ++ (frame (greeting.serialize blank) ++ lostSizes)

/-- The header of a modification that lies at an offset. -/
def modificationAt (offset : Int64) : MessageHeader := { id := 7, dataOffset := offset }

/-- A message with two modifications, of which the second has the offset -1. -/
def keptHeader : MessageHeader :=
  { id := 7, flags := { modified := true }, modifications := [modificationAt 0, modificationAt (-1)] }

/-- The sound block comes to the same, whatever is wrong with the one behind it. -/
theorem kept_in_front_of_lost_sizes : ∃ modification s', modification.msgid = 7 ∧
    getMessageModifications blank { stream := { bytes := keptFile } } keptHeader =
      .ok ([modification], s') := by
  obtain ⟨modification, hun, hid⟩ : ∃ m, unserialize blank (greeting.serialize blank) = .ok m ∧
      m.msgid = 7 := ⟨_, unserialize_greeting, rfl⟩
  have hlen : (greeting.serialize blank).length ≤ maxDataBlockSize.toNat := by decide +kernel
  have hplace : placeOf { bytes := keptFile } = some 0 := rfl
  have hfirst : readAt keptFile (some 0) (modificationAt 0).dataOffset.toInt =
      { whole := true, payload := greeting.serialize blank
        stop := some ((greeting.serialize blank).length + 16) } := by
    have hblock := blockAt_frame [] lostSizes hlen
    rw [List.length_nil, Nat.zero_add] at hblock
    exact (readAt_seek 0 0).trans hblock
  have hsecond : (readAt keptFile (some ((greeting.serialize blank).length + 16))
      (modificationAt (-1)).dataOffset.toInt).whole = false := by decide +kernel
  have hleaves : LeavesNothing { whole := true, payload := greeting.serialize blank
                                 stop := some ((greeting.serialize blank).length + 16) } := by
    rw [LeavesNothing, if_pos rfl]
    decide +kernel
  have hindependent : Independent blank { stream := { bytes := keptFile } } keptHeader := by
    rw [Independent, if_pos (by decide), hplace, keptHeader]
    simp only [ownBlocks, hfirst, NothingCarried]
    refine ⟨fun _ => ?_, .inl hleaves, fun hwhole => ?_, .inr (by simp), trivial⟩
    · simp [hun]
    · rw [hsecond] at hwhole
      exact absurd hwhole Bool.false_ne_true
  obtain ⟨s', hs'⟩ := getMessageModifications_own hindependent
  refine ⟨modification, s', hid, hs'.trans ?_⟩
  have hunread : ownModification blank (modificationAt (-1)) (readAt keptFile
      (some ((greeting.serialize blank).length + 16)) (modificationAt (-1)).dataOffset.toInt) = none := by
    rw [ownModification, hsecond]
    rfl
  have hread : ownModification blank (modificationAt 0)
      { whole := true, payload := greeting.serialize blank
        stop := some ((greeting.serialize blank).length + 16) } = some modification := by
    simp only [ownModification, hun]
    exact if_pos hid
  rw [hplace, keptHeader, ownModifications_cons hfirst, ownModifications_cons rfl, hread, hunread]
  rfl

/-- A file with a block that cannot be read in front of one that can. -/
def lostSizesFile : Bytes := lostSizes ++ (frame (greeting.serialize blank) ++ [])

def twiceModified : MessageHeader :=
  { id := 7, flags := { modified := true }, modifications := [modificationAt 0, modificationAt 17] }

theorem readAt_lostSizes : readAt lostSizesFile (some 0) 0 =
    { whole := false, payload := [0], stop := some 17 } := by
  have hblock : ∀ rest, blockAt (lostSizes ++ rest) 0 =
      { whole := false, payload := [0], stop := some 17 } := by
    intro rest
    have hsizes : Storage.sizeAt (lostSizes ++ rest) 0 = 1 ∧
        Storage.sizeAt (lostSizes ++ rest) 4 = 1 ∧ Storage.sizeAt (lostSizes ++ rest) 9 = 0 :=
      ⟨rfl, rfl, rfl⟩
    have hlen : 17 ≤ (lostSizes ++ rest).length := by
      rw [List.length_append]
      exact Nat.le_add_right 17 _
    have hmax : ¬ maxDataBlockSize < 1 := by decide
    have hpayload : ((lostSizes ++ rest).drop 8).take 1 = [0] := rfl
    have hone : (1 : UInt32).toNat = 1 := rfl
    simp only [blockAt, List.drop_zero, hsizes, hone]
    rw [if_neg (by omega), if_neg (by simp [hmax]), if_neg (by omega), hpayload]
    simp
  exact (readAt_seek 0 0).trans (hblock _)

theorem readAt_behind_lostSizes : readAt lostSizesFile (some 17) 17 =
    { whole := true, payload := greeting.serialize blank
      stop := some (17 + (greeting.serialize blank).length + 16) } := by
  have hlen : (greeting.serialize blank).length ≤ maxDataBlockSize.toNat := by decide +kernel
  have hlost : lostSizes.length = 17 := by decide
  have hblock := blockAt_frame lostSizes [] hlen
  rw [hlost] at hblock
  exact (readAt_seek 17 17).trans hblock

/-- The byte that is left of a block makes the next one unreadable. -/
theorem modification_behind_lost_sizes : ∃ modification s',
    ownModifications blank lostSizesFile (some 0) twiceModified.modifications = [modification] ∧
      getMessageModifications blank { stream := { bytes := lostSizesFile } } twiceModified =
        .ok ([], s') := by
  obtain ⟨modification, hun, hid⟩ : ∃ m, unserialize blank (greeting.serialize blank) = .ok m ∧
      m.msgid = 7 := ⟨_, unserialize_greeting, rfl⟩
  have hfirst : readAt lostSizesFile (some 0) (modificationAt 0).dataOffset.toInt =
      { whole := false, payload := [0], stop := some 17 } := readAt_lostSizes
  have hsecond : readAt lostSizesFile (some 17) (modificationAt 17).dataOffset.toInt =
      { whole := true, payload := greeting.serialize blank
        stop := some (17 + (greeting.serialize blank).length + 16) } := readAt_behind_lostSizes
  have hmixed : HistoryMessage.unserialize blank ([0] ++ greeting.serialize blank) = .refused := by
    have hcut : (TlvPack.unserialize ([0] ++ greeting.serialize blank)).complete = false := by
      decide +kernel
    rw [unserialize, unserializeCall]
    simp only [hcut]
    rfl
  have hturn : turn blank [0] (modificationAt 17)
      { whole := true, payload := greeting.serialize blank
        stop := some (17 + (greeting.serialize blank).length + 16) } = .ok none := by
    simp only [turn, hmixed]
    rfl
  have hlostTurn : turn blank [] (modificationAt 0)
      { whole := false, payload := [0], stop := some 17 } = .ok none := rfl
  have hlast : ∀ left, modificationsAt blank lostSizesFile
      (some (17 + (greeting.serialize blank).length + 16)) left [] =
        .ok ([], some (17 + (greeting.serialize blank).length + 16)) := fun _ => rfl
  have hsecondRead : modificationsAt blank lostSizesFile (some 17) [0]
      [modificationAt 17] =
        .ok ([], some (17 + (greeting.serialize blank).length + 16)) :=
    modificationsAt_cons_ok hsecond hturn (hlast _)
  have hread : ∃ stop, messageModificationsAt blank lostSizesFile (some 0) twiceModified =
      .ok ([], stop) := by
    refine ⟨some (17 + (greeting.serialize blank).length + 16), ?_⟩
    rw [messageModificationsAt, if_neg (by decide), twiceModified]
    exact modificationsAt_cons_ok hfirst hlostTurn hsecondRead
  have hstands : Stands lostSizesFile (some 0) { bytes := lostSizesFile } :=
    .good (f := { bytes := lostSizesFile }) rfl rfl
  have hfollows : Follows lostSizesFile Storage.stream
      (getMessageModifications blank { stream := { bytes := lostSizesFile } } twiceModified)
      (messageModificationsAt blank lostSizesFile (some 0) twiceModified) :=
    modifications_follows hstands
  obtain ⟨s', hs'⟩ := (hfollows.ok_iff []).mpr hread
  refine ⟨modification, s', ?_, hs'⟩
  rw [twiceModified, ownModifications_cons hfirst, ownModifications_cons hsecond]
  simp only [ownModification, hun]
  rw [if_pos (show modification.msgid = (modificationAt 17).id from hid)]
  rfl

end

end MessagesData

end Icq.Archive
