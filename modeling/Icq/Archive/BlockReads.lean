import Icq.Archive.IndexFile

/-! Where the reader of an index block looks. -/

namespace Icq.Archive
open Icq.Lib Icq.Common

namespace MessageHeader

/-- The version of the header that begins some bytes. -/
def versionAt (body : Bytes) : UInt8 := Scalar.decode body

def idAt (body : Bytes) : Int64 := Scalar.decode (body.drop 13)

/-- How long the patch text says it is. -/
def patchLengthAt (body : Bytes) : Nat :=
  if 0 < versionAt body then (Scalar.decode (body.drop 41) : UInt32).toNat else 0

/-- How many bytes a header reads. -/
def sizeAt (body : Bytes) : Nat := minDataSizeof (versionAt body) + patchLengthAt body

/-- A header gets through every check of the reader. -/
structure Passes (body : Bytes) : Prop where
  version : versionAt body ≤ headerVersion
  long : minDataSizeof (versionAt body) ≤ body.length
  id : 0 < idAt body
  patch : patchLengthAt body ≤ body.length - 45

def flagBytes (v : UInt8) : Nat :=
  (if 1 < v then 1 else 0) + ((if 2 < v then 1 else 0) + ((if 3 < v then 1 else 0) +
    ((if 4 < v then 1 else 0) + (if 5 < v then 1 else 0))))

theorem minDataSizeof_eq {v : UInt8} (hv : v ≤ headerVersion) :
    minDataSizeof v = 41 + (if 0 < v then 4 else 0) + flagBytes v := by
  obtain rfl | rfl | rfl | rfl | rfl | rfl | rfl := version_cases hv <;> rfl

theorem le_minDataSizeof (v : UInt8) : 41 ≤ minDataSizeof v := by
  unfold minDataSizeof
  split_ifs <;> decide

variable {body : Bytes}

theorem unserializePatch_ok {v : UInt8} {bs : Bytes} {n : Nat} (h4 : 0 < v → 4 ≤ bs.length)
    (hn : n = if 0 < v then (Scalar.decode bs : UInt32).toNat else 0) (hle : n ≤ bs.length - 4) :
    ∃ p, unserializePatch v bs = .ok (p, bs.drop ((if 0 < v then 4 else 0) + n)) := by
  unfold unserializePatch
  by_cases hv : 0 < v
  · rw [if_pos hv] at hn
    rw [if_pos hv, if_pos hv, Parser.bind_ok (Parser.take_ok (h4 hv))]
    have hdrop : (bs.drop (Scalar.width UInt32)).length = bs.length - 4 := List.length_drop
    by_cases h0 : 0 < (Scalar.decode bs : UInt32)
    · have hne : (Scalar.decode bs : UInt32).toNat ≠ 0 := by
        rw [UInt32.lt_iff_toNat_lt] at h0
        exact Nat.ne_of_gt h0
      subst hn
      rw [if_pos h0, Parser.bind_ok (Parser.need_ok (hdrop ▸ hle)),
        Parser.bind_ok (Parser.takeBytes_ok hne (hdrop ▸ hle)), List.drop_drop]
      exact ⟨_, rfl⟩
    · have heq : n = 0 := by
        rw [UInt32.lt_iff_toNat_lt] at h0
        exact hn.trans (Nat.eq_zero_of_not_pos h0)
      rw [if_neg h0, heq]
      exact ⟨_, rfl⟩
  · rw [if_neg hv] at hn
    rw [if_neg hv, if_neg hv, hn]
    exact ⟨_, rfl⟩

theorem unserializePatch_refused {v : UInt8} {bs : Bytes} {n : Nat} (h4 : 0 < v → 4 ≤ bs.length)
    (hn : n = if 0 < v then (Scalar.decode bs : UInt32).toNat else 0) (hlt : bs.length - 4 < n) :
    unserializePatch v bs = .refused := by
  unfold unserializePatch
  have hv : 0 < v := by
    by_contra h
    rw [if_neg h] at hn
    omega
  rw [if_pos hv] at hn
  have h0 : 0 < (Scalar.decode bs : UInt32) := by
    rw [UInt32.lt_iff_toNat_lt]
    show 0 < _
    omega
  have hdrop : (bs.drop (Scalar.width UInt32)).length = bs.length - 4 := List.length_drop
  rw [if_pos hv, Parser.bind_ok (Parser.take_ok (h4 hv)), if_pos h0]
  exact Parser.bind_refused (Parser.need_refused (by omega))

/-- The bytes behind the patch text. -/
theorem flags_takes (v : UInt8) (flags : MessageFlags) (time : UInt64) (id prevId dataOffset : Int64)
    (dataSize : UInt32) (updatePatchVersion : PatchVersion) :
    Parser.Takes (do
      let hasSharedContactWithSn ← Parser.takeIf (1 < v) false
      let hasPollWithId ← Parser.takeIf (2 < v) false
      let hasReactions ← Parser.takeIf (3 < v) false
      let hasTaskWithId ← Parser.takeIf (4 < v) false
      let hasThread ← Parser.takeIf (5 < v) false
      pure ({ id, version := v, flags, time, prevId, dataOffset, dataSize, updatePatchVersion
              hasSharedContactWithSn, hasPollWithId, hasTaskWithId, hasReactions
              hasThread } : MessageHeader)) (flagBytes v) := by
  have one (c : Prop) [Decidable c] : Parser.Takes (Parser.takeIf c false) (if c then 1 else 0) := by
    have h := Parser.Takes.takeIf (decide c) false
    simp only [decide_eq_true_eq] at h
    exact h
  refine (one _).bind fun _ => (one _).bind fun _ => (one _).bind fun _ => (one _).bind fun _ => ?_
  exact (one _).bind fun _ => Parser.Takes.pure _

/-- The patch text lies inside the bytes. -/
theorem Passes.text_inside (h : Passes body) :
    41 + ((if 0 < versionAt body then 4 else 0) + patchLengthAt body) ≤ body.length := by
  have hlong := h.long
  have hpatch := h.patch
  rw [minDataSizeof_eq h.version] at hlong
  by_cases hv : 0 < versionAt body
  · rw [if_pos hv] at hlong ⊢
    omega
  · rw [if_neg hv] at hlong ⊢
    rw [patchLengthAt, if_neg hv]
    omega

/-- What reading a header can come to. Past the checks it fails only on a patch text that leaves
too little for the bytes behind it. -/
inductive ReadsTo (body : Bytes) : Outcome (MessageHeader × Bytes) → Prop where
  | refused (h : ¬ Passes body) : ReadsTo body .refused
  | ok (header : MessageHeader) (h : Passes body) (hsize : sizeAt body ≤ body.length) :
    ReadsTo body (.ok (header, body.drop (sizeAt body)))
  | crashed (h : Passes body) (hsize : body.length < sizeAt body) : ReadsTo body .crashed

theorem unserialize_readsTo (body : Bytes) : ReadsTo body (unserialize body) := by
  have hmin := le_minDataSizeof (versionAt body)
  have hdrop (n : Nat) : (body.drop n).length = body.length - n := List.length_drop
  have take_at (α : Type) [Scalar α] (n k : Nat) (hk : n + Scalar.width α = k)
      (hn : k ≤ body.length) :
      Parser.take α (body.drop n) = .ok (Scalar.decode (body.drop n), body.drop k) := by
    rw [Parser.take_ok (by rw [hdrop]; omega), List.drop_drop, hk]
  unfold unserialize
  by_cases h1 : 1 ≤ body.length
  swap
  · rw [Parser.bind_refused (Parser.need_refused (Nat.not_le.mp h1))]
    exact .refused fun h => h1 (by have := h.long; omega)
  rw [Parser.bind_ok (Parser.need_ok h1), Parser.bind_ok (Parser.take_ok h1)]
  change ReadsTo body ((Parser.refuseIf (headerVersion < versionAt body) >>= _) (body.drop 1))
  by_cases hv : headerVersion < versionAt body
  · rw [decide_eq_true hv, Parser.bind_refused (Parser.refuseIf_true _)]
    exact .refused fun h => UInt8.not_le.mpr hv h.version
  rw [decide_eq_false hv, Parser.bind_ok (Parser.refuseIf_false _)]
  change ReadsTo body ((Parser.need (minDataSizeof (versionAt body) - 1) >>= _) (body.drop 1))
  by_cases hl : minDataSizeof (versionAt body) ≤ body.length
  swap
  · rw [Parser.bind_refused (Parser.need_refused (by rw [hdrop]; omega))]
    exact .refused fun h => hl h.long
  have hlong : 41 ≤ body.length := hmin.trans hl
  rw [Parser.bind_ok (Parser.need_ok (by rw [hdrop]; exact Nat.sub_le_sub_right hl 1)),
    Parser.bind_ok (take_at UInt32 1 5 rfl (by omega)),
    Parser.bind_ok (take_at UInt64 5 13 rfl (by omega)),
    Parser.bind_ok (take_at Int64 13 21 rfl (by omega))]
  change ReadsTo body ((Parser.refuseIf (idAt body ≤ 0) >>= _) (body.drop 21))
  by_cases hid : idAt body ≤ 0
  · rw [decide_eq_true hid, Parser.bind_refused (Parser.refuseIf_true _)]
    exact .refused fun h => not_le.mpr h.id hid
  rw [decide_eq_false hid, Parser.bind_ok (Parser.refuseIf_false _),
    Parser.bind_ok (take_at Int64 21 29 rfl (by omega)),
    Parser.bind_ok (take_at Int64 29 37 rfl (by omega)),
    Parser.bind_ok (take_at UInt32 37 41 rfl hlong)]
  change ReadsTo body ((unserializePatch (versionAt body) >>= _) (body.drop 41))
  have hsum := minDataSizeof_eq (UInt8.not_lt.mp hv)
  have h4 : 0 < versionAt body → 4 ≤ (body.drop 41).length := by
    intro h
    rw [if_pos h] at hsum
    rw [hdrop]
    omega
  by_cases hp : patchLengthAt body ≤ body.length - 45
  swap
  · rw [Parser.bind_refused (unserializePatch_refused h4 rfl (by
      rw [hdrop, Nat.sub_sub]
      exact Nat.not_le.mp hp))]
    exact .refused fun h => hp h.patch
  obtain ⟨p, hpatch⟩ := unserializePatch_ok h4 rfl (by rw [hdrop, Nat.sub_sub]; exact hp)
  have hpass : Passes body := ⟨UInt8.not_lt.mp hv, hl, not_le.mp hid, hp⟩
  rw [Parser.bind_ok hpatch, List.drop_drop]
  have hflags := flags_takes (versionAt body) (.ofValue (Scalar.decode (body.drop 1)))
    (Scalar.decode (body.drop 5)) (Scalar.decode (body.drop 13)) (Scalar.decode (body.drop 21))
    (Scalar.decode (body.drop 29)) (Scalar.decode (body.drop 37)) p
    (body.drop (41 + ((if 0 < versionAt body then 4 else 0) + patchLengthAt body)))
  have hsize : sizeAt body =
      41 + ((if 0 < versionAt body then 4 else 0) + patchLengthAt body) +
        flagBytes (versionAt body) := by
    rw [sizeAt, hsum]
    omega
  rw [hdrop] at hflags
  by_cases hfits : sizeAt body ≤ body.length
  · obtain ⟨header, hread⟩ := hflags.1 (by omega)
    rw [List.drop_drop, ← hsize] at hread
    exact hread ▸ .ok header hpass hfits
  · have hinside := hpass.text_inside
    exact hflags.2 (by omega) ▸ .crashed hpass (Nat.not_le.mp hfits)

end MessageHeader

namespace ArchiveIndex

/-- A header that reading a block inserted, with how many bytes its entry declared for it and how
many were read for it. -/
structure Inserted where
  declared : Nat
  taken : Nat
  header : MessageHeader

/-- The length the entry at the front of some bytes declares. -/
def tlvLengthAt (data : Bytes) : Nat := (Scalar.decode (data.drop 4) : UInt32).toNat

/-- The headers that reading a block inserts, also before a null pointer. -/
def insertedOf : Nat → Bytes → List Inserted
  | 0, _ => []
  | fuel + 1, data =>
    if data.length < 8 ∨ data.length < tlvLengthAt data then []
    else
      match MessageHeader.unserialize (data.drop 8) with
      | .ok (header, rest) =>
        { declared := tlvLengthAt data, taken := data.length - 8 - rest.length, header } ::
          insertedOf fuel rest
      | .refused => []
      | .crashed => []

/-- Every read finds its bytes, and what is inserted was read from the bytes its entry declares. -/
structure ReadsInside (currentTime : Int) (s : ArchiveIndex) (fuel : Nat) (data : Bytes) :
    Prop where
  found : unserializeBlock currentTime fuel s data ≠ none
  declared : ∀ i ∈ insertedOf fuel data, i.taken ≤ i.declared

/-- The entry at the front gets through every check. -/
structure Accepted (data : Bytes) : Prop where
  head : 8 ≤ data.length
  tlv : tlvLengthAt data ≤ data.length
  header : MessageHeader.Passes (data.drop 8)

/-- Each entry that gets through the checks has the bytes its header reads, and declares them. -/
inductive WellSized : Bytes → Prop where
  | rejected {data : Bytes} (h : ¬ Accepted data) : WellSized data
  | accepted {data : Bytes} (h : Accepted data)
    (inside : MessageHeader.sizeAt (data.drop 8) ≤ data.length - 8)
    (declared : MessageHeader.sizeAt (data.drop 8) ≤ tlvLengthAt data)
    (rest : WellSized (data.drop (8 + MessageHeader.sizeAt (data.drop 8)))) : WellSized data

variable {currentTime : Int} {fuel : Nat} {s s' : ArchiveIndex} {data : Bytes}

/-- What one round of the loop does. -/
theorem unserializeBlock_step (currentTime : Int) (fuel : Nat) (s : ArchiveIndex) (data : Bytes) :
    (¬ Accepted data ∧ (∃ ok, unserializeBlock currentTime (fuel + 1) s data = some (ok, s)) ∧
      insertedOf (fuel + 1) data = []) ∨
    (Accepted data ∧ MessageHeader.sizeAt (data.drop 8) ≤ data.length - 8 ∧ ∃ header,
      unserializeBlock currentTime (fuel + 1) s data =
        unserializeBlock currentTime fuel (s.insertHeader header currentTime).1
          (data.drop (8 + MessageHeader.sizeAt (data.drop 8))) ∧
      insertedOf (fuel + 1) data =
        { declared := tlvLengthAt data, taken := MessageHeader.sizeAt (data.drop 8), header } ::
          insertedOf fuel (data.drop (8 + MessageHeader.sizeAt (data.drop 8)))) ∨
    (Accepted data ∧ data.length - 8 < MessageHeader.sizeAt (data.drop 8) ∧
      unserializeBlock currentTime (fuel + 1) s data = none ∧ insertedOf (fuel + 1) data = []) := by
  have hdrop (n : Nat) : (data.drop n).length = data.length - n := List.length_drop
  by_cases h8 : data.length < 8
  · refine .inl ⟨fun h => Nat.not_le.mpr h8 h.head, ?_, if_pos (.inl h8)⟩
    unfold unserializeBlock
    split
    · exact ⟨_, rfl⟩
    · exact ⟨_, rfl⟩
  by_cases htlv : data.length < tlvLengthAt data
  · refine .inl ⟨fun h => Nat.not_le.mpr htlv h.tlv, ?_, if_pos (.inr htlv)⟩
    unfold unserializeBlock
    rw [if_neg (by omega), if_neg h8]
    exact ⟨_, if_pos htlv⟩
  have hblock : unserializeBlock currentTime (fuel + 1) s data =
      match MessageHeader.unserialize (data.drop 8) with
      | .ok (header, rest) =>
        unserializeBlock currentTime fuel (s.insertHeader header currentTime).1 rest
      | .refused => some (false, s)
      | .crashed => none := by
    rw [unserializeBlock, if_neg (by omega), if_neg h8]
    exact if_neg htlv
  have hinserted : insertedOf (fuel + 1) data =
      match MessageHeader.unserialize (data.drop 8) with
      | .ok (header, rest) =>
        { declared := tlvLengthAt data, taken := data.length - 8 - rest.length, header } ::
          insertedOf fuel rest
      | .refused => []
      | .crashed => [] := if_neg (not_or.mpr ⟨h8, htlv⟩)
  have accepted (h : MessageHeader.Passes (data.drop 8)) : Accepted data :=
    ⟨Nat.not_lt.mp h8, Nat.not_lt.mp htlv, h⟩
  rw [hblock, hinserted]
  have hread := MessageHeader.unserialize_readsTo (data.drop 8)
  generalize MessageHeader.unserialize (data.drop 8) = outcome at hread
  cases hread with
  | refused h => exact .inl ⟨fun ha => h ha.header, ⟨_, rfl⟩, rfl⟩
  | ok header h hsize =>
    rw [hdrop] at hsize
    refine .inr (.inl ⟨accepted h, hsize, header, ?_, ?_⟩)
    · rw [List.drop_drop]
    · have htaken : data.length - 8 - (data.length - (8 + MessageHeader.sizeAt (data.drop 8))) =
          MessageHeader.sizeAt (data.drop 8) := by omega
      simp only [List.drop_drop, hdrop, htaken]
  | crashed h hsize =>
    rw [hdrop] at hsize
    exact .inr (.inr ⟨accepted h, hsize, rfl, rfl⟩)

/-- What reading a block makes of the index are the insertions of the headers it read. -/
theorem unserializeBlock_inserted {ok : Bool}
    (h : unserializeBlock currentTime fuel s data = some (ok, s')) :
    s' = s.insertHeaders ((insertedOf fuel data).map fun i => (i.header, currentTime)) := by
  induction fuel generalizing s data with
  | zero =>
    simp only [unserializeBlock, Option.some.injEq, Prod.mk.injEq] at h
    exact h.2.symm
  | succ fuel ih =>
    rcases unserializeBlock_step currentTime fuel s data with
      ⟨-, ⟨ok', hblock⟩, hnil⟩ | ⟨-, -, header, hblock, hcons⟩ | ⟨-, -, hblock, -⟩
    · rw [hblock, Option.some.injEq, Prod.mk.injEq] at h
      rw [hnil, ← h.2]
      rfl
    · rw [hblock] at h
      rw [hcons]
      exact ih h
    · cases hblock.symm.trans h

/-- A block is read inside its bytes and the declared lengths as long as each entry that gets
through the checks leaves the header the bytes it reads, and declares them. -/
theorem readsInside_iff_wellSized (hf : data.length < fuel) :
    ReadsInside currentTime s fuel data ↔ WellSized data := by
  induction fuel generalizing s data with
  | zero => exact absurd hf (Nat.not_lt_zero _)
  | succ fuel ih =>
    rcases unserializeBlock_step currentTime fuel s data with
      ⟨hacc, ⟨ok, hblock⟩, hnil⟩ | ⟨hacc, hsize, header, hblock, hcons⟩ | ⟨hacc, hsize, hblock, -⟩
    · refine ⟨fun _ => .rejected hacc, fun _ => ⟨?_, ?_⟩⟩
      · rw [hblock]
        exact Option.some_ne_none _
      · rw [hnil]
        exact fun i hi => absurd hi List.not_mem_nil
    · have hshort : (data.drop (8 + MessageHeader.sizeAt (data.drop 8))).length < fuel := by
        have := hacc.head
        rw [List.length_drop]
        omega
      have hrest := ih (s := (s.insertHeader header currentTime).1) hshort
      constructor
      · intro h
        have hdeclared := h.declared
        rw [hcons] at hdeclared
        obtain ⟨hfirst, hothers⟩ := List.forall_mem_cons.mp hdeclared
        exact .accepted hacc hsize hfirst (hrest.mp ⟨hblock ▸ h.found, hothers⟩)
      · intro h
        cases h with
        | rejected hn => exact absurd hacc hn
        | accepted _ _ hfirst htail =>
          have hinside := hrest.mpr htail
          refine ⟨hblock ▸ hinside.found, ?_⟩
          rw [hcons]
          exact List.forall_mem_cons.mpr ⟨hfirst, hinside.declared⟩
    · constructor
      · exact fun h => absurd hblock h.found
      · intro h
        cases h with
        | rejected hn => exact absurd hacc hn
        | accepted _ hinside _ _ => exact absurd hinside (Nat.not_le.mpr hsize)

theorem unserializeBlock_readsInside (currentTime : Int) (s : ArchiveIndex) (data : Bytes) :
    ReadsInside currentTime s (data.length + 1) data ↔ WellSized data :=
  readsInside_iff_wellSized (Nat.lt_succ_self _)

/-- The header of message 1, written for a version that knows threads; its patch text takes the
five bytes behind it. -/
def patchTakesFlags : Bytes :=
  Scalar.encode (1 : UInt32) ++ Scalar.encode (50 : UInt32) ++ Scalar.encode (6 : UInt8) ++
    Scalar.encode (0 : UInt32) ++ Scalar.encode (0 : UInt64) ++ Scalar.encode (1 : Int64) ++
    Scalar.encode (-1 : Int64) ++ Scalar.encode (-1 : Int64) ++ Scalar.encode (0 : UInt32) ++
    Scalar.encode (5 : UInt32) ++ [48, 48, 48, 48, 48]

/-- A whole header behind an entry that declares no bytes. -/
def declaresNothing : Bytes :=
  Scalar.encode (1 : UInt32) ++ Scalar.encode (0 : UInt32) ++
    MessageHeader.serialize { id := 1, version := 0, prevId := -1 }

/-- The damaged blocks end at a null pointer, and with a header read from outside its entry. -/
theorem readsInside_damaged :
    ¬ ReadsInside 0 {} (patchTakesFlags.length + 1) patchTakesFlags ∧
      ¬ ReadsInside 0 {} (declaresNothing.length + 1) declaresNothing := by
  constructor
  · intro h
    exact h.found rfl
  · intro h
    have hfirst : ∃ i ∈ insertedOf (declaresNothing.length + 1) declaresNothing,
        i.taken = 41 ∧ i.declared = 0 := ⟨_, List.mem_cons_self, rfl, rfl⟩
    obtain ⟨i, hi, htaken, hdeclared⟩ := hfirst
    have := h.declared i hi
    omega

end ArchiveIndex

end Icq.Archive
