import Icq.Archive.MessageHeader
import Icq.Lib.Parser
import Icq.Lib.KeyMap

namespace Icq.Archive
open Icq.Lib Icq.Common

namespace MessageHeader

/-- How many bytes a header of a version takes, not counting its patch text. -/
def minDataSizeof (version : UInt8) : Nat :=
  let version0 := 1 + 4 + 8 + 8 + 8 + 8 + 4
  let version1 := version0 + 4
  if version = 0 then version0
  else if version = 1 then version1
  else if version = 2 then version1 + 1
  else if version = 3 then version1 + 2
  else if version = 4 then version1 + 3
  else if version = 5 then version1 + 4
  else if version = 6 then version1 + 5
  else version0

def writeIf {α : Type} [Scalar α] (c : Bool) (a : α) : Bytes := if c then Scalar.encode a else []

/-- The patch text, cut to the 32 bits of its length. -/
def storedText (h : MessageHeader) : Bytes :=
  if 0 < h.version then
    h.updatePatchVersion.versionString.take
      (UInt32.ofNat h.updatePatchVersion.versionString.length).toNat
  else []

def serializePatch (h : MessageHeader) : Bytes :=
  if 0 < h.version then
    Scalar.encode (UInt32.ofNat h.updatePatchVersion.versionString.length) ++ h.storedText
  else []

/-- The bytes of a header. Its modifications are not among them. -/
def serialize (h : MessageHeader) : Bytes :=
  Scalar.encode h.version ++ (Scalar.encode h.flags.value ++ (Scalar.encode h.time ++
    (Scalar.encode h.id ++ (Scalar.encode h.prevId ++ (Scalar.encode h.dataOffset ++
      (Scalar.encode h.dataSize ++ (h.serializePatch ++
        (writeIf (1 < h.version) h.hasSharedContactWithSn ++
          (writeIf (2 < h.version) h.hasPollWithId ++
            (writeIf (3 < h.version) h.hasReactions ++
              (writeIf (4 < h.version) h.hasTaskWithId ++
                writeIf (5 < h.version) h.hasThread)))))))))))

def unserializePatch (version : UInt8) : Parser PatchVersion :=
  if 0 < version then do
    let patchLength ← Parser.take UInt32
    if 0 < patchLength then do
      Parser.need patchLength.toNat
      let text ← Parser.takeBytes patchLength.toNat
      pure { versionString := text }
    else pure {}
  else pure {}

/-- Read a header over a new one. The length of the patch text is checked, what follows it is
not. -/
def unserialize : Parser MessageHeader := do
  Parser.need 1
  let version ← Parser.take UInt8
  Parser.refuseIf (headerVersion < version)
  Parser.need (minDataSizeof version - 1)
  let flags ← Parser.take UInt32
  let time ← Parser.take UInt64
  let id ← Parser.take Int64
  Parser.refuseIf (id ≤ 0)
  let prevId ← Parser.take Int64
  let dataOffset ← Parser.take Int64
  let dataSize ← Parser.take UInt32
  let updatePatchVersion ← unserializePatch version
  let hasSharedContactWithSn ← Parser.takeIf (1 < version) false
  let hasPollWithId ← Parser.takeIf (2 < version) false
  let hasReactions ← Parser.takeIf (3 < version) false
  let hasTaskWithId ← Parser.takeIf (4 < version) false
  let hasThread ← Parser.takeIf (5 < version) false
  pure
    { id, version, flags := .ofValue flags, time, prevId, dataOffset, dataSize, updatePatchVersion
      hasSharedContactWithSn, hasPollWithId, hasTaskWithId, hasReactions, hasThread }

/-- What a version of the format keeps of a header. -/
def stored (h : MessageHeader) : MessageHeader :=
  { h with
    updatePatchVersion := { versionString := h.storedText }
    hasSharedContactWithSn := decide (1 < h.version) && h.hasSharedContactWithSn
    hasPollWithId := decide (2 < h.version) && h.hasPollWithId
    hasReactions := decide (3 < h.version) && h.hasReactions
    hasTaskWithId := decide (4 < h.version) && h.hasTaskWithId
    hasThread := decide (5 < h.version) && h.hasThread
    modifications := [] }

theorem length_writeIf (c : Bool) (b : Bool) : (writeIf c b).length = if c then 1 else 0 := by
  cases c
  · rfl
  · simp [writeIf, Scalar.width]

theorem length_storedText_le (h : MessageHeader) : h.storedText.length ≤ 2 ^ 32 - 1 := by
  unfold storedText
  split
  · have := (UInt32.ofNat h.updatePatchVersion.versionString.length).toNat_lt
    rw [List.length_take]
    omega
  · simp

theorem takeIf_writeIf {c : Bool} (b : Bool) (rest : Bytes) :
    Parser.takeIf c false (writeIf c b ++ rest) = .ok (c && b, rest) := by
  cases c
  · rfl
  · simp only [Parser.takeIf, writeIf, if_true, Parser.take_encode, Bool.true_and]

theorem unserializePatch_serializePatch (h : MessageHeader) (rest : Bytes) :
    unserializePatch h.version (h.serializePatch ++ rest) =
      .ok ({ versionString := h.storedText }, rest) := by
  unfold unserializePatch serializePatch
  by_cases hv : 0 < h.version
  · have htext : h.storedText.length =
        (UInt32.ofNat h.updatePatchVersion.versionString.length).toNat := by
      rw [storedText, if_pos hv, List.length_take, UInt32.toNat_ofNat']
      exact Nat.min_eq_left (Nat.mod_le _ _)
    generalize UInt32.ofNat h.updatePatchVersion.versionString.length = n at htext ⊢
    rw [if_pos hv, if_pos hv, List.append_assoc, Parser.bind_ok (Parser.take_encode n _)]
    by_cases hn : 0 < n
    · have h0 : n.toNat ≠ 0 := by
        rw [UInt32.lt_iff_toNat_lt] at hn
        exact Nat.ne_of_gt hn
      rw [if_pos hn, Parser.bind_ok (Parser.need_ok (by simp [htext])),
        Parser.bind_ok (Parser.takeBytes_append htext h0)]
      rfl
    · have h0 : n.toNat = 0 := by
        rw [UInt32.lt_iff_toNat_lt] at hn
        exact Nat.eq_zero_of_not_pos hn
      have hnil : h.storedText = [] := List.length_eq_zero_iff.mp (htext.trans h0)
      rw [if_neg hn, hnil]
      rfl
  · rw [if_neg hv, if_neg hv, storedText, if_neg hv]
    rfl

theorem version_cases {v : UInt8} (h : v ≤ headerVersion) :
    v = 0 ∨ v = 1 ∨ v = 2 ∨ v = 3 ∨ v = 4 ∨ v = 5 ∨ v = 6 := by
  have hn : v.toNat ≤ 6 := h
  simp only [← UInt8.toNat_inj]
  have : (0 : UInt8).toNat = 0 ∧ (1 : UInt8).toNat = 1 ∧ (2 : UInt8).toNat = 2 ∧
      (3 : UInt8).toNat = 3 ∧ (4 : UInt8).toNat = 4 ∧ (5 : UInt8).toNat = 5 ∧
      (6 : UInt8).toNat = 6 := by decide
  omega

/-- What follows the version byte. -/
def serializeBody (h : MessageHeader) : Bytes :=
  Scalar.encode h.flags.value ++ (Scalar.encode h.time ++ (Scalar.encode h.id ++
    (Scalar.encode h.prevId ++ (Scalar.encode h.dataOffset ++ (Scalar.encode h.dataSize ++
      (h.serializePatch ++ (writeIf (1 < h.version) h.hasSharedContactWithSn ++
        (writeIf (2 < h.version) h.hasPollWithId ++ (writeIf (3 < h.version) h.hasReactions ++
          (writeIf (4 < h.version) h.hasTaskWithId ++
            writeIf (5 < h.version) h.hasThread))))))))))

theorem serialize_eq (h : MessageHeader) :
    h.serialize = Scalar.encode h.version ++ h.serializeBody := rfl

/-- A written header is long enough for its version. -/
theorem minDataSizeof_le {h : MessageHeader} (hv : h.version ≤ headerVersion) :
    minDataSizeof h.version - 1 ≤ h.serializeBody.length := by
  have hp : (if 0 < h.version then 4 else 0) ≤ h.serializePatch.length := by
    unfold serializePatch
    split
    · simp [Scalar.width]
    · exact Nat.le_refl _
  simp only [serializeBody, List.length_append, Scalar.length_encode, length_writeIf, Scalar.width]
  rcases version_cases hv with h0 | h0 | h0 | h0 | h0 | h0 | h0
  all_goals
    rw [h0] at hp ⊢
    simp only [minDataSizeof] at hp ⊢
    simp at hp ⊢
    omega

/-- Reading a written header gives what its version keeps of it. -/
theorem unserialize_serialize {h : MessageHeader} (hv : h.version ≤ headerVersion) (hid : 0 < h.id)
    (rest : Bytes) : unserialize (h.serialize ++ rest) = .ok (h.stored, rest) := by
  have hver : decide (headerVersion < h.version) = false := decide_eq_false (UInt8.not_lt.mpr hv)
  have hpos : decide (h.id ≤ 0) = false := decide_eq_false (not_le.mpr hid)
  have hmin : minDataSizeof h.version - 1 ≤ (h.serializeBody ++ rest).length := by
    have := minDataSizeof_le hv
    rw [List.length_append]
    omega
  rw [serialize_eq, List.append_assoc]
  unfold unserialize
  rw [Parser.bind_ok (Parser.need_ok (by simp [Scalar.width])),
    Parser.bind_ok (Parser.take_encode _ _), hver, Parser.bind_ok (Parser.refuseIf_false _),
    Parser.bind_ok (Parser.need_ok hmin)]
  simp only [serializeBody, List.append_assoc]
  rw [Parser.bind_ok (Parser.take_encode _ _), Parser.bind_ok (Parser.take_encode _ _),
    Parser.bind_ok (Parser.take_encode _ _), hpos, Parser.bind_ok (Parser.refuseIf_false _),
    Parser.bind_ok (Parser.take_encode _ _), Parser.bind_ok (Parser.take_encode _ _),
    Parser.bind_ok (Parser.take_encode _ _),
    Parser.bind_ok (unserializePatch_serializePatch h _), Parser.bind_ok (takeIf_writeIf _ _),
    Parser.bind_ok (takeIf_writeIf _ _), Parser.bind_ok (takeIf_writeIf _ _),
    Parser.bind_ok (takeIf_writeIf _ _), Parser.bind_ok (takeIf_writeIf _ _),
    MessageFlags.ofValue_value]
  rfl

/-- What a read header has of the written one beside the patch text, as far as the version stores
it. -/
structure SameBesidePatch (h read : MessageHeader) : Prop where
  version : read.version = h.version
  flags : read.flags = h.flags
  time : read.time = h.time
  id : read.id = h.id
  prevId : read.prevId = h.prevId
  dataOffset : read.dataOffset = h.dataOffset
  dataSize : read.dataSize = h.dataSize
  sharedContact : 1 < h.version → read.hasSharedContactWithSn = h.hasSharedContactWithSn
  poll : 2 < h.version → read.hasPollWithId = h.hasPollWithId
  reactions : 3 < h.version → read.hasReactions = h.hasReactions
  task : 4 < h.version → read.hasTaskWithId = h.hasTaskWithId
  thread : 5 < h.version → read.hasThread = h.hasThread

/-- Every field that the version stores. -/
structure SameStored (h read : MessageHeader) : Prop extends SameBesidePatch h read where
  patch : 0 < h.version →
    read.updatePatchVersion.versionString = h.updatePatchVersion.versionString

theorem storedText_eq_iff {h : MessageHeader} (hv : 0 < h.version) :
    h.storedText = h.updatePatchVersion.versionString ↔
      h.updatePatchVersion.versionString.length < 2 ^ 32 := by
  have htaken : h.storedText = h.updatePatchVersion.versionString.take
      (h.updatePatchVersion.versionString.length % 2 ^ 32) := by
    rw [storedText, if_pos hv, UInt32.toNat_ofNat']
  constructor
  · intro heq
    have hle := length_storedText_le h
    rw [heq] at hle
    omega
  · intro hlt
    rw [htaken, Nat.mod_eq_of_lt hlt, List.take_length]

theorem sameBesidePatch_stored (h : MessageHeader) : SameBesidePatch h h.stored := by
  have hkept {c b : Bool} (hc : c = true) : (c && b) = b := by simp [hc]
  exact
    { version := rfl, flags := rfl, time := rfl, id := rfl, prevId := rfl, dataOffset := rfl
      dataSize := rfl
      sharedContact := fun hv => hkept (decide_eq_true hv)
      poll := fun hv => hkept (decide_eq_true hv)
      reactions := fun hv => hkept (decide_eq_true hv)
      task := fun hv => hkept (decide_eq_true hv)
      thread := fun hv => hkept (decide_eq_true hv) }

/-- Of the stored fields only the patch text can come back changed: cut, when its length does not
fit 32 bits. -/
theorem sameStored_stored_iff (h : MessageHeader) : SameStored h h.stored ↔
    (0 < h.version → h.updatePatchVersion.versionString.length < 2 ^ 32) := by
  constructor
  · exact fun hsame hv => (storedText_eq_iff hv).mp (hsame.patch hv)
  · exact fun hshort =>
      ⟨sameBesidePatch_stored h, fun hv => (storedText_eq_iff hv).mpr (hshort hv)⟩

/-- A written header is read back, whatever its version and whatever follows it, and what was
written is used up. -/
theorem read_back {h : MessageHeader} (hv : h.version ≤ headerVersion) (hid : 0 < h.id)
    (rest : Bytes) :
    ∃ read, unserialize (h.serialize ++ rest) = .ok (read, rest) ∧
      SameBesidePatch h read ∧
      (SameStored h read ↔
        (0 < h.version → h.updatePatchVersion.versionString.length < 2 ^ 32)) ∧
      (0 < h.version → read.updatePatchVersion.versionString =
        h.updatePatchVersion.versionString.take
          (h.updatePatchVersion.versionString.length % 2 ^ 32)) := by
  refine ⟨h.stored, unserialize_serialize hv hid rest, sameBesidePatch_stored h,
    sameStored_stored_iff h, fun hv => ?_⟩
  show h.storedText = _
  rw [storedText, if_pos hv, UInt32.toNat_ofNat']

/-- Version 3 stores neither the reactions nor what came later. -/
def oldHeader : MessageHeader :=
  { id := 5, version := 3, prevId := 4, updatePatchVersion := { versionString := [49, 50] }
    hasPollWithId := true, hasReactions := true }

theorem read_back_oldHeader :
    ∃ read, unserialize (oldHeader.serialize ++ [9]) = .ok (read, [9]) ∧
      SameStored oldHeader read := by
  obtain ⟨read, hread, -, hsame, -⟩ :=
    read_back (show oldHeader.version ≤ headerVersion by decide) (by decide) [9]
  exact ⟨read, hread, hsame.mpr fun _ => by decide⟩

/-- A patch text of 4 GiB comes back empty. -/
theorem long_patch_cut :
    ¬ ∀ (h : MessageHeader) (rest : Bytes), h.version ≤ headerVersion → 0 < h.id →
      ∃ read, unserialize (h.serialize ++ rest) = .ok (read, rest) ∧ SameStored h read := by
  intro hall
  obtain ⟨read, hread, hsame⟩ := hall
    { id := 1, updatePatchVersion := { versionString := List.replicate (2 ^ 32) 48 } } []
    (by decide) (by decide)
  rw [unserialize_serialize (by decide) (by decide)] at hread
  obtain ⟨rfl, -⟩ := Prod.mk.inj (Outcome.ok.inj hread)
  have hshort := (sameStored_stored_iff _).mp hsame (by decide)
  rw [List.length_replicate] at hshort
  exact Nat.lt_irrefl _ hshort

end MessageHeader

end Icq.Archive
