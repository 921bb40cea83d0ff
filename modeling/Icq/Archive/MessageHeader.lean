import Icq.Common.PatchVersion

namespace Icq.Archive
open Icq.Lib Icq.Common

/-- The bits of a message's flag word, low bit first. -/
@[ext] structure MessageFlags where
  unused0 : Bool := false
  unread : Bool := false
  outgoing : Bool := false
  invisible : Bool := false
  patch : Bool := false
  deleted : Bool := false
  modified : Bool := false
  updated : Bool := false
  clear : Bool := false
  restoredPatch : Bool := false
  rest : BitVec 22 := 0
deriving DecidableEq

namespace MessageFlags

def value (f : MessageFlags) : UInt32 :=
  UInt32.ofNat (f.unused0.toNat + 2 * f.unread.toNat + 4 * f.outgoing.toNat + 8 * f.invisible.toNat
    + 16 * f.patch.toNat + 32 * f.deleted.toNat + 64 * f.modified.toNat + 128 * f.updated.toNat
    + 256 * f.clear.toNat + 512 * f.restoredPatch.toNat + 1024 * f.rest.toNat)

def ofValue (v : UInt32) : MessageFlags :=
  let bit (i : Nat) : Bool := decide (v.toNat / i % 2 = 1)
  { unused0 := bit 1, unread := bit 2, outgoing := bit 4, invisible := bit 8
    patch := bit 16, deleted := bit 32, modified := bit 64, updated := bit 128
    clear := bit 256, restoredPatch := bit 512, rest := BitVec.ofNat 22 (v.toNat / 1024) }

theorem bit_toNat {b : Bool} {n : Nat} (h : n % 2 = b.toNat) : decide (n % 2 = 1) = b := by
  cases b <;> simp_all

@[simp] theorem ofValue_value (f : MessageFlags) : ofValue f.value = f := by
  obtain ⟨u0, ur, og, iv, pa, de, mo, up, cl, rp, rs⟩ := f
  have hrs := rs.isLt
  have h0 := Bool.toNat_le u0
  have h1 := Bool.toNat_le ur
  have h2 := Bool.toNat_le og
  have h3 := Bool.toNat_le iv
  have h4 := Bool.toNat_le pa
  have h5 := Bool.toNat_le de
  have h6 := Bool.toNat_le mo
  have h7 := Bool.toNat_le up
  have h8 := Bool.toNat_le cl
  have h9 := Bool.toNat_le rp
  have hv : (value ⟨u0, ur, og, iv, pa, de, mo, up, cl, rp, rs⟩).toNat =
      u0.toNat + 2 * ur.toNat + 4 * og.toNat + 8 * iv.toNat + 16 * pa.toNat + 32 * de.toNat
        + 64 * mo.toNat + 128 * up.toNat + 256 * cl.toNat + 512 * rp.toNat + 1024 * rs.toNat := by
    simp only [value, UInt32.toNat_ofNat']
    omega
  simp only [ofValue, hv, mk.injEq]
  refine ⟨?_, ?_, ?_, ?_, ?_, ?_, ?_, ?_, ?_, ?_, ?_⟩
  case refine_11 =>
    apply BitVec.eq_of_toNat_eq
    rw [BitVec.toNat_ofNat]
    omega
  all_goals
    apply bit_toNat
    omega

end MessageFlags

/-- The newest header format the code reads and writes. -/
def headerVersion : UInt8 := 6

/-- One entry of the index: where a message lies in the data file and what is known about it. -/
@[ext] structure MessageHeader where
  id : Int64 := -1
  version : UInt8 := headerVersion
  flags : MessageFlags := {}
  time : UInt64 := 0
  prevId : Int64 := -1
  dataOffset : Int64 := -1
  dataSize : UInt32 := 0
  updatePatchVersion : PatchVersion := {}
  hasSharedContactWithSn : Bool := false
  hasPollWithId : Bool := false
  hasTaskWithId : Bool := false
  hasReactions : Bool := false
  hasThread : Bool := false
  modifications : List MessageHeader := []

namespace MessageHeader

def isDeleted (h : MessageHeader) : Bool := h.flags.deleted

def isRestoredPatch (h : MessageHeader) : Bool := h.flags.restoredPatch

def isModified (h : MessageHeader) : Bool := h.flags.modified

def isUpdated (h : MessageHeader) : Bool := h.flags.updated

def isPatch (h : MessageHeader) : Bool := h.flags.patch

def isOutgoing (h : MessageHeader) : Bool := h.flags.outgoing

def setPrevMsgid (h : MessageHeader) (v : Int64) : MessageHeader := { h with prevId := v }

theorem setPrevMsgid_self (h : MessageHeader) : h.setPrevMsgid h.prevId = h := by
  cases h
  rfl

/-- `merge_with` keeps a patch of the same message as a modification. -/
def keepsModification (rhs : MessageHeader) : Bool :=
  (rhs.isModified || rhs.isUpdated) && rhs.isPatch

/-- The flag word after a merge, from the two flag words before it. -/
def mergeFlags (f rhs : MessageFlags) : MessageFlags :=
  let resetPatchFlag := (!f.patch || !rhs.patch) || (f.deleted && !rhs.deleted)
  let setDeletedFlag := f.deleted && rhs.deleted
  let setModifiedFlag := f.modified
  let setUpdatedFlag := f.updated
  let setRestoredPatchFlag := (f.deleted && !rhs.deleted) || f.restoredPatch
  { rhs with
    patch := if resetPatchFlag then false else rhs.patch
    deleted := if setDeletedFlag then true else rhs.deleted
    modified := if setModifiedFlag then true else rhs.modified
    updated := if setUpdatedFlag && rhs.patch then true else rhs.updated
    restoredPatch := if setRestoredPatchFlag then true else rhs.restoredPatch }

/-- Fold a newer header of the same message into this one. -/
def mergeWith (h rhs : MessageHeader) : MessageHeader :=
  let updateOffset := rhs.dataOffset != -1 && !rhs.isPatch
  let updatePrevId := rhs.prevId != -1
  { h with
    modifications := if rhs.keepsModification then h.modifications ++ [rhs] else h.modifications
    version := rhs.version
    time := rhs.time
    hasSharedContactWithSn := rhs.hasSharedContactWithSn
    hasPollWithId := rhs.hasPollWithId
    hasTaskWithId := rhs.hasTaskWithId
    hasReactions := rhs.hasReactions
    hasThread := rhs.hasThread
    dataOffset := if updateOffset then rhs.dataOffset else h.dataOffset
    dataSize := if updateOffset then rhs.dataSize else h.dataSize
    prevId := if updatePrevId || !rhs.isPatch then rhs.prevId else h.prevId
    flags := mergeFlags h.flags rhs.flags
    updatePatchVersion :=
      if PatchVersion.lessThan h.updatePatchVersion rhs.updatePatchVersion then
        rhs.updatePatchVersion
      else h.updatePatchVersion }

section Merge

variable (h rhs : MessageHeader)

@[simp] theorem mergeWith_id : (h.mergeWith rhs).id = h.id := rfl

@[simp] theorem mergeWith_flags : (h.mergeWith rhs).flags = mergeFlags h.flags rhs.flags := rfl

theorem mergeWith_modifications : (h.mergeWith rhs).modifications =
    if rhs.keepsModification then h.modifications ++ [rhs] else h.modifications := rfl

theorem mergeWith_prevId : (h.mergeWith rhs).prevId =
    if rhs.prevId != -1 || !rhs.isPatch then rhs.prevId else h.prevId := rfl

theorem mergeWith_dataOffset : (h.mergeWith rhs).dataOffset =
    if rhs.dataOffset != -1 && !rhs.isPatch then rhs.dataOffset else h.dataOffset := rfl

theorem mergeWith_dataSize : (h.mergeWith rhs).dataSize =
    if rhs.dataOffset != -1 && !rhs.isPatch then rhs.dataSize else h.dataSize := rfl

theorem mergeWith_updatePatchVersion : (h.mergeWith rhs).updatePatchVersion =
    if PatchVersion.lessThan h.updatePatchVersion rhs.updatePatchVersion then
      rhs.updatePatchVersion
    else h.updatePatchVersion := rfl

@[simp] theorem mergeFlags_deleted (f g : MessageFlags) : (mergeFlags f g).deleted = g.deleted := by
  simp only [mergeFlags]
  cases f.deleted <;> cases g.deleted <;> rfl

@[simp] theorem mergeFlags_patch (f g : MessageFlags) :
    (mergeFlags f g).patch = (f.patch && g.patch && !(f.deleted && !g.deleted)) := by
  simp only [mergeFlags]
  cases f.patch <;> cases g.patch <;> cases f.deleted <;> cases g.deleted <;> rfl

@[simp] theorem mergeFlags_modified (f g : MessageFlags) :
    (mergeFlags f g).modified = (f.modified || g.modified) := by
  simp only [mergeFlags]
  cases f.modified <;> rfl

@[simp] theorem mergeFlags_updated (f g : MessageFlags) :
    (mergeFlags f g).updated = ((f.updated && g.patch) || g.updated) := by
  simp only [mergeFlags]
  cases f.updated <;> cases g.patch <;> rfl

@[simp] theorem mergeFlags_restoredPatch (f g : MessageFlags) :
    (mergeFlags f g).restoredPatch = ((f.deleted && !g.deleted) || f.restoredPatch || g.restoredPatch) := by
  simp only [mergeFlags]
  cases f.deleted <;> cases g.deleted <;> cases f.restoredPatch <;> rfl

@[simp] theorem mergeFlags_outgoing (f g : MessageFlags) : (mergeFlags f g).outgoing = g.outgoing :=
  rfl

end Merge

end MessageHeader

end Icq.Archive
