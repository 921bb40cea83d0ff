import Icq.Archive.Compaction

namespace Icq.Archive
open Icq.Lib Icq.Tools Icq.Common MessageHeader ArchiveIndex

/-- What the index knows of a message, leaving out its time and the version of its format. -/
def indexed (h : MessageHeader) : MessageHeader := { h.view with time := 0, version := 0 }

/-- The marks of a header that a merge takes over from the newer side. -/
def marks (h : MessageHeader) : MessageFlags × Bool × Bool × Bool × Bool × Bool :=
  ({ h.flags with patch := false, modified := false, updated := false, restoredPatch := false },
    h.hasSharedContactWithSn, h.hasPollWithId, h.hasTaskWithId, h.hasReactions, h.hasThread)

/-- The format keeps the patch text of the header. -/
def KeepsText (h : MessageHeader) : Prop :=
  h.updatePatchVersion.versionString = [] ∨
    (0 < h.version ∧ h.updatePatchVersion.versionString.length < 2 ^ 32)

/-- Saving and loading gives the header back: it is flagged as modified if it has modifications,
and merging these into it once more gives it the marks, link and version it has already. -/
structure SurvivesSave (e : MessageHeader) : Prop where
  flagged : e.modifications ≠ [] → e.isModified = true
  texts : ∀ m ∈ e.modifications, KeepsText m
  text : KeepsText e ∨ ∃ m ∈ e.modifications,
    m.updatePatchVersion.versionString = e.updatePatchVersion.versionString
  last : ∀ m, e.modifications.getLast? = some m → marks m = marks e
  link : ∀ m, (e.modifications.filter (fun m => m.prevId != -1)).getLast? = some m →
    m.prevId = e.prevId
  updated : ∀ m ∈ e.modifications, m.isUpdated = true → e.isUpdated = true
  restored : ∀ m ∈ e.modifications, m.isRestoredPatch = true → e.isRestoredPatch = true
  deleted : ∀ m ∈ e.modifications, m.isDeleted ≠ e.isDeleted →
    e.isPatch = false ∧ e.isRestoredPatch = true

theorem storedText_eq_iff (h : MessageHeader) :
    h.storedText = h.updatePatchVersion.versionString ↔ KeepsText h := by
  unfold storedText KeepsText
  by_cases hv : 0 < h.version
  · rw [if_pos hv, UInt32.toNat_ofNat']
    constructor
    · intro he
      have hlen := congrArg List.length he
      rw [List.length_take] at hlen
      exact Or.inr ⟨hv, by omega⟩
    · rintro (he | ⟨_, hl⟩)
      · simp [he]
      · rw [Nat.mod_eq_of_lt hl, List.take_length]
  · rw [if_neg hv]
    constructor
    · exact fun he => Or.inl he.symm
    · rintro (he | ⟨h', _⟩)
      · exact he.symm
      · exact absurd h' hv

theorem BitsFit.stored_marks {h : MessageHeader} (hb : BitsFit h) : marks h.stored = marks h := by
  have hand : ∀ {b : Bool} {n : UInt8}, (b = true → n < h.version) →
      (decide (n < h.version) && b) = b := by
    intro b n hn
    cases b with
    | false => rw [Bool.and_false]
    | true => rw [decide_eq_true (hn rfl), Bool.and_self]
  unfold marks stored
  simp only [hand hb.sharedContact, hand hb.poll, hand hb.reactions, hand hb.task, hand hb.thread]

theorem BitsFit.stored_eq_flat {h : MessageHeader} (hb : BitsFit h) :
    h.stored = h.flat ↔ KeepsText h := by
  rw [← storedText_eq_iff]
  constructor
  · intro he
    exact congrArg (fun x => x.updatePatchVersion.versionString) he
  · intro ht
    have hm := hb.stored_marks
    simp only [marks, Prod.mk.injEq] at hm
    obtain ⟨_, h1, h2, h3, h4, h5⟩ := hm
    apply MessageHeader.ext
    case updatePatchVersion => exact congrArg (fun t => ({ versionString := t } : PatchVersion)) ht
    case hasSharedContactWithSn => exact h1
    case hasPollWithId => exact h2
    case hasTaskWithId => exact h3
    case hasReactions => exact h4
    case hasThread => exact h5
    all_goals rfl

section Fold

variable {ms : List MessageHeader} {e : MessageHeader}

/-- Some header of a run is not deleted though the one before it is. -/
def revives : Bool → List MessageHeader → Bool
  | _, [] => false
  | deleted, m :: ms => (deleted && !m.isDeleted) || revives m.isDeleted ms

abbrev mergeAll (e : MessageHeader) (ms : List MessageHeader) : MessageHeader :=
  ms.foldl mergeWith e

theorem mergeAll_modified (h : e.isModified = true) : (mergeAll e ms).isModified = true := by
  induction ms generalizing e with
  | nil => exact h
  | cons m ms ih =>
    apply ih
    change (mergeFlags e.flags m.flags).modified = true
    rw [mergeFlags_modified, show e.flags.modified = true from h, Bool.true_or]

theorem mergeAll_updated (hp : ∀ m ∈ ms, m.isPatch = true) :
    (mergeAll e ms).isUpdated = (e.isUpdated || ms.any isUpdated) := by
  induction ms generalizing e with
  | nil => simp
  | cons m ms ih =>
    have hm : (e.mergeWith m).isUpdated = (e.isUpdated || m.isUpdated) := by
      have h := mergeFlags_updated e.flags m.flags
      rw [show m.flags.patch = true from hp m List.mem_cons_self, Bool.and_true] at h
      exact h
    rw [mergeAll, List.foldl_cons, ih (fun x hx => hp x (List.mem_cons_of_mem _ hx)), hm,
      List.any_cons, Bool.or_assoc]

theorem mergeAll_patch (hp : ∀ m ∈ ms, m.isPatch = true) :
    (mergeAll e ms).isPatch = (e.isPatch && !revives e.isDeleted ms) := by
  induction ms generalizing e with
  | nil => simp [revives]
  | cons m ms ih =>
    have hm : (e.mergeWith m).isPatch = (e.isPatch && !(e.isDeleted && !m.isDeleted)) := by
      have h := mergeFlags_patch e.flags m.flags
      rw [show m.flags.patch = true from hp m List.mem_cons_self, Bool.and_true] at h
      exact h
    have hd : (e.mergeWith m).isDeleted = m.isDeleted := mergeFlags_deleted _ _
    rw [mergeAll, List.foldl_cons, ih (fun x hx => hp x (List.mem_cons_of_mem _ hx)), hm, hd,
      revives, Bool.not_or, Bool.and_assoc]

theorem mergeAll_restored :
    (mergeAll e ms).isRestoredPatch =
      (e.isRestoredPatch || (revives e.isDeleted ms || ms.any isRestoredPatch)) := by
  induction ms generalizing e with
  | nil => simp [revives]
  | cons m ms ih =>
    have hm : (e.mergeWith m).isRestoredPatch =
        ((e.isDeleted && !m.isDeleted) || e.isRestoredPatch || m.isRestoredPatch) :=
      mergeFlags_restoredPatch _ _
    have hd : (e.mergeWith m).isDeleted = m.isDeleted := mergeFlags_deleted _ _
    rw [mergeAll, List.foldl_cons, ih, hm, hd, revives, List.any_cons]
    cases e.isRestoredPatch <;> cases m.isRestoredPatch <;> cases e.isDeleted <;>
      cases m.isDeleted <;> simp

theorem mergeAll_prevId (hp : ∀ m ∈ ms, m.isPatch = true) :
    (mergeAll e ms).prevId =
      (((ms.filter (fun m => m.prevId != -1)).getLast?).map prevId).getD e.prevId := by
  induction ms generalizing e with
  | nil => rfl
  | cons m ms ih =>
    have hm : (e.mergeWith m).prevId = if m.prevId != -1 then m.prevId else e.prevId := by
      rw [mergeWith_prevId, hp m List.mem_cons_self, Bool.not_true, Bool.or_false]
    rw [mergeAll, List.foldl_cons, ih (fun x hx => hp x (List.mem_cons_of_mem _ hx)), hm]
    by_cases hprev : m.prevId = -1
    · simp [hprev]
    · have hb : (m.prevId != -1) = true := by simpa using hprev
      simp only [List.filter_cons, hb, if_true, List.getLast?_cons]
      cases (ms.filter (fun m => m.prevId != -1)).getLast? <;> rfl

theorem mergeAll_place (hp : ∀ m ∈ ms, m.isPatch = true) :
    (mergeAll e ms).dataOffset = e.dataOffset ∧ (mergeAll e ms).dataSize = e.dataSize := by
  induction ms generalizing e with
  | nil => exact ⟨rfl, rfl⟩
  | cons m ms ih =>
    obtain ⟨ho, hs⟩ := ih (e := e.mergeWith m) (fun x hx => hp x (List.mem_cons_of_mem _ hx))
    rw [mergeWith_dataOffset, hp m List.mem_cons_self] at ho
    rw [mergeWith_dataSize, hp m List.mem_cons_self] at hs
    exact ⟨by simpa using ho, by simpa using hs⟩

theorem mergeAll_modifications (hk : ∀ m ∈ ms, m.keepsModification = true) :
    (mergeAll e ms).modifications = e.modifications ++ ms := by
  induction ms generalizing e with
  | nil => simp
  | cons m ms ih =>
    rw [mergeAll, List.foldl_cons, ih (fun x hx => hk x (List.mem_cons_of_mem _ hx)),
      mergeWith_modifications, if_pos (hk m List.mem_cons_self)]
    simp

theorem mergeAll_marks : marks (mergeAll e ms) = marks (ms.getLast?.getD e) := by
  induction ms generalizing e with
  | nil => rfl
  | cons m ms ih =>
    have hm : marks (e.mergeWith m) = marks m := by
      have hd := mergeFlags_deleted e.flags m.flags
      unfold marks
      simp only [mergeWith_flags]
      congr 1
      apply MessageFlags.ext
      case deleted => exact hd
      all_goals rfl
    rw [mergeAll, List.foldl_cons, ih, List.getLast?_cons]
    cases ms.getLast? with
    | none => exact hm
    | some l => rfl

/-- The merged version is one of those merged, and none of these is newer. -/
theorem mergeAll_version (e : MessageHeader) (ms : List MessageHeader) :
    ((mergeAll e ms).updatePatchVersion = e.updatePatchVersion ∨
      ∃ m ∈ ms, (mergeAll e ms).updatePatchVersion = m.updatePatchVersion) ∧
    PatchVersion.lessThan (mergeAll e ms).updatePatchVersion e.updatePatchVersion = false ∧
    ∀ m ∈ ms, PatchVersion.lessThan (mergeAll e ms).updatePatchVersion m.updatePatchVersion = false := by
  induction ms generalizing e with
  | nil => exact ⟨Or.inl rfl, PatchVersion.lessThan_irrefl _, by simp⟩
  | cons m ms ih =>
    obtain ⟨hmem, hge, hall⟩ := ih (e.mergeWith m)
    have hstep := mergeWith_updatePatchVersion e m
    have he : PatchVersion.lessThan (e.mergeWith m).updatePatchVersion e.updatePatchVersion = false :=
      hstep ▸ not_lessThan_merge (Or.inl (PatchVersion.lessThan_irrefl _))
    have hm : PatchVersion.lessThan (e.mergeWith m).updatePatchVersion m.updatePatchVersion = false :=
      hstep ▸ not_lessThan_merge (Or.inr (PatchVersion.lessThan_irrefl _))
    refine ⟨?_, PatchVersion.not_textLess_trans hge he, ?_⟩
    · rcases hmem with h | ⟨x, hx, h⟩
      · rw [mergeAll, List.foldl_cons, h, hstep]
        split
        · exact Or.inr ⟨m, List.mem_cons_self, rfl⟩
        · exact Or.inl rfl
      · exact Or.inr ⟨x, List.mem_cons_of_mem _ hx, h⟩
    · intro x hx
      rcases List.mem_cons.mp hx with rfl | hx
      · exact PatchVersion.not_textLess_trans hge hm
      · exact hall x hx

theorem revives_deleted (h : revives true ms = false) : ∀ m ∈ ms, m.isDeleted = true := by
  induction ms with
  | nil => simp
  | cons m ms ih =>
    simp only [revives, Bool.true_and, Bool.or_eq_false_iff, Bool.not_eq_false'] at h
    intro x hx
    rcases List.mem_cons.mp hx with rfl | hx
    · exact h.1
    · exact ih (h.1 ▸ h.2) x hx

/-- A run that ends as it began revives a header if it ever differs. -/
theorem revives_iff {d : Bool} (h : ∀ m, ms.getLast? = some m → m.isDeleted = d) :
    revives d ms = true ↔ ∃ m ∈ ms, m.isDeleted ≠ d := by
  induction ms generalizing d with
  | nil => simp [revives]
  | cons m ms ih =>
    rw [revives]
    by_cases hms : ms = []
    · have hm := h m (by rw [hms]; rfl)
      simp [revives, hms, hm]
    · have hlast : ∀ y, ms.getLast? = some y → y.isDeleted = d := by
        intro y hy
        exact h y (by rw [List.getLast?_cons, hy, Option.getD_some])
      cases hmd : m.isDeleted <;> cases d
      case false.true => simp [hmd]
      case true.false =>
        -- the run begins deleted and ends visible
        have hr : revives true ms = true := by
          rw [← Bool.not_eq_false]
          intro hr
          have hm := revives_deleted hr _ (List.getLast_mem hms)
          rw [hlast _ (List.getLast?_eq_some_getLast hms)] at hm
          cases hm
        simp [hr, hmd]
      all_goals simp [ih hlast, hmd]

end Fold

theorem indexed_eq_iff {x y : MessageHeader} :
    indexed x = indexed y ↔ x.id = y.id ∧ marks x = marks y ∧
      (x.isPatch = y.isPatch ∧ x.isModified = y.isModified ∧ x.isUpdated = y.isUpdated ∧
        x.isRestoredPatch = y.isRestoredPatch) ∧
      (x.prevId = y.prevId ∧ x.dataOffset = y.dataOffset ∧ x.dataSize = y.dataSize) ∧
      x.updatePatchVersion.versionString = y.updatePatchVersion.versionString ∧
      x.modifications.map flat = y.modifications.map flat := by
  simp only [indexed, view, flat, marks, isPatch, isModified, isUpdated, isRestoredPatch,
    MessageHeader.mk.injEq, MessageFlags.ext_iff, Prod.mk.injEq, PatchVersion.mk.injEq, true_and,
    and_true]
  constructor
  · rintro ⟨hid, ⟨f0, f1, f2, f3, f4, f5, f6, f7, f8, f9, f10⟩, hprev, hoff, hsize, htext, b1, b2, b3,
      b4, b5, hmods⟩
    exact ⟨hid, ⟨⟨f0, f1, f2, f3, f5, f8, f10⟩, b1, b2, b3, b4, b5⟩, ⟨f4, f6, f7, f9⟩,
      ⟨hprev, hoff, hsize⟩, htext, hmods⟩
  · rintro ⟨hid, ⟨⟨f0, f1, f2, f3, f5, f8, f10⟩, b1, b2, b3, b4, b5⟩, ⟨f4, f6, f7, f9⟩,
      ⟨hprev, hoff, hsize⟩, htext, hmods⟩
    exact ⟨hid, ⟨f0, f1, f2, f3, f4, f5, f6, f7, f8, f9, f10⟩, hprev, hoff, hsize, htext, b1, b2, b3,
      b4, b5, hmods⟩

section Restore

variable {e : MessageHeader}

theorem restore_eq (h : e.modifications ≠ [] → e.isModified = true) :
    restore e = mergeAll e.stored (e.modifications.map stored) := by
  have htail : (saved e).tail = e.modifications := by
    by_cases hm : e.modifications = []
    · simp [saved, hm]
    · simp [saved, h hm]
  rw [restore, htail, mergeAll, List.foldl_map]

theorem restore_unflagged (h : e.isModified ≠ true) : (restore e).modifications = [] := by
  have htail : (saved e).tail = [] := by simp [saved, h]
  rw [restore, htail]
  rfl

theorem mergeAll_stored_modified (hflag : e.modifications ≠ [] → e.isModified = true) :
    (mergeAll e.stored (e.modifications.map stored)).isModified = e.isModified := by
  by_cases hm : e.modifications = []
  · rw [hm]
    rfl
  · rw [hflag hm]
    exact mergeAll_modified (hflag hm)

variable (he : SoundHeader e)

include he

theorem stored_keeps : ∀ m ∈ e.modifications.map stored, m.keepsModification = true := by
  intro x hx
  obtain ⟨m, hm, rfl⟩ := List.mem_map.mp hx
  exact (he.modifications m hm).keeps

theorem stored_patches : ∀ m ∈ e.modifications.map stored, m.isPatch = true := by
  intro x hx
  exact (Bool.and_eq_true_iff.mp (stored_keeps he x hx)).2

theorem mergeAll_stored_modifications :
    (mergeAll e.stored (e.modifications.map stored)).modifications.map flat =
      e.modifications.map flat ↔ ∀ m ∈ e.modifications, KeepsText m := by
  rw [mergeAll_modifications (stored_keeps he), show e.stored.modifications = [] from rfl,
    List.nil_append, List.map_map, List.map_inj_left]
  exact forall₂_congr (fun m hm => (he.modifications m hm).bits.stored_eq_flat)

theorem mergeAll_stored_marks :
    marks (mergeAll e.stored (e.modifications.map stored)) = marks e ↔
      ∀ m, e.modifications.getLast? = some m → marks m = marks e := by
  rw [mergeAll_marks, List.getLast?_map]
  cases hl : e.modifications.getLast? with
  | none => simpa using he.bits.stored_marks
  | some m =>
    have hm := (he.modifications m (List.mem_of_getLast? hl)).bits.stored_marks
    simp [hm]

theorem mergeAll_stored_prevId :
    (mergeAll e.stored (e.modifications.map stored)).prevId = e.prevId ↔
      ∀ m, (e.modifications.filter (fun m => m.prevId != -1)).getLast? = some m →
        m.prevId = e.prevId := by
  rw [mergeAll_prevId (stored_patches he), List.filter_map, List.getLast?_map]
  have hcomp : (fun m : MessageHeader => m.prevId != -1) ∘ stored = fun m => m.prevId != -1 := rfl
  rw [hcomp]
  cases (e.modifications.filter (fun m => m.prevId != -1)).getLast? with
  | none => simp [stored]
  | some m => simp [stored]

theorem mergeAll_stored_updated :
    (mergeAll e.stored (e.modifications.map stored)).isUpdated = e.isUpdated ↔
      ∀ m ∈ e.modifications, m.isUpdated = true → e.isUpdated = true := by
  have hs : e.stored.isUpdated = e.isUpdated := rfl
  have hany : (e.modifications.map stored).any isUpdated = e.modifications.any isUpdated :=
    List.any_map
  rw [mergeAll_updated (stored_patches he), hs, hany]
  cases hu : e.isUpdated with
  | true => simp
  | false => simp

/-- The version that comes out is the newest, provided it was kept anywhere. -/
theorem mergeAll_stored_text (hk : ∀ m ∈ e.modifications, KeepsText m) :
    (mergeAll e.stored (e.modifications.map stored)).updatePatchVersion.versionString =
      e.updatePatchVersion.versionString ↔
      KeepsText e ∨ ∃ m ∈ e.modifications,
        m.updatePatchVersion.versionString = e.updatePatchVersion.versionString := by
  have hkeep : ∀ m ∈ e.modifications,
      m.stored.updatePatchVersion.versionString = m.updatePatchVersion.versionString :=
    fun m hm => (storedText_eq_iff m).mpr (hk m hm)
  obtain ⟨hfrom, hnew, hall⟩ := mergeAll_version e.stored (e.modifications.map stored)
  generalize mergeAll e.stored (e.modifications.map stored) = r at hfrom hnew hall
  constructor
  · intro ht
    rcases hfrom with h | ⟨x, hx, h⟩
    · refine Or.inl ((storedText_eq_iff e).mp ?_)
      rw [← ht, h]
      rfl
    · obtain ⟨m, hm, rfl⟩ := List.mem_map.mp hx
      exact Or.inr ⟨m, hm, by rw [← hkeep m hm, ← h, ht]⟩
  · intro hkept
    have hle : PatchVersion.textLess e.updatePatchVersion.versionString
        r.updatePatchVersion.versionString = false := by
      rcases hfrom with h | ⟨x, hx, h⟩
      · rw [h]
        change PatchVersion.textLess _ e.storedText = false
        unfold storedText
        split
        · exact PatchVersion.not_textLess_take _ _
        · exact PatchVersion.not_textLess_take _ 0
      · obtain ⟨m, hm, rfl⟩ := List.mem_map.mp hx
        rw [h, hkeep m hm]
        exact (he.modifications m hm).older
    refine PatchVersion.eq_of_not_textLess ?_ hle
    rcases hkept with h | ⟨m, hm, h⟩
    · rw [← (storedText_eq_iff e).mpr h]
      exact hnew
    · rw [← h, ← hkeep m hm]
      exact hall m.stored (List.mem_map_of_mem hm)

/-- A header on its way back is restored once more if a modification between differs from it. -/
theorem mergeAll_stored_restored
    (hlast : ∀ m, e.modifications.getLast? = some m → marks m = marks e) :
    ((mergeAll e.stored (e.modifications.map stored)).isPatch = e.isPatch ∧
      (mergeAll e.stored (e.modifications.map stored)).isRestoredPatch = e.isRestoredPatch) ↔
      (∀ m ∈ e.modifications, m.isRestoredPatch = true → e.isRestoredPatch = true) ∧
      ∀ m ∈ e.modifications, m.isDeleted ≠ e.isDeleted →
        e.isPatch = false ∧ e.isRestoredPatch = true := by
  have hrev : revives e.isDeleted (e.modifications.map stored) = true ↔
      ∃ m ∈ e.modifications, m.isDeleted ≠ e.isDeleted := by
    rw [revives_iff]
    · constructor
      · rintro ⟨x, hx, hne⟩
        obtain ⟨m, hm, rfl⟩ := List.mem_map.mp hx
        exact ⟨m, hm, hne⟩
      · rintro ⟨m, hm, hne⟩
        exact ⟨m.stored, List.mem_map_of_mem hm, hne⟩
    · intro x hx
      rw [List.getLast?_map, Option.map_eq_some_iff] at hx
      obtain ⟨m, hm, rfl⟩ := hx
      have hmarks := congrArg (fun k => k.1.deleted) (hlast m hm)
      exact hmarks
  have hpatch : (mergeAll e.stored (e.modifications.map stored)).isPatch =
      (e.isPatch && !revives e.isDeleted (e.modifications.map stored)) :=
    mergeAll_patch (stored_patches he)
  have hrestored : (mergeAll e.stored (e.modifications.map stored)).isRestoredPatch =
      (e.isRestoredPatch || (revives e.isDeleted (e.modifications.map stored) ||
        (e.modifications.map stored).any isRestoredPatch)) := mergeAll_restored
  have hany : (e.modifications.map stored).any isRestoredPatch =
      e.modifications.any isRestoredPatch := List.any_map
  rw [hpatch, hrestored, hany]
  cases hr : revives e.isDeleted (e.modifications.map stored) with
  | false =>
    have hsame : ∀ m ∈ e.modifications, m.isDeleted = e.isDeleted := by
      intro m hm
      by_contra hne
      rw [hrev.mpr ⟨m, hm, hne⟩] at hr
      cases hr
    have hnone : ∀ m ∈ e.modifications, m.isDeleted ≠ e.isDeleted →
        e.isPatch = false ∧ e.isRestoredPatch = true := fun m hm hne => absurd (hsame m hm) hne
    cases e.isRestoredPatch <;> simp_all
  | true =>
    obtain ⟨m, hm, hne⟩ := hrev.mp hr
    constructor
    · rintro ⟨h1, h2⟩
      have hrest : e.isRestoredPatch = true := by rw [← h2]; simp
      have hpat : e.isPatch = false := by rw [← h1]; simp
      exact ⟨fun _ _ _ => hrest, fun _ _ _ => ⟨hpat, hrest⟩⟩
    · rintro ⟨_, h⟩
      obtain ⟨hpat, hrest⟩ := h m hm hne
      simp [hpat, hrest]

/-- Loading restores a saved header exactly if the header survives. -/
theorem indexed_restore_iff : indexed (restore e) = indexed e ↔ SurvivesSave e := by
  by_cases hflag : e.modifications ≠ [] → e.isModified = true
  case neg =>
    obtain ⟨hne, hmod⟩ := Classical.not_imp.mp hflag
    constructor
    · intro h
      have hmods : (restore e).modifications.map flat = e.modifications.map flat :=
        (indexed_eq_iff.mp h).2.2.2.2.2
      rw [restore_unflagged hmod] at hmods
      exact absurd (by simpa using hmods.symm) hne
    · exact fun h => absurd h.flagged hflag
  case pos =>
    have hplace := mergeAll_place (e := e.stored) (stored_patches he)
    have hmodified := mergeAll_stored_modified hflag
    have hlast := mergeAll_stored_marks he
    have hprev := mergeAll_stored_prevId he
    have hupdated := mergeAll_stored_updated he
    have hmods := mergeAll_stored_modifications he
    have hrestored := mergeAll_stored_restored he
    have htext := mergeAll_stored_text he
    have hid : (mergeAll e.stored (e.modifications.map stored)).id = e.id := by
      rw [← restore_eq hflag, restore_id]
    rw [restore_eq hflag, indexed_eq_iff]
    constructor
    · rintro ⟨_, h1, ⟨h2, _, h3, h4⟩, ⟨h5, _, _⟩, h6, h7⟩
      obtain ⟨h8, h9⟩ := (hrestored (hlast.mp h1)).mp ⟨h2, h4⟩
      exact ⟨hflag, hmods.mp h7, (htext (hmods.mp h7)).mp h6, hlast.mp h1, hprev.mp h5,
        hupdated.mp h3, h8, h9⟩
    · intro h
      obtain ⟨h2, h4⟩ := (hrestored h.last).mpr ⟨h.restored, h.deleted⟩
      exact ⟨hid, hlast.mpr h.last, ⟨h2, hmodified, hupdated.mpr h.updated, h4⟩,
        ⟨hprev.mpr h.link, hplace.1, hplace.2⟩, (htext h.texts).mpr h.text, hmods.mpr h.texts⟩

end Restore

theorem SoundIndex.loadable {s : ArchiveIndex} (hs : SoundIndex s)
    (hm : ∀ g ∈ saveGroups [] s.headersIndex.items,
      (serializeBlock g).length ≤ maxDataBlockSize.toNat) :
    Loadable (saveGroups [] s.headersIndex.items) := by
  refine ⟨?_, hm⟩
  intro g hg h hh
  have hflat : h ∈ (saveGroups [] s.headersIndex.items).flatten := List.mem_flatten.mpr ⟨g, hg, hh⟩
  rw [saveGroups_flatten [] _ (Or.inr rfl), List.nil_append] at hflat
  obtain ⟨e, he, hsaved⟩ := List.mem_flatMap.mp hflat
  have hsound := hs e he
  rcases List.mem_cons.mp hsaved with rfl | hmod
  · exact ⟨hsound.version, hsound.positive⟩
  · split at hmod
    · have hm := hsound.modifications h hmod
      exact ⟨hm.version, by rw [hm.id]; exact hsound.positive⟩
    · cases hmod

/-- A new index that loads a saved one restores each of its headers. -/
theorem readLocal_saveAll {s : ArchiveIndex} (hs : SoundIndex s) {disk : Disk} (currentTime : Int)
    (hm : ∀ g ∈ saveGroups [] s.headersIndex.items,
      (serializeBlock g).length ≤ maxDataBlockSize.toNat)
    (hok : (s.saveAll disk).1 = true) :
    ∃ t, readLocal {} (s.saveAll disk).2 currentTime = some (true, t) ∧
      t.headersIndex.items = s.headersIndex.items.map restore := by
  obtain ⟨hfile, husable⟩ := saveAll_ok hm hok
  refine ⟨_, readLocal_blockFile currentTime (hs.loadable hm) husable hfile, ?_⟩
  change (insertHeaders _ _).headersIndex.items = _
  rw [insertHeaders_headersIndex, List.foldl_map, saveGroups_flatten [] _ (Or.inr rfl)]
  exact foldl_insertMap_saved [] rfl s.headersIndex.sorted
    (fun e he g hg => ((hs e he).modifications g hg).id)

/-- Saving an index and loading it anew gives the index back exactly if all its headers survive. -/
theorem saveAll_lossless_iff {s : ArchiveIndex} (hs : Reachable s) (disk : Disk) (currentTime : Int)
    (hm : ∀ g ∈ saveGroups [] s.headersIndex.items,
      (serializeBlock g).length ≤ maxDataBlockSize.toNat)
    (hok : (s.saveAll disk).1 = true)
    (hdrop : ∀ t, readLocal {} (s.saveAll disk).2 currentTime = some (true, t) →
      t.dropOutdatedHeaders currentTime = t) :
    (∃ t, loadFromLocal {} (s.saveAll disk).2 currentTime = some (true, t) ∧
      t.headersIndex.items.map indexed = s.headersIndex.items.map indexed) ↔
      ∀ e ∈ s.headersIndex.items, SurvivesSave e := by
  obtain ⟨t, hread, hitems⟩ := readLocal_saveAll hs.sound currentTime hm hok
  have hload : loadFromLocal {} (s.saveAll disk).2 currentTime = some (true, t) := by
    unfold loadFromLocal
    rw [hread]
    simp only [hdrop t hread]
  have hsame : t.headersIndex.items.map indexed = s.headersIndex.items.map indexed ↔
      ∀ e ∈ s.headersIndex.items, SurvivesSave e := by
    rw [hitems, List.map_map, List.map_inj_left]
    exact forall₂_congr (fun e he => indexed_restore_iff (hs.sound e he))
  constructor
  · rintro ⟨u, hu, hi⟩
    obtain rfl : u = t := by
      rw [hload] at hu
      simpa using hu.symm
    exact hsame.mp hi
  · exact fun h => ⟨t, hload, hsame.mpr h⟩

/-- A message of the server and a patch of it. -/
def patched (patch : MessageHeader) : ArchiveIndex :=
  ((insertHeader {} { id := 1, dataOffset := 100, dataSize := 10 } 0).1.insertHeader patch 0).1

theorem Reachable.patched {patch : MessageHeader} (h : NewHeader patch) :
    Reachable (Archive.patched patch) :=
  .insertHeader patch 0 (.insertHeader _ 0 .new ⟨by decide, by decide, by constructor <;> simp, rfl⟩) h

def modifyingPatch : MessageHeader :=
  { id := 1, flags := { patch := true, modified := true }, dataOffset := 200, dataSize := 20 }

def updatingHeader : MessageHeader :=
  { id := 1, flags := { patch := true, updated := true }, dataOffset := 200, dataSize := 20 }

theorem saveAll_lossless_modified :
    ∃ t, loadFromLocal {} ((patched modifyingPatch).saveAll { file := some [] }).2 0 = some (true, t) ∧
      t.headersIndex.items.map indexed = (patched modifyingPatch).headersIndex.items.map indexed := by
  have hsmall : ∀ g ∈ saveGroups [] (patched modifyingPatch).headersIndex.items,
      (serializeBlock g).length ≤ maxDataBlockSize.toNat := by decide +kernel
  have hok : ((patched modifyingPatch).saveAll { file := some [] }).1 = true := by decide +kernel
  have hs : Reachable (patched modifyingPatch) :=
    .patched ⟨by decide, by decide, by constructor <;> simp [modifyingPatch], rfl⟩
  have hitems : (patched modifyingPatch).headersIndex.items =
      [mergeWith { id := 1, dataOffset := 100, dataSize := 10 } modifyingPatch] := rfl
  refine (saveAll_lossless_iff hs { file := some [] } 0 hsmall hok ?_).mpr ?_
  · intro t ht
    apply dropOutdatedHeaders_recent
    obtain ⟨u, hu, hi⟩ := readLocal_saveAll hs.sound 0 hsmall hok
    obtain rfl : u = t := by
      rw [ht] at hu
      simpa using hu.symm
    rw [hi, hitems]
    intro x hx
    rw [List.mem_singleton.mp hx]
    decide
  · intro e he
    rw [hitems] at he
    rw [List.mem_singleton.mp he]
    have hmods : ∀ m ∈ [modifyingPatch], m = modifyingPatch := by simp
    refine ⟨fun _ => rfl, ?_, Or.inl (Or.inl rfl), ?_, ?_, ?_, ?_, ?_⟩
    · intro m hm
      rw [hmods m hm]
      exact Or.inl rfl
    · intro m hm
      rw [hmods m (List.mem_of_getLast? hm)]
      rfl
    · intro m hm
      cases hm
    · intro m hm
      rw [hmods m hm]
      exact fun h => absurd h (by decide)
    · intro m hm
      rw [hmods m hm]
      exact fun h => absurd h (by decide)
    · intro m hm
      rw [hmods m hm]
      exact fun h => absurd rfl h

/-- An updating patch is kept in memory and is not saved. -/
theorem saveAll_loses_updating_patch :
    ∃ s disk, Reachable s ∧ (s.saveAll disk).1 = true ∧
      (∀ g ∈ saveGroups [] s.headersIndex.items,
        (serializeBlock g).length ≤ maxDataBlockSize.toNat) ∧
      ∃ t, readLocal {} (s.saveAll disk).2 0 = some (true, t) ∧ t.dropOutdatedHeaders 0 = t ∧
        t.headersIndex.items.map indexed ≠ s.headersIndex.items.map indexed := by
  have hs : Reachable (patched updatingHeader) :=
    .patched ⟨by decide, by decide, by constructor <;> simp [updatingHeader], rfl⟩
  have hsmall : ∀ g ∈ saveGroups [] (patched updatingHeader).headersIndex.items,
      (serializeBlock g).length ≤ maxDataBlockSize.toNat := by decide +kernel
  have hok : ((patched updatingHeader).saveAll { file := some [] }).1 = true := by decide +kernel
  have hitems : (patched updatingHeader).headersIndex.items =
      [mergeWith { id := 1, dataOffset := 100, dataSize := 10 } updatingHeader] := rfl
  obtain ⟨t, ht, hi⟩ := readLocal_saveAll hs.sound 0 hsmall hok
  refine ⟨_, _, hs, hok, hsmall, t, ht, ?_, ?_⟩
  · apply dropOutdatedHeaders_recent
    rw [hi, hitems]
    intro x hx
    rw [List.mem_singleton.mp hx]
    decide
  · rw [hi, hitems]
    intro h
    have hlen := congrArg (List.map (fun x => x.modifications.length)) h
    exact absurd hlen (by decide)

end Icq.Archive
