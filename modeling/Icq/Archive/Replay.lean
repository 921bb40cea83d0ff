import Icq.Archive.IndexFile
import Icq.Archive.Persisted

namespace Icq.Archive
open Icq.Lib Icq.Tools Icq.Common MessageHeader ArchiveIndex

/-- The header written for an update of a message is the merged one, and replaying it does not
give back the modification that was merged: the received one is an updating patch, or the index
already has one for a message that is itself a patch. -/
def losesUpdate (existing header : MessageHeader) : Bool :=
  !existing.isModified && !header.isModified && !header.isDeleted && header.isPatch &&
    (header.isUpdated || (existing.isPatch && existing.isUpdated && !existing.isDeleted))

/-- A header whose replay has the effect of its insertion. Its patch text fits 32 bits. -/
structure HeaderReplayable (s : ArchiveIndex) (h : MessageHeader) : Prop where
  text : h.updatePatchVersion.versionString.length < 2 ^ 32
  keeps : ∀ e, s.headersIndex.find? h.id = some e → losesUpdate e h = false

def BlockReplayable (currentTime : Int) : ArchiveIndex → List MessageHeader → Prop
  | _, [] => True
  | s, h :: rest =>
    HeaderReplayable s h ∧ BlockReplayable currentTime (s.insertHeader h currentTime).1 rest

/-- Updates of a new index over an empty file. Every update holds `ok`, takes at least one
message, and is written with success as a block of at most the readers' limit. -/
inductive UpdateRun (ok : ArchiveIndex → List MessageHeader → Int → Prop) :
    ArchiveIndex → Disk → Prop where
  | start (d : Disk) : d.Usable → d.file = some [] → UpdateRun ok {} d
  | update {s : ArchiveIndex} {d : Disk} (data : List ReceivedMessage) (currentTime : Int) :
      UpdateRun ok s d → data ≠ [] → (∀ m ∈ data, 0 < m.msgid) →
      ok s (data.map ReceivedMessage.header) currentTime →
      (s.update d data currentTime).1.result = true →
      (serializeBlock (s.update d data currentTime).2.1).length ≤ maxDataBlockSize.toNat →
      UpdateRun ok (s.update d data currentTime).2.2.1 (s.update d data currentTime).2.2.2

theorem mergeFlags_merged (f g : MessageFlags) : mergeFlags f (mergeFlags f g) = mergeFlags f g := by
  apply MessageFlags.ext
  case patch =>
    simp only [mergeFlags_patch, mergeFlags_deleted]
    cases f.patch <;> cases g.patch <;> cases f.deleted <;> cases g.deleted <;> rfl
  case deleted => simp
  case modified =>
    simp only [mergeFlags_modified]
    cases f.modified <;> rfl
  case updated =>
    simp only [mergeFlags_updated, mergeFlags_patch]
    cases f.updated <;> cases g.updated <;> cases g.patch <;> simp
  case restoredPatch =>
    simp only [mergeFlags_restoredPatch, mergeFlags_deleted]
    cases f.deleted <;> cases g.deleted <;> cases f.restoredPatch <;> rfl
  all_goals rfl

/-- Merging the merged header once more changes nothing unless an update is lost. -/
theorem mergeWith_merged {e h : MessageHeader} (he : e.flat.updatePatchVersion = e.updatePatchVersion)
    (hh : h.flat = h) (hl : losesUpdate e h = false) (hd : (e.mergeWith h).isDeleted = false)
    (hm : (e.mergeWith h).isModified = false) :
    e.mergeWith (e.mergeWith h).flat = e.mergeWith h := by
  have hhd : h.isDeleted = false := by simpa [isDeleted] using hd
  obtain ⟨hem, hhm⟩ : e.isModified = false ∧ h.isModified = false := by
    simpa [isModified] using hm
  have hpatch : (e.mergeWith h).flat.isPatch = (e.isPatch && h.isPatch && !e.isDeleted) := by
    have : (e.mergeWith h).flat.isPatch = (e.isPatch && h.isPatch && !(e.isDeleted && !h.isDeleted)) :=
      mergeFlags_patch _ _
    rw [this, hhd, Bool.not_false, Bool.and_true]
  have hkeep : h.keepsModification = false ∧ (e.mergeWith h).flat.keepsModification = false := by
    have hup : (e.mergeWith h).flat.isUpdated = ((e.isUpdated && h.isPatch) || h.isUpdated) :=
      mergeFlags_updated _ _
    have hmo : (e.mergeWith h).flat.isModified = false := hm
    unfold keepsModification
    rw [hpatch, hup, hmo, hhm]
    revert hl
    unfold losesUpdate
    rw [hem, hhm, hhd]
    cases h.isPatch <;> cases h.isUpdated <;> cases e.isPatch <;> cases e.isUpdated <;>
      cases e.isDeleted <;> simp
  have hfix : h.isPatch = false → (e.mergeWith h).flat.isPatch = false := by
    intro hp
    rw [hpatch, hp, Bool.and_false, Bool.false_and]
  apply MessageHeader.ext
  case modifications =>
    rw [mergeWith_modifications, hkeep.2, if_neg Bool.false_ne_true]
    rw [mergeWith_modifications, hkeep.1, if_neg Bool.false_ne_true]
  case flags => exact mergeFlags_merged _ _
  case prevId =>
    rw [mergeWith_prevId]
    change (if (e.mergeWith h).prevId != -1 || !(e.mergeWith h).flat.isPatch then
      (e.mergeWith h).prevId else e.prevId) = (e.mergeWith h).prevId
    cases hp : h.isPatch with
    | false => rw [hfix hp, Bool.not_false, Bool.or_true, if_pos rfl]
    | true =>
      rw [mergeWith_prevId, hp]
      by_cases hprev : h.prevId = -1 <;> simp [hprev]
  case dataOffset =>
    rw [mergeWith_dataOffset]
    change (if (e.mergeWith h).dataOffset != -1 && !(e.mergeWith h).flat.isPatch then
      (e.mergeWith h).dataOffset else e.dataOffset) = (e.mergeWith h).dataOffset
    rw [mergeWith_dataOffset]
    cases hp : h.isPatch with
    | false =>
      rw [hfix hp]
      by_cases hoff : h.dataOffset = -1 <;> simp [hoff]
    | true => simp
  case dataSize =>
    rw [mergeWith_dataSize]
    change (if (e.mergeWith h).dataOffset != -1 && !(e.mergeWith h).flat.isPatch then
      (e.mergeWith h).dataSize else e.dataSize) = (e.mergeWith h).dataSize
    rw [mergeWith_dataSize, mergeWith_dataOffset]
    cases hp : h.isPatch with
    | false =>
      rw [hfix hp]
      by_cases hoff : h.dataOffset = -1 <;> simp [hoff]
    | true => simp
  case updatePatchVersion =>
    have hflat : ∀ x : MessageHeader, x.flat.updatePatchVersion.versionString =
        x.updatePatchVersion.versionString := fun _ => rfl
    have hpv : (e.mergeWith h).flat.updatePatchVersion = (e.mergeWith h).updatePatchVersion := by
      change ({ versionString := (e.mergeWith h).updatePatchVersion.versionString } : PatchVersion)
        = (e.mergeWith h).updatePatchVersion
      rw [mergeWith_updatePatchVersion]
      split
      · exact congrArg updatePatchVersion hh
      · exact he
    rw [mergeWith_updatePatchVersion, hpv, mergeWith_updatePatchVersion]
    cases hless : PatchVersion.lessThan e.updatePatchVersion h.updatePatchVersion with
    | false => simp [PatchVersion.lessThan_irrefl]
    | true => simp [hless]
  all_goals rfl

theorem relinkNext_congr {m : HeadersMap} {e h h' : MessageHeader}
    (hd : h.isDeleted = h'.isDeleted) : relinkNext m e h = relinkNext m e h' := by
  unfold relinkNext
  rw [hd]

/-- The header handed back by an insertion has, on what can be told about the index, the effect of
the header that was inserted. -/
theorem insert_replays {s : ArchiveIndex} {h : MessageHeader} (currentTime : Int)
    (hm : h.modifications = []) (hr : HeaderReplayable s h) :
    insertMap (viewMap s.headersIndex) (s.insertHeader h currentTime).2.flat =
      viewMap (s.insertHeader h currentTime).1.headersIndex := by
  rw [insertHeader_headersIndex, viewMap_insertMap _ hm]
  cases hf : s.headersIndex.find? h.id with
  | none => rw [(insertHeader_new hf).2]
  | some e =>
    rw [insertHeader_returned hf]
    cases hd : (e.mergeWith h).isDeleted with
    | true => simp
    | false =>
      cases hmo : (e.mergeWith h).isModified with
      | true => simp
      | false =>
        have hview : (e.mergeWith h).flat = (e.view.mergeWith h.flat).flat := by
          rw [← view_mergeWith]
          rfl
        have hmerge : e.view.mergeWith (e.view.mergeWith h.flat).flat = e.view.mergeWith h.flat :=
          mergeWith_merged rfl rfl (hr.keeps e hf) hd hmo
        have hdel : (e.view.mergeWith h.flat).flat.isDeleted = h.flat.isDeleted :=
          mergeFlags_deleted _ _
        have hid : (e.view.mergeWith h.flat).flat.id = h.flat.id := (KeyMap.find_mem hf).2
        simp only [Bool.not_false, Bool.and_self, if_true]
        rw [hview]
        unfold insertMap
        rw [hid, find_viewMap, flat_id, hf, Option.map_some]
        simp only
        rw [relinkNext_congr hdel, hmerge]

/-- A header as the current code writes it. -/
structure Current (h : MessageHeader) : Prop where
  version : h.version = headerVersion
  text : h.updatePatchVersion.versionString.length < 2 ^ 32
  positive : 0 < h.id

theorem Current.stored_eq {h : MessageHeader} (hc : Current h) : h.stored = h.flat := by
  have htext : h.storedText = h.updatePatchVersion.versionString := by
    have hlen : (UInt32.ofNat h.updatePatchVersion.versionString.length).toNat =
        h.updatePatchVersion.versionString.length := by
      rw [UInt32.toNat_ofNat']
      exact Nat.mod_eq_of_lt hc.text
    rw [storedText, hc.version, if_pos (by decide), hlen, List.take_length]
  have hbit : ∀ n : UInt8, n < headerVersion → ∀ b : Bool, (decide (n < h.version) && b) = b := by
    intro n hn b
    rw [hc.version, decide_eq_true hn, Bool.true_and]
  unfold stored flat
  rw [htext, hbit 1 (by decide), hbit 2 (by decide), hbit 3 (by decide), hbit 4 (by decide),
    hbit 5 (by decide)]

theorem Current.merge {e h : MessageHeader} (he : Current e) (hh : Current h) :
    Current (e.mergeWith h) := by
  refine ⟨hh.version, ?_, he.positive⟩
  rw [mergeWith_updatePatchVersion]
  split
  · exact hh.text
  · exact he.text

theorem Current.insert {s : ArchiveIndex} {h : MessageHeader} (currentTime : Int)
    (hs : ∀ x ∈ s.headersIndex.items, Current x) (hh : Current h) :
    (∀ x ∈ (s.insertHeader h currentTime).1.headersIndex.items, Current x) ∧
      Current (s.insertHeader h currentTime).2 := by
  refine ⟨?_, ?_⟩
  · rw [insertHeader_headersIndex]
    exact forall_insertMap hs hh (fun e he _ => he.merge hh) (fun x v hx => ⟨hx.1, hx.2, hx.3⟩)
  · cases hf : s.headersIndex.find? h.id with
    | none => rw [(insertHeader_new hf).2]; exact hh
    | some e =>
      rw [insertHeader_returned hf]
      split
      · exact (hs e (KeyMap.find_mem hf).1).merge hh
      · exact hh

/-- A block of insertions, and the headers handed back. -/
theorem insertBlock_replays {s : ArchiveIndex} {headers : List MessageHeader} {currentTime : Int}
    (hs : ∀ x ∈ s.headersIndex.items, Current x)
    (hh : ∀ h ∈ headers, h.version = headerVersion ∧ 0 < h.id ∧ h.modifications = [])
    (hr : BlockReplayable currentTime s headers) :
    (∀ x ∈ (s.insertBlock currentTime headers).1.headersIndex.items, Current x) ∧
      (∀ g ∈ (s.insertBlock currentTime headers).2, Current g) ∧
      (s.insertBlock currentTime headers).2.foldl (fun m g => insertMap m g.flat)
          (viewMap s.headersIndex) =
        viewMap (s.insertBlock currentTime headers).1.headersIndex := by
  induction headers generalizing s with
  | nil => exact ⟨hs, by simp [insertBlock], rfl⟩
  | cons h headers ih =>
    obtain ⟨hv, hpos, hm⟩ := hh h List.mem_cons_self
    obtain ⟨hr, hrest⟩ := hr
    have hcur : Current h := ⟨hv, hr.text, hpos⟩
    obtain ⟨hs', hg⟩ := hcur.insert currentTime hs
    obtain ⟨hi, hgs, hfold⟩ := ih hs' (fun x hx => hh x (List.mem_cons_of_mem _ hx)) hrest
    simp only [insertBlock]
    refine ⟨hi, ?_, ?_⟩
    · intro g hm
      rcases List.mem_cons.mp hm with rfl | hm
      · exact hg
      · exact hgs g hm
    · rw [List.foldl_cons, insert_replays currentTime hm hr]
      exact hfold

/-- An index beside the blocks its updates have written. -/
structure Logged (s : ArchiveIndex) (d : Disk) (blocks : List (List MessageHeader)) : Prop where
  usable : d.Usable
  file : d.file = some (blockFile blocks)
  small : ∀ b ∈ blocks, (serializeBlock b).length ≤ maxDataBlockSize.toNat
  written : ∀ b ∈ blocks, ∀ h ∈ b, Current h
  index : ∀ x ∈ s.headersIndex.items, Current x
  replayed : blocks.flatten.foldl (fun m g => insertMap m g.flat) ∅ = viewMap s.headersIndex

theorem Logged.update {s : ArchiveIndex} {d : Disk} {blocks : List (List MessageHeader)}
    (h : Logged s d blocks) {data : List ReceivedMessage} {currentTime : Int}
    (hpos : ∀ m ∈ data, 0 < m.msgid)
    (hr : BlockReplayable currentTime s (data.map ReceivedMessage.header))
    (hok : (s.update d data currentTime).1.result = true)
    (hsize : (serializeBlock (s.update d data currentTime).2.1).length ≤ maxDataBlockSize.toNat) :
    Logged (s.update d data currentTime).2.2.1 (s.update d data currentTime).2.2.2
      (blocks ++ [(s.update d data currentTime).2.1]) := by
  have hh : ∀ g ∈ data.map ReceivedMessage.header,
      g.version = headerVersion ∧ 0 < g.id ∧ g.modifications = [] := by
    intro g hg
    obtain ⟨m, hm, rfl⟩ := List.mem_map.mp hg
    exact ⟨rfl, hpos m hm, rfl⟩
  obtain ⟨hi, hgs, hfold⟩ := insertBlock_replays h.index hh hr
  obtain ⟨hfile, husable⟩ := saveBlock_ok hsize hok
  refine ⟨husable, ?_, ?_, ?_, hi, ?_⟩
  · refine Eq.trans hfile ?_
    rw [h.file, Option.getD_some]
    simp [blockFile]
  · intro b hb
    rcases List.mem_append.mp hb with hb | hb
    · exact h.small b hb
    · rw [List.mem_singleton.mp hb]
      exact hsize
  · intro b hb
    rcases List.mem_append.mp hb with hb | hb
    · exact h.written b hb
    · rw [List.mem_singleton.mp hb]
      exact hgs
  · rw [List.flatten_append, List.foldl_append, h.replayed, List.flatten_singleton]
    exact hfold

/-- Runs whose every insertion can be replayed. -/
abbrev ReplayableRun : ArchiveIndex → Disk → Prop :=
  UpdateRun (fun s headers currentTime => BlockReplayable currentTime s headers)

theorem ReplayableRun.logged {s : ArchiveIndex} {d : Disk} (h : ReplayableRun s d) :
    ∃ blocks, Logged s d blocks := by
  induction h with
  | start d hu hf =>
    exact ⟨[], hu, hf, by simp, by simp, by simp, rfl⟩
  | update data currentTime _ _ hpos hr hok hsize ih =>
    obtain ⟨blocks, hl⟩ := ih
    exact ⟨_, hl.update hpos hr hok hsize⟩

/-- What is known about the headers of an index, id by id. -/
def headerViews (s : ArchiveIndex) : List MessageHeader := s.headersIndex.items.map view

/-- A new index that loads the file knows of every message what the index knows that wrote it. -/
theorem replay_reproduces_index {s : ArchiveIndex} {d : Disk} (h : ReplayableRun s d)
    (currentTime : Int) :
    ∃ t, loadFromLocal {} d currentTime = some (true, t) ∧ headerViews t = headerViews s := by
  obtain ⟨blocks, hl⟩ := h.logged
  have hload : Loadable blocks := by
    refine ⟨?_, hl.small⟩
    intro b hb x hx
    obtain ⟨hv, _, hpos⟩ := hl.written b hb x hx
    exact ⟨hv ▸ UInt8.le_refl _, hpos⟩
  have hread := readLocal_blockFile currentTime hload hl.usable hl.file
  generalize ht : insertHeaders {} (blocks.flatten.map (fun h => (h.stored, currentTime))) = t at hread
  have hindex : t.headersIndex = viewMap s.headersIndex := by
    rw [← ht, insertHeaders_headersIndex, List.foldl_map, ← hl.replayed]
    have hstored : ∀ g ∈ blocks.flatten, g.stored = g.flat := by
      intro g hg
      obtain ⟨b, hb, hm⟩ := List.mem_flatten.mp hg
      exact (hl.written b hb g hm).stored_eq
    apply List.foldl_ext
    intro m g hg
    simp only [hstored g hg]
  have hrecent : ∀ x ∈ ({ t with loadedFromLocal := true } : ArchiveIndex).headersIndex.items,
      ¬ x.version < reactionsHeaderVersion := by
    intro x hx
    rw [show ({ t with loadedFromLocal := true } : ArchiveIndex).headersIndex = _ from hindex] at hx
    obtain ⟨y, hy, rfl⟩ := List.mem_map.mp hx
    have hv : y.view.version = headerVersion := (hl.index y hy).version
    rw [hv]
    decide
  refine ⟨{ t with loadedFromLocal := true }, ?_, ?_⟩
  · simp only [loadFromLocal, hread]
    rw [dropOutdatedHeaders_recent hrecent]
  · change t.headersIndex.items.map view = s.headersIndex.items.map view
    rw [hindex, items_viewMap, List.map_map]
    apply List.map_congr_left
    intro x _
    simp [view, flat]

/-- Two updates in a row over an empty file. -/
def afterTwo (first second : List ReceivedMessage) : ArchiveIndex × Disk :=
  let r := update {} { file := some [] } first 0
  (r.2.2.1.update r.2.2.2 second 0).2.2

def message : ReceivedMessage := { msgid := 1, dataOffset := 100, dataSize := 10 }

def deletion : ReceivedMessage := { msgid := 1, flags := { patch := true, deleted := true } }

/-- An update the server sends as a patch. -/
def updatingPatch : ReceivedMessage :=
  { msgid := 1, flags := { patch := true, updated := true }, dataOffset := 200, dataSize := 20 }

instance (s : ArchiveIndex) (h : MessageHeader) : Decidable (HeaderReplayable s h) :=
  decidable_of_iff (h.updatePatchVersion.versionString.length < 2 ^ 32 ∧
      ((s.headersIndex.find? h.id).any (fun e => losesUpdate e h)) = false) (by
    constructor
    · rintro ⟨ht, hk⟩
      refine ⟨ht, ?_⟩
      intro e he
      simpa [he] using hk
    · intro hr
      refine ⟨hr.text, ?_⟩
      cases hf : s.headersIndex.find? h.id with
      | none => rfl
      | some e => simpa using hr.keeps e hf)

instance decideBlockReplayable (currentTime : Int) :
    ∀ (s : ArchiveIndex) (headers : List MessageHeader),
      Decidable (BlockReplayable currentTime s headers)
  | _, [] => .isTrue trivial
  | s, h :: rest =>
    haveI := decideBlockReplayable currentTime (s.insertHeader h currentTime).1 rest
    inferInstanceAs (Decidable (HeaderReplayable s h ∧ _))

theorem replay_reproduces_deletion :
    ∃ t, loadFromLocal {} (afterTwo [message] [deletion]).2 0 = some (true, t) ∧
      headerViews t = headerViews (afterTwo [message] [deletion]).1 := by
  refine replay_reproduces_index ?_ 0
  refine .update [deletion] 0 (.update [message] 0 (.start { file := some [] } ⟨rfl, rfl⟩ rfl)
    (by simp) (by decide) ?_ ?_ ?_) (by simp) (by decide) ?_ ?_ ?_
  all_goals decide +kernel

/-- An updating patch is known in memory and lost by whoever loads the file. -/
theorem replay_loses_updating_patch :
    ∃ s d, UpdateRun (fun _ _ _ => True) s d ∧
      ∃ t, loadFromLocal {} d 0 = some (true, t) ∧ headerViews t ≠ headerViews s := by
  refine ⟨(afterTwo [message] [updatingPatch]).1, (afterTwo [message] [updatingPatch]).2, ?_, ?_⟩
  · refine .update [updatingPatch] 0
      (.update [message] 0 (.start { file := some [] } ⟨rfl, rfl⟩ rfl)
      (by simp) (by decide) trivial ?_ ?_) (by simp) (by decide) trivial ?_ ?_
    all_goals decide +kernel
  · have hload : (loadFromLocal {} (afterTwo [message] [updatingPatch]).2 0).map
        (fun r => (r.1, r.2.headersIndex.items.map (fun h => h.modifications.length))) =
          some (true, [0]) := by decide +kernel
    have hindex : (afterTwo [message] [updatingPatch]).1.headersIndex.items.map
        (fun h => h.modifications.length) = [1] := by decide +kernel
    obtain ⟨⟨ok, t⟩, ht, he⟩ := Option.map_eq_some_iff.mp hload
    simp only [Prod.mk.injEq] at he
    obtain ⟨rfl, hmods⟩ := he
    refine ⟨t, ht, ?_⟩
    intro hviews
    have hlen : ∀ s : ArchiveIndex, s.headersIndex.items.map (fun h => h.modifications.length) =
        (headerViews s).map (fun h => h.modifications.length) := by
      intro s
      simp [headerViews, view, flat]
    rw [hlen, hviews, ← hlen, hindex] at hmods
    cases hmods

end Icq.Archive
