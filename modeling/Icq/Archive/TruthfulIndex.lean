import Icq.Archive.ErasedHistory
import Icq.Archive.NextHole
import Icq.Lib.Backlinks

/-! An index whose links leave out nothing that is on the server, and what keeps it so. -/

namespace Icq.Archive
open Icq.Lib Icq.Tools Icq.Common ArchiveIndex

/-- The index has a message and shows it. -/
def ArchiveIndex.Shows (s : ArchiveIndex) (id : Int64) : Prop :=
  ∃ x ∈ s.headersIndex.items, x.id = id ∧ visible x = true

/-- What the server has of a dialog: the messages that were not deleted one by one, the oldest
first, a bound up to which all of them are deleted, and the newest id that was ever given. -/
structure ServerHistory where
  log : List Int64 := []
  bound : Int64 := -1
  issued : Int64 := 0
  ordered : log.Pairwise (· < ·) := by decide
  positive : ∀ id ∈ log, 0 < id := by decide
  log_issued : ∀ id ∈ log, id ≤ issued := by decide

def ServerHistory.Has (server : ServerHistory) (id : Int64) : Prop :=
  id ∈ server.log ∧ server.bound < id

/-- Every id was given by the server, what it did not delete one by one is shown, and the links of
what is shown leave out nothing that it has. -/
structure Truthful (server : ServerHistory) (s : ArchiveIndex) : Prop where
  issued : ∀ x ∈ s.headersIndex.items, 0 < x.id ∧ x.id ≤ server.issued
  shown : ∀ x ∈ s.headersIndex.items, x.id ∈ server.log → visible x = true
  links : ∀ x ∈ s.headersIndex.items, visible x = true →
    Backlink server.Has s.Shows x.prevId x.id

variable {server : ServerHistory} {s s' : ArchiveIndex} {m : HeadersMap} {h y : MessageHeader}

theorem visible_iff : visible h = true ↔ h.isPatch = false ∧ h.isDeleted = false := by
  simp [visible, hidden]

theorem shows_put (hs' : s'.headersIndex = s.headersIndex.put y) (hy : visible y = true) :
    s'.Shows y.id ∧ ∀ id, s.Shows id → s'.Shows id := by
  have hmem : y ∈ s'.headersIndex.items := by
    rw [hs']
    exact KeyMap.mem_put.mpr (.inl rfl)
  refine ⟨⟨y, hmem, rfl, hy⟩, ?_⟩
  intro id ⟨x, hx, hid, hv⟩
  by_cases he : x.id = y.id
  · exact ⟨y, hmem, he ▸ hid, hy⟩
  · refine ⟨x, ?_, hid, hv⟩
    rw [hs']
    exact KeyMap.mem_put.mpr (.inr ⟨hx, he⟩)

theorem Truthful.put (ht : Truthful server s) (hs' : s'.headersIndex = s.headersIndex.put y)
    (hissued : 0 < y.id ∧ y.id ≤ server.issued) (hy : visible y = true)
    (hlink : Backlink server.Has s.Shows y.prevId y.id) : Truthful server s' := by
  have hshows := (shows_put hs' hy).2
  constructor
  · intro x hx
    rw [hs'] at hx
    rcases KeyMap.mem_put.mp hx with rfl | ⟨hx, -⟩
    · exact hissued
    · exact ht.issued x hx
  · intro x hx hlog
    rw [hs'] at hx
    rcases KeyMap.mem_put.mp hx with rfl | ⟨hx, -⟩
    · exact hy
    · exact ht.shown x hx hlog
  · intro x hx hv
    rw [hs'] at hx
    rcases KeyMap.mem_put.mp hx with rfl | ⟨hx, -⟩
    · exact hlink.mono (fun _ hm _ => hm) fun id _ => hshows id
    · exact (ht.links x hx hv).mono (fun _ hm _ => hm) fun id _ => hshows id

/-- A header that is not deleted changes no other one, and hides none. -/
theorem insertMap_shown (hdeleted : h.isDeleted = false)
    (hexisting : ∀ e, m.find? h.id = some e → visible e = true)
    (hnew : m.find? h.id = none → h.isPatch = false) :
    ∃ y, insertMap m h = m.put y ∧ y.id = h.id ∧ visible y = true ∧
      (y.prevId = h.prevId ∨ ∃ e ∈ m.items, e.id = h.id ∧ visible e = true ∧ y.prevId = e.prevId) ∧
      (h.isPatch = false → y.prevId = h.prevId) := by
  unfold insertMap
  cases hfind : m.find? h.id with
  | none => exact ⟨h, rfl, rfl, visible_iff.mpr ⟨hnew hfind, hdeleted⟩, .inl rfl, fun _ => rfl⟩
  | some e =>
    obtain ⟨hmem, hid⟩ := KeyMap.find_mem hfind
    have hv := hexisting e hfind
    obtain ⟨hpatch, hdel⟩ := visible_iff.mp hv
    refine ⟨e.mergeWith h, ?_, hid, ?_, ?_, ?_⟩
    · have hsame : relinkNext m e h = m := by
        unfold relinkNext
        cases m.above? e.id <;> simp [hdeleted, hdel]
      simp only [hsame]
    · rw [visible_iff]
      unfold MessageHeader.isPatch MessageHeader.isDeleted at *
      constructor <;> simp [MessageHeader.mergeWith, MessageHeader.mergeFlags, hpatch, hdeleted]
    · by_cases hupdate : (h.prevId != -1 || !h.isPatch) = true
      · exact .inl (by simp only [MessageHeader.mergeWith, hupdate, if_true])
      · exact .inr ⟨e, hmem, hid, hv, by simp only [MessageHeader.mergeWith, hupdate]; rfl⟩
    · intro hnot
      simp [MessageHeader.mergeWith, hnot]

/-- What of a header the links are about. -/
def shapeOf (h : MessageHeader) : Int64 × Int64 × Bool := (h.id, h.prevId, visible h)

/-- Indexes of headers with the same links. -/
def SameShape (s s' : ArchiveIndex) : Prop :=
  s'.headersIndex.items.map shapeOf = s.headersIndex.items.map shapeOf

theorem SameShape.symm (h : SameShape s s') : SameShape s' s := Eq.symm h

theorem SameShape.mem {x : MessageHeader} (h : SameShape s s') (hx : x ∈ s.headersIndex.items) :
    ∃ y ∈ s'.headersIndex.items, y.id = x.id ∧ y.prevId = x.prevId ∧ visible y = visible x := by
  have hmem : shapeOf x ∈ s'.headersIndex.items.map shapeOf := by
    rw [h]
    exact List.mem_map_of_mem hx
  obtain ⟨y, hy, he⟩ := List.mem_map.mp hmem
  simp only [shapeOf, Prod.mk.injEq] at he
  exact ⟨y, hy, he⟩

theorem SameShape.shows (h : SameShape s s') {id : Int64} (hid : s.Shows id) : s'.Shows id := by
  obtain ⟨x, hx, rfl, hv⟩ := hid
  obtain ⟨y, hy, he, -, hvisible⟩ := h.mem hx
  exact ⟨y, hy, he, hvisible ▸ hv⟩

theorem Truthful.sameShape (ht : Truthful server s) (h : SameShape s s') :
    Truthful server s' := by
  constructor
  · intro y hy
    obtain ⟨x, hx, hid, -⟩ := h.symm.mem hy
    rw [← hid]
    exact ht.issued x hx
  · intro y hy hlog
    obtain ⟨x, hx, hid, -, hvisible⟩ := h.symm.mem hy
    rw [← hvisible]
    exact ht.shown x hx (hid ▸ hlog)
  · intro y hy hv
    obtain ⟨x, hx, hid, hprev, hvisible⟩ := h.symm.mem hy
    rw [← hid, ← hprev]
    exact (ht.links x hx (hvisible.trans hv)).mono (fun _ hm _ => hm) fun id _ => h.shows

theorem invalidateMessageData_shape (s : ArchiveIndex) (msgid : Int64) (mark : Bool) :
    SameShape s (s.invalidateMessageData msgid mark) := by
  unfold ArchiveIndex.invalidateMessageData
  split
  · rfl
  · rename_i header hfind
    obtain ⟨hmem, hid⟩ := KeyMap.find_mem hfind
    have hsame : ∀ flagged : MessageHeader, shapeOf flagged = shapeOf header →
        SameShape s { s with headersIndex := s.headersIndex.put flagged } := by
      intro flagged hshape
      have he : flagged.id = header.id := congrArg Prod.fst hshape
      unfold SameShape
      rw [KeyMap.items_put_replace (w := header) (he ▸ KeyMap.find_of_mem hmem), List.map_map]
      apply List.map_congr_left
      intro x hx
      by_cases hx' : x.id = flagged.id
      · obtain rfl := KeyMap.eq_of_key hx hmem (hx'.trans he)
        simp [hx', hshape]
      · simp [hx']
    apply hsame
    split <;> rfl

section Insert

variable (currentTime : Int) {headers : List MessageHeader}

/-- What is said of a message that is there: it is not deleted, and its link leaves out nothing. -/
structure TrueHeader (server : ServerHistory) (s : ArchiveIndex) (h : MessageHeader) : Prop where
  logged : h.id ∈ server.log ∨ s.Shows h.id
  deleted : h.isDeleted = false
  patch : h.isPatch = false ∨ s.Shows h.id
  link : Backlink server.Has s.Shows h.prevId h.id

theorem TrueHeader.mono (h : TrueHeader server s y) (hshows : ∀ id, s.Shows id → s'.Shows id) :
    TrueHeader server s' y where
  logged := h.logged.imp_right (hshows y.id)
  deleted := h.deleted
  patch := h.patch.imp_right (hshows y.id)
  link := h.link.mono (fun _ hm _ => hm) fun id _ => hshows id

theorem TrueHeader.issued (hh : TrueHeader server s h) (ht : Truthful server s) :
    0 < h.id ∧ h.id ≤ server.issued := by
  rcases hh.logged with hlog | ⟨x, hx, hid, -⟩
  · exact ⟨server.positive _ hlog, server.log_issued _ hlog⟩
  · exact hid ▸ ht.issued x hx

theorem TrueHeader.visible_of_mem {x : MessageHeader} (hh : TrueHeader server s h)
    (ht : Truthful server s) (hx : x ∈ s.headersIndex.items) (hid : x.id = h.id) :
    visible x = true := by
  rcases hh.logged with hlog | ⟨y, hy, hyid, hv⟩
  · exact ht.shown x hx (hid ▸ hlog)
  · exact KeyMap.eq_of_key hx hy (hid.trans hyid.symm) ▸ hv

/-- What an insertion, a deletion or a search of an index leaves: it shows what it showed above the
bound, and it hides nothing that it did not hide. -/
structure Keeps (server : ServerHistory) (s s' : ArchiveIndex) : Prop where
  truthful : Truthful server s'
  shows : ∀ id, server.bound < id → s.Shows id → s'.Shows id
  unhidden : ∀ x ∈ s'.headersIndex.items, visible x = false →
    ∃ y ∈ s.headersIndex.items, y.id = x.id ∧ visible y = false

theorem Keeps.trans {s'' : ArchiveIndex} (h : Keeps server s s') (h' : Keeps server s' s'') :
    Keeps server s s'' where
  truthful := h'.truthful
  shows := fun id hid hs => h'.shows id hid (h.shows id hid hs)
  unhidden := by
    intro x hx hv
    obtain ⟨y, hy, hid, hv'⟩ := h'.unhidden x hx hv
    obtain ⟨z, hz, hid', hv''⟩ := h.unhidden y hy hv'
    exact ⟨z, hz, hid'.trans hid, hv''⟩

theorem Truthful.keeps (ht : Truthful server s) (h : SameShape s s') : Keeps server s s' where
  truthful := ht.sameShape h
  shows := fun _ _ => h.shows
  unhidden := by
    intro x hx hv
    obtain ⟨y, hy, hid, -, hvisible⟩ := h.symm.mem hx
    exact ⟨y, hy, hid, hvisible.trans hv⟩

theorem Truthful.insertHeader (ht : Truthful server s) (hh : TrueHeader server s h) :
    Keeps server s (s.insertHeader h currentTime).1 ∧
      (s.insertHeader h currentTime).1.Shows h.id ∧
      ∀ id, s.Shows id → (s.insertHeader h currentTime).1.Shows id := by
  have hexisting : ∀ e, s.headersIndex.find? h.id = some e → visible e = true := by
    intro e he
    obtain ⟨hmem, hid⟩ := KeyMap.find_mem he
    exact hh.visible_of_mem ht hmem hid
  have hnew : s.headersIndex.find? h.id = none → h.isPatch = false := by
    intro hnone
    rcases hh.patch with hpatch | ⟨x, hx, hid, -⟩
    · exact hpatch
    · exact absurd hid (KeyMap.find_none.mp hnone x hx)
  obtain ⟨y, hput, hid, hv, hprev, -⟩ := insertMap_shown hh.deleted hexisting hnew
  rw [← insertHeader_headersIndex s h currentTime] at hput
  obtain ⟨hshown, hkept⟩ := shows_put hput hv
  refine ⟨⟨ht.put hput (hid ▸ hh.issued ht) hv ?_, fun id _ => hkept id, ?_⟩, hid ▸ hshown, hkept⟩
  · rcases hprev with hprev | ⟨e, he, heid, hev, hprev⟩
    · rw [hprev, hid]
      exact hh.link
    · rw [hprev, hid, ← heid]
      exact ht.links e he hev
  · intro x hx hhidden
    rw [hput] at hx
    rcases KeyMap.mem_put.mp hx with rfl | ⟨hx, -⟩
    · simp [hv] at hhidden
    · exact ⟨x, hx, rfl, hhidden⟩

theorem Truthful.insertHeaders (ht : Truthful server s)
    (hh : ∀ h ∈ headers, TrueHeader server s h) :
    Keeps server s (s.insertHeaders (headers.map (·, currentTime))) ∧
      ∀ h ∈ headers, (s.insertHeaders (headers.map (·, currentTime))).Shows h.id := by
  suffices hall : Keeps server s (s.insertHeaders (headers.map (·, currentTime))) ∧
      (∀ h ∈ headers, (s.insertHeaders (headers.map (·, currentTime))).Shows h.id) ∧
      ∀ id, s.Shows id → (s.insertHeaders (headers.map (·, currentTime))).Shows id from
    ⟨hall.1, hall.2.1⟩
  induction headers generalizing s with
  | nil => exact ⟨ht.keeps rfl, by simp, fun _ hid => hid⟩
  | cons h headers ih =>
    obtain ⟨hone, hshown, hmore⟩ := ht.insertHeader currentTime (hh h (by simp))
    obtain ⟨hall, hrest, hkeep⟩ :=
      ih hone.truthful fun y hy => (hh y (List.mem_cons_of_mem _ hy)).mono hmore
    refine ⟨hone.trans hall, ?_, fun id hid => hkeep id (hmore id hid)⟩
    intro y hy
    rcases List.mem_cons.mp hy with rfl | hy
    · exact hkeep _ hshown
    · exact hrest y hy

/-- Where a header comes from after messages were put in that are no patches. -/
theorem Truthful.mem_insertHeaders (ht : Truthful server s)
    (hh : ∀ h ∈ headers, TrueHeader server s h ∧ h.isPatch = false) {x : MessageHeader}
    (hx : x ∈ (s.insertHeaders (headers.map (·, currentTime))).headersIndex.items) :
    x ∈ s.headersIndex.items ∨ ∃ h ∈ headers, x.id = h.id ∧ x.prevId = h.prevId := by
  induction headers generalizing s with
  | nil => exact .inl hx
  | cons h headers ih =>
    obtain ⟨htrue, hpatch⟩ := hh h (by simp)
    obtain ⟨hone, -, hmore⟩ := ht.insertHeader currentTime htrue
    have hrest : ∀ y ∈ headers, TrueHeader server (s.insertHeader h currentTime).1 y ∧
        y.isPatch = false := by
      intro y hy
      obtain ⟨hy, hyp⟩ := hh y (List.mem_cons_of_mem _ hy)
      exact ⟨hy.mono hmore, hyp⟩
    rcases ih hone.truthful hrest hx with hx | ⟨y, hy, he⟩
    · have hexisting : ∀ e, s.headersIndex.find? h.id = some e → visible e = true := by
        intro e he
        obtain ⟨hmem, hid⟩ := KeyMap.find_mem he
        exact htrue.visible_of_mem ht hmem hid
      obtain ⟨y, hput, hid, -, -, hprev⟩ := insertMap_shown htrue.deleted hexisting fun _ => hpatch
      rw [insertHeader_headersIndex, hput] at hx
      rcases KeyMap.mem_put.mp hx with rfl | ⟨hx, -⟩
      · exact .inr ⟨h, by simp, hid, hprev hpatch⟩
      · exact .inl hx
    · exact .inr ⟨y, List.mem_cons_of_mem _ hy, he⟩

end Insert

end Icq.Archive
