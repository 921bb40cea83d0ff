import Icq.Archive.ArchiveIndex

namespace Icq.Archive
open Icq.Lib Icq.Common

namespace MessageHeader

/-- A header by itself: without its modifications and the offline part of its version, neither
of which is ever written. -/
def flat (h : MessageHeader) : MessageHeader :=
  { h with
    updatePatchVersion := { versionString := h.updatePatchVersion.versionString }
    modifications := [] }

/-- What can be told about a header: its own fields and those of its modifications. -/
def view (h : MessageHeader) : MessageHeader :=
  { h.flat with modifications := h.modifications.map flat }

@[simp] theorem flat_id (h : MessageHeader) : h.flat.id = h.id := rfl

@[simp] theorem flat_flags (h : MessageHeader) : h.flat.flags = h.flags := rfl

@[simp] theorem view_id (h : MessageHeader) : h.view.id = h.id := rfl

@[simp] theorem view_flags (h : MessageHeader) : h.view.flags = h.flags := rfl

@[simp] theorem view_prevId (h : MessageHeader) : h.view.prevId = h.prevId := rfl

@[simp] theorem flat_flat (h : MessageHeader) : h.flat.flat = h.flat := rfl

/-- A header that never met another of its message has nothing but its own fields. -/
theorem view_eq_flat {h : MessageHeader} (hm : h.modifications = []) : h.view = h.flat := by
  simp [view, flat, hm]

/-- A merge shows only what its two sides show. -/
theorem view_mergeWith (h rhs : MessageHeader) :
    (h.mergeWith rhs).view = h.view.mergeWith rhs.flat := by
  have hless : PatchVersion.lessThan h.view.updatePatchVersion rhs.flat.updatePatchVersion =
      PatchVersion.lessThan h.updatePatchVersion rhs.updatePatchVersion := rfl
  have hkeep : rhs.flat.keepsModification = rhs.keepsModification := rfl
  apply MessageHeader.ext
  case updatePatchVersion =>
    simp only [mergeWith, hless]
    cases hl : PatchVersion.lessThan h.updatePatchVersion rhs.updatePatchVersion <;>
      simp [view, flat]
  case modifications =>
    simp only [mergeWith, hkeep]
    cases hk : rhs.keepsModification <;> simp [view, flat]
  all_goals rfl

end MessageHeader

open MessageHeader

def viewMap (m : HeadersMap) : HeadersMap := m.mapValues view (fun _ => rfl)

@[simp] theorem items_viewMap (m : HeadersMap) : (viewMap m).items = m.items.map view := rfl

@[simp] theorem find_viewMap (m : HeadersMap) (k : Int64) :
    (viewMap m).find? k = (m.find? k).map view := KeyMap.find_mapValues m k

namespace ArchiveIndex

/-- The part of `insertHeader` that changes the map. -/
def insertMap (m : HeadersMap) (header : MessageHeader) : HeadersMap :=
  match m.find? header.id with
  | none => m.put header
  | some existing => (relinkNext m existing header).put (existing.mergeWith header)

theorem insertHeader_headersIndex (s : ArchiveIndex) (header : MessageHeader) (currentTime : Int) :
    (s.insertHeader header currentTime).1.headersIndex = insertMap s.headersIndex header := by
  unfold insertMap
  cases hf : s.headersIndex.find? header.id with
  | none => exact (insertHeader_new hf).1
  | some existing => exact insertHeader_existing hf

theorem insertHeaders_headersIndex (s : ArchiveIndex) (calls : List (MessageHeader × Int)) :
    (s.insertHeaders calls).headersIndex = calls.foldl (fun m c => insertMap m c.1) s.headersIndex := by
  induction calls generalizing s with
  | nil => rfl
  | cons c calls ih =>
    rw [List.foldl_cons, ← insertHeader_headersIndex s c.1 c.2]
    exact ih _

theorem mem_relinkNext {m : HeadersMap} {e h x : MessageHeader}
    (hx : x ∈ (relinkNext m e h).items) : ∃ y ∈ m.items, ∃ v, x = y.setPrevMsgid v := by
  have hsame : ∀ y ∈ m.items, ∃ z ∈ m.items, ∃ v, y = z.setPrevMsgid v :=
    fun y hy => ⟨y, hy, y.prevId, y.setPrevMsgid_self.symm⟩
  rcases relinkNext_cases m e h with he | ⟨next, v, ha, he⟩
  · exact hsame x (he ▸ hx)
  · rw [he] at hx
    rcases KeyMap.mem_put.mp hx with rfl | ⟨hm, _⟩
    · exact ⟨next, (KeyMap.above_mem ha).1, v, rfl⟩
    · exact hsame x hm

/-- Where a header of the index comes from after an insertion. -/
theorem mem_insertMap {m : HeadersMap} {h x : MessageHeader} (hx : x ∈ (insertMap m h).items) :
    x = h ∨ (∃ e ∈ m.items, e.id = h.id ∧ x = e.mergeWith h) ∨
      ∃ y ∈ m.items, ∃ v, x = y.setPrevMsgid v := by
  unfold insertMap at hx
  cases hf : m.find? h.id with
  | none =>
    rw [hf] at hx
    rcases KeyMap.mem_put.mp hx with rfl | ⟨hm, _⟩
    · exact Or.inl rfl
    · exact Or.inr (Or.inr ⟨x, hm, x.prevId, x.setPrevMsgid_self.symm⟩)
  | some e =>
    rw [hf] at hx
    obtain ⟨hem, hid⟩ := KeyMap.find_mem hf
    rcases KeyMap.mem_put.mp hx with rfl | ⟨hm, _⟩
    · exact Or.inr (Or.inl ⟨e, hem, hid, rfl⟩)
    · exact Or.inr (Or.inr (mem_relinkNext hm))

/-- What holds of every header of an index and of an inserted one, and outlives merging and
relinking, holds of every header afterwards. -/
theorem forall_insertMap {P : MessageHeader → Prop} {m : HeadersMap} {h : MessageHeader}
    (hm : ∀ x ∈ m.items, P x) (hh : P h) (hmerge : ∀ e, P e → e.id = h.id → P (e.mergeWith h))
    (hlink : ∀ x v, P x → P (x.setPrevMsgid v)) : ∀ x ∈ (insertMap m h).items, P x := by
  intro x hx
  rcases mem_insertMap hx with rfl | ⟨e, he, hid, rfl⟩ | ⟨y, hy, v, rfl⟩
  · exact hh
  · exact hmerge e (hm e he) hid
  · exact hlink y v (hm y hy)

theorem viewMap_putIf (m : HeadersMap) {p q : Prop} [Decidable p] [Decidable q] (hpq : p ↔ q)
    (v : MessageHeader) :
    viewMap (if p then m.put v else m) = if q then (viewMap m).put v.view else viewMap m := by
  by_cases hp : p
  · rw [if_pos hp, if_pos (hpq.mp hp)]
    exact KeyMap.put_mapValues m v
  · rw [if_neg hp, if_neg (mt hpq.mpr hp)]

theorem viewMap_relinkNext (m : HeadersMap) (e h : MessageHeader) :
    viewMap (relinkNext m e h) = relinkNext (viewMap m) e.view h.flat := by
  have ha : (viewMap m).above? e.view.id = (m.above? e.id).map view := KeyMap.above_mapValues m e.id
  unfold relinkNext
  rw [ha]
  cases m.above? e.id with
  | none => rfl
  | some next =>
    cases hd : h.isDeleted with
    | true =>
      have hd' : h.flat.isDeleted = true := hd
      simp only [Option.map_some, hd', if_true]
      exact viewMap_putIf m Iff.rfl _
    | false =>
      have hd' : h.flat.isDeleted = false := hd
      cases he : e.isDeleted with
      | true =>
        have he' : e.view.isDeleted = true := he
        simp only [Option.map_some, hd', he', Bool.false_eq_true, if_false, if_true]
        exact viewMap_putIf m Iff.rfl _
      | false =>
        have he' : e.view.isDeleted = false := he
        simp only [Option.map_some, hd', he', Bool.false_eq_true, if_false]

/-- Inserting a header shows only what the index and the header show. -/
theorem viewMap_insertMap (m : HeadersMap) {h : MessageHeader} (hm : h.modifications = []) :
    viewMap (insertMap m h) = insertMap (viewMap m) h.flat := by
  have hput : ∀ (m : HeadersMap) v, viewMap (m.put v) = (viewMap m).put v.view :=
    KeyMap.put_mapValues
  unfold insertMap
  rw [find_viewMap, flat_id]
  cases m.find? h.id with
  | none => rw [Option.map_none, hput, view_eq_flat hm]
  | some e =>
    simp only [Option.map_some]
    rw [hput, viewMap_relinkNext, view_mergeWith]

end ArchiveIndex

end Icq.Archive
