import Icq.Archive.IndexFile
import Icq.Archive.Persisted

namespace Icq.Archive
open Icq.Lib Icq.Tools Icq.Common MessageHeader ArchiveIndex

/-- Every state that insertions, deletions and loading can bring a new index into. The file that
is loaded may hold anything. -/
inductive Reachable : ArchiveIndex → Prop where
  | new : Reachable {}
  | insertHeader {s : ArchiveIndex} (h : MessageHeader) (currentTime : Int) :
      Reachable s → NewHeader h → Reachable (s.insertHeader h currentTime).1
  | deleteUpTo {s : ArchiveIndex} (upTo : Int64) : Reachable s → Reachable (s.deleteUpTo upTo).1
  | loadFromLocal {s s' : ArchiveIndex} (disk : Disk) (currentTime : Int) (ok : Bool) :
      Reachable s → s.loadFromLocal disk currentTime = some (ok, s') → Reachable s'

/-- A modification belongs to its header and is not newer than it. -/
structure SoundModification (e m : MessageHeader) : Prop where
  id : m.id = e.id
  keeps : m.keepsModification = true
  version : m.version ≤ headerVersion
  bits : BitsFit m
  older : PatchVersion.lessThan e.updatePatchVersion m.updatePatchVersion = false

structure SoundHeader (e : MessageHeader) : Prop where
  version : e.version ≤ headerVersion
  positive : 0 < e.id
  bits : BitsFit e
  modifications : ∀ m ∈ e.modifications, SoundModification e m

theorem NewHeader.sound {h : MessageHeader} (hn : NewHeader h) : SoundHeader h :=
  ⟨hn.version, hn.positive, hn.bits, by simp [hn.single]⟩

theorem SoundHeader.setPrevMsgid {e : MessageHeader} (h : SoundHeader e) (v : Int64) :
    SoundHeader (e.setPrevMsgid v) :=
  ⟨h.version, h.positive, ⟨h.bits.1, h.bits.2, h.bits.3, h.bits.4, h.bits.5⟩, fun m hm =>
    let s := h.modifications m hm
    ⟨s.id, s.keeps, s.version, s.bits, s.older⟩⟩

/-- Of two versions a merge keeps the newer one. -/
theorem not_lessThan_merge {p q r : PatchVersion}
    (h : PatchVersion.lessThan p r = false ∨ PatchVersion.lessThan q r = false) :
    PatchVersion.lessThan (if PatchVersion.lessThan p q then q else p) r = false := by
  cases hpq : PatchVersion.lessThan p q with
  | false =>
    rw [if_neg Bool.false_ne_true]
    rcases h with h | h
    · exact h
    · exact PatchVersion.not_textLess_trans hpq h
  | true =>
    rw [if_pos rfl]
    rcases h with h | h
    · exact PatchVersion.not_textLess_trans (PatchVersion.textLess_asymm hpq) h
    · exact h

theorem SoundHeader.merge {e h : MessageHeader} (he : SoundHeader e) (hh : SoundHeader h)
    (hid : e.id = h.id) : SoundHeader (e.mergeWith h) := by
  refine ⟨hh.version, he.positive, ⟨hh.bits.1, hh.bits.2, hh.bits.3, hh.bits.4, hh.bits.5⟩, ?_⟩
  have hold : ∀ m ∈ e.modifications, SoundModification (e.mergeWith h) m := by
    intro m hm
    have s := he.modifications m hm
    exact ⟨s.id, s.keeps, s.version, s.bits, not_lessThan_merge (Or.inl s.older)⟩
  intro m hm
  rw [mergeWith_modifications] at hm
  split at hm
  · rename_i hk
    rcases List.mem_append.mp hm with hm | hm
    · exact hold m hm
    · obtain rfl := List.mem_singleton.mp hm
      exact ⟨hid.symm, hk, hh.version, hh.bits,
        not_lessThan_merge (Or.inr (PatchVersion.lessThan_irrefl _))⟩
  · exact hold m hm

def SoundIndex (s : ArchiveIndex) : Prop := ∀ e ∈ s.headersIndex.items, SoundHeader e

theorem SoundIndex.insert {s : ArchiveIndex} {h : MessageHeader} {currentTime : Int}
    (hs : SoundIndex s) (hh : SoundHeader h) : SoundIndex (s.insertHeader h currentTime).1 := by
  unfold SoundIndex
  rw [insertHeader_headersIndex]
  exact forall_insertMap hs hh (fun e he hid => he.merge hh hid) (fun x v hx => hx.setPrevMsgid v)

theorem SoundIndex.deleteUpTo {s : ArchiveIndex} (hs : SoundIndex s) (upTo : Int64) :
    SoundIndex (s.deleteUpTo upTo).1 := by
  intro x hx
  obtain ⟨_, y, hy, v, rfl⟩ := mem_deleteUpTo hx
  exact (hs y hy).setPrevMsgid v

theorem SoundIndex.load {s s' : ArchiveIndex} {disk : Disk} {currentTime : Int} {ok : Bool}
    (hs : SoundIndex s) (h : s.loadFromLocal disk currentTime = some (ok, s')) : SoundIndex s' := by
  have hread : ∀ {ok s'}, s.readLocal disk currentTime = some (ok, s') → SoundIndex s' := by
    intro ok s' h
    rcases readLocal_induct (P := SoundIndex) h (fun e he => absurd he (by simp))
        (fun t x ht hx => ht.insert hx.sound) (fun t x ht hx => ht.insert (hs x hx)) with
      ⟨_, e, rfl⟩ | ⟨t, ht, he, _⟩
    · exact hs
    · intro x hx
      exact ht x (he ▸ hx)
  unfold loadFromLocal at h
  split at h
  · cases h
  · rename_i hr
    simp only [Option.some.injEq, Prod.mk.injEq] at h
    exact h.2 ▸ hread hr
  · rename_i hr
    simp only [Option.some.injEq, Prod.mk.injEq] at h
    intro x hx
    exact hread hr x (mem_dropOutdatedHeaders (h.2 ▸ hx))

/-- Every header of a reachable index is sound. -/
theorem Reachable.sound {s : ArchiveIndex} (h : Reachable s) : SoundIndex s := by
  induction h with
  | new => exact fun e he => absurd he (by simp)
  | insertHeader h _ _ hn ih => exact ih.insert hn.sound
  | deleteUpTo upTo _ ih => exact ih.deleteUpTo upTo
  | loadFromLocal disk currentTime ok _ hl ih => exact ih.load hl

/-- Blocks that were all written lie in the file. -/
theorem writeGroups_ok {storage : Storage} {groups : List (List MessageHeader)}
    (hm : ∀ g ∈ groups, (serializeBlock g).length ≤ maxDataBlockSize.toNat)
    (ha : storage.stream.AtEnd) (h : (writeGroups storage groups).1 = true) :
    (writeGroups storage groups).2.stream.bytes = storage.stream.bytes ++ blockFile groups := by
  induction groups generalizing storage with
  | nil => simp [writeGroups, blockFile]
  | cons g groups ih =>
    obtain ⟨hw, _⟩ := Storage.writeDataBlock_cases ha (BinaryStream.ordered_ofBytes (serializeBlock g))
    simp only [writeGroups] at h ⊢
    split at h
    · rename_i hok
      obtain ⟨_, ha', hb⟩ := hw hok
      rw [if_pos hok, ih (fun x hx => hm x (List.mem_cons_of_mem _ hx)) ha' h, hb,
        BinaryStream.unread_ofBytes, ← (Storage.size_fits (hm g List.mem_cons_self)).1,
        List.take_length]
      simp [blockFile, frame]
    · cases h

theorem saveAll_ok {s : ArchiveIndex} {disk : Disk}
    (hm : ∀ g ∈ saveGroups [] s.headersIndex.items,
      (serializeBlock g).length ≤ maxDataBlockSize.toNat)
    (h : (s.saveAll disk).1 = true) :
    (s.saveAll disk).2.file = some (blockFile (saveGroups [] s.headersIndex.items)) ∧
      (s.saveAll disk).2.Usable := by
  unfold saveAll at h ⊢
  cases ho : Storage.open { write := true, truncate := true } disk with
  | error e => simp [ho] at h
  | ok storage =>
    simp only [ho] at h ⊢
    obtain ⟨hb, ha⟩ := Disk.open_truncate ho
    refine ⟨?_, Disk.close_usable ho⟩
    simp only [Disk.close]
    rw [writeGroups_ok hm ha h, hb, List.nil_append]

/-- The blocks hold every header, followed by what is saved of its modifications. -/
theorem saveGroups_flatten (headers items : List MessageHeader) (h : items ≠ [] ∨ headers = []) :
    (saveGroups headers items).flatten = headers ++ items.flatMap saved := by
  induction items generalizing headers with
  | nil => simpa [saveGroups] using h
  | cons e items ih =>
    simp only [saveGroups]
    split
    · rw [List.flatten_cons, ih [] (Or.inr rfl)]
      simp
    · rename_i hc
      have hne : items ≠ [] := by
        rintro rfl
        simp at hc
      rw [ih _ (Or.inl hne)]
      simp

/-- What loading makes of a header and the modifications saved behind it. -/
def restore (e : MessageHeader) : MessageHeader :=
  (saved e).tail.foldl (fun x m => x.mergeWith m.stored) e.stored

theorem insertMap_new_last {m : HeadersMap} {g : MessageHeader}
    (h : ∀ w ∈ m.items, w.id < g.id) : (insertMap m g).items = m.items ++ [g] := by
  have hf : m.find? g.id = none := KeyMap.find_none.mpr (fun w hw => ne_of_lt (h w hw))
  rw [insertMap, hf]
  exact KeyMap.items_put_last h

theorem insertMap_last {m : HeadersMap} {l : List MessageHeader} {x g : MessageHeader}
    (hm : m.items = l ++ [x]) (hid : x.id = g.id) :
    (insertMap m g).items = l ++ [x.mergeWith g] := by
  have hx : x ∈ m.items := by simp [hm]
  have hf : m.find? g.id = some x := hid ▸ KeyMap.find_of_mem hx
  have hs := m.sorted
  rw [hm] at hs
  have hlt : ∀ w ∈ l, w.id < x.id := fun w hw =>
    (List.pairwise_append.mp hs).2.2 w hw x List.mem_cons_self
  have ha : m.above? x.id = none := by
    apply KeyMap.above_none.mpr
    intro w hw
    rw [hm] at hw
    rcases List.mem_append.mp hw with hw | hw
    · exact le_of_lt (hlt w hw)
    · rw [List.mem_singleton.mp hw]
  have hlink : relinkNext m x g = m := by
    unfold relinkNext
    rw [ha]
  rw [insertMap, hf]
  simp only [hlink]
  rw [KeyMap.items_put_replace (v := x.mergeWith g) (w := x) (KeyMap.find_of_mem hx), hm,
    List.map_append]
  congr 1
  · refine (List.map_congr_left ?_).trans (List.map_id l)
    intro w hw
    exact if_neg (ne_of_lt (hlt w hw))
  · simp

theorem foldl_insertMap_last {m : HeadersMap} {l ms : List MessageHeader} {x : MessageHeader}
    (hm : m.items = l ++ [x]) (hid : ∀ g ∈ ms, g.id = x.id) :
    (ms.foldl (fun m g => insertMap m g.stored) m).items =
      l ++ [ms.foldl (fun x g => x.mergeWith g.stored) x] := by
  induction ms generalizing m x with
  | nil => exact hm
  | cons g ms ih =>
    have hg := hid g List.mem_cons_self
    exact ih (insertMap_last hm hg.symm) (fun y hy => hid y (List.mem_cons_of_mem _ hy))

theorem restore_id (e : MessageHeader) : (restore e).id = e.id := by
  have hfold : ∀ (ms : List MessageHeader) (x : MessageHeader),
      (ms.foldl (fun x m => x.mergeWith m.stored) x).id = x.id := by
    intro ms
    induction ms with
    | nil => exact fun _ => rfl
    | cons m ms ih => exact fun x => ih _
  exact hfold _ _

/-- Loading the saved headers of an index restores one after the other. -/
theorem foldl_insertMap_saved {m : HeadersMap} (done : List MessageHeader)
    {items : List MessageHeader}
    (hm : m.items = done.map restore)
    (hs : (done ++ items).Pairwise (fun a b => a.id < b.id))
    (hid : ∀ e ∈ items, ∀ g ∈ e.modifications, g.id = e.id) :
    ((items.flatMap saved).foldl (fun m g => insertMap m g.stored) m).items =
      (done ++ items).map restore := by
  induction items generalizing m done with
  | nil => simpa using hm
  | cons e items ih =>
    have hbelow : ∀ w ∈ m.items, w.id < e.stored.id := by
      intro w hw
      rw [hm] at hw
      obtain ⟨d, hd, rfl⟩ := List.mem_map.mp hw
      rw [restore_id]
      exact (List.pairwise_append.mp hs).2.2 d hd e List.mem_cons_self
    have hmods : ∀ g ∈ (saved e).tail, g.id = e.stored.id := by
      intro g hg
      simp only [saved, List.tail_cons] at hg
      split at hg
      · exact hid e List.mem_cons_self g hg
      · cases hg
    have hfirst := insertMap_new_last hbelow
    have hfold := foldl_insertMap_last hfirst hmods
    rw [List.flatMap_cons, List.foldl_append, show saved e = e :: (saved e).tail from rfl,
      List.foldl_cons]
    rw [ih (done ++ [e]) (by rw [hfold, hm]; simp [restore])
      (by simpa using hs) (fun x hx => hid x (List.mem_cons_of_mem _ hx))]
    simp

end Icq.Archive
