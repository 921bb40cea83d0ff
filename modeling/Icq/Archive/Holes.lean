import Icq.Archive.ArchiveIndex
import Icq.Lib.Route

namespace Icq.Archive
open Icq.Lib Icq.Common

namespace ArchiveIndex

def ids (s : ArchiveIndex) : List Int64 := s.headersIndex.items.map MessageHeader.id

theorem ids_sorted (s : ArchiveIndex) : s.ids.Pairwise (· < ·) :=
  List.Pairwise.map _ (fun _ _ h => h) s.headersIndex.sorted

end ArchiveIndex

open ArchiveIndex

/-- The header a server sends for a deleted message. -/
structure DeletePatch (d : MessageHeader) : Prop where
  patch : d.isPatch = true
  deleted : d.isDeleted = true
  unlinked : d.prevId = -1

/-- Each header names the id just below it; the lowest one names `low`. -/
def Linked : Int64 → List MessageHeader → Prop
  | _, [] => True
  | low, h :: rest => h.prevId = low ∧ Linked h.id rest

/-- An index of messages without gaps. -/
structure CorrectlyChained (s : ArchiveIndex) : Prop where
  nonempty : s.headersIndex.items ≠ []
  noPatches : ∀ h ∈ s.headersIndex.items, h.isPatch = false
  positive : ∀ h ∈ s.headersIndex.items, 0 < h.id
  linked : Linked (-1) s.headersIndex.items

/-- The walk over the whole index meets no hole, if there is anything visible to walk over. -/
def Unbroken (s : ArchiveIndex) : Prop :=
  (∃ h ∈ s.headersIndex.items, hidden h = false) →
    ∀ hole, s.getNextHole (-1) hole (-1) = (.lastReached, hole)

/-- Deleted at first, or by one of the patches. -/
def isGone (s : ArchiveIndex) (gone : List Int64) (id : Int64) : Bool :=
  gone.contains id || s.headersIndex.items.any (fun h => h.id == id && h.isDeleted)

/-- Under every header that stays visible, the headers deleted right below it were all deleted
by the patches, the lowest id first. -/
def DeletedLowestFirst (s : ArchiveIndex) (gone : List Int64) : Prop :=
  ∀ x ∈ s.ids, isGone s gone x = false →
    LowestFirst gone ((belowKeys s.ids x).takeWhile (isGone s gone))

instance (s : ArchiveIndex) (gone : List Int64) : Decidable (DeletedLowestFirst s gone) :=
  List.decidableBAll (fun x => isGone s gone x = false →
    LowestFirst gone ((belowKeys s.ids x).takeWhile (isGone s gone))) s.ids

theorem linked_route {low : Int64} {hs : List MessageHeader} (h : Linked low hs)
    {lo hi : List MessageHeader} {x : MessageHeader} (he : hs = lo ++ x :: hi) :
    x.prevId = route low [] (lo.map MessageHeader.id).reverse := by
  induction lo generalizing low hs with
  | nil =>
    subst he
    exact h.1
  | cons a lo ih =>
    subst he
    rw [ih h.2 rfl, route_nil, route_nil]
    simp

theorem CorrectlyChained.route {s : ArchiveIndex} (h : CorrectlyChained s)
    {x : MessageHeader} (hx : x ∈ s.headersIndex.items) :
    x.prevId = route (-1) [] (belowKeys s.ids x.id) := by
  obtain ⟨lo, hi, he⟩ := List.append_of_mem hx
  have hids : s.ids = lo.map MessageHeader.id ++ x.id :: hi.map MessageHeader.id := by
    simp [ArchiveIndex.ids, he]
  rw [belowKeys_split s.ids_sorted hids]
  exact linked_route h.linked he

/-- What a run of delete patches leaves: the same ids, links routed around the deleted ones. -/
structure Unlinked (s₀ : ArchiveIndex) (gone : List Int64) (s : ArchiveIndex) : Prop where
  ids : s.ids = s₀.ids
  links : ∀ x ∈ s.headersIndex.items, x.prevId = route (-1) gone (belowKeys s.ids x.id)
  deleted : ∀ x ∈ s.headersIndex.items, x.isDeleted = isGone s₀ gone x.id
  noPatches : ∀ x ∈ s.headersIndex.items, x.isPatch = false

theorem isGone_nil {s : ArchiveIndex} {x : MessageHeader} (hx : x ∈ s.headersIndex.items) :
    isGone s [] x.id = x.isDeleted := by
  have hany : s.headersIndex.items.any (fun h => h.id == x.id && h.isDeleted) = x.isDeleted := by
    rw [Bool.eq_iff_iff, List.any_eq_true]
    constructor
    · rintro ⟨h, hm, hd⟩
      simp only [Bool.and_eq_true, beq_iff_eq] at hd
      exact KeyMap.eq_of_key hm hx hd.1 ▸ hd.2
    · intro hd
      exact ⟨x, hx, by simp [hd]⟩
  simp [isGone, hany]

theorem Unlinked.start {s : ArchiveIndex} (h : CorrectlyChained s) : Unlinked s [] s :=
  ⟨rfl, fun _ hx => h.route hx, fun _ hx => (isGone_nil hx).symm, h.noPatches⟩

/-- The entry at `k` after relinking around a header that is being deleted. -/
theorem find_relinkNext {m : HeadersMap} {e d : MessageHeader} (hd : d.isDeleted = true) (k : Int64) :
    (relinkNext m e d).find? k =
      match m.above? e.id with
      | none => m.find? k
      | some next =>
        if next.id = k ∧ next.prevId = e.id then some (next.setPrevMsgid e.prevId)
        else m.find? k := by
  unfold relinkNext
  cases m.above? e.id with
  | none => rfl
  | some next =>
    simp only [hd, if_true]
    by_cases hp : next.prevId = e.id
    · simp [hp, MessageHeader.setPrevMsgid]
    · simp [hp]

theorem relinkNext_keys (m : HeadersMap) (e d : MessageHeader) :
    (relinkNext m e d).items.map MessageHeader.id = m.items.map MessageHeader.id := by
  rcases relinkNext_cases m e d with he | ⟨next, v, ha, he⟩
  · rw [he]
  · have hf := KeyMap.find_of_mem (KeyMap.above_mem ha).1
    rw [he]
    exact KeyMap.keys_put_replace (v := next.setPrevMsgid v) hf

/-- A header that is met again keeps the ids of the index as they were. -/
theorem insertHeader_ids {s : ArchiveIndex} {d e : MessageHeader} (now : Int)
    (he : s.headersIndex.find? d.id = some e) : (s.insertHeader d now).1.ids = s.ids := by
  have hk := relinkNext_keys s.headersIndex e d
  have hid : e.id = d.id := (KeyMap.find_mem he).2
  have hmem : e.id ∈ (relinkNext s.headersIndex e d).items.map MessageHeader.id :=
    hk ▸ List.mem_map_of_mem (KeyMap.find_mem he).1
  obtain ⟨w, hw, hwe⟩ := List.mem_map.mp hmem
  have hf : (relinkNext s.headersIndex e d).find? (e.mergeWith d).id = some w := by
    rw [MessageHeader.mergeWith_id, ← hwe]
    exact KeyMap.find_of_mem hw
  rw [ArchiveIndex.ids, insertHeader_existing he, KeyMap.keys_put_replace hf, hk, ArchiveIndex.ids]

theorem find_insert_delete {s : ArchiveIndex} {d e : MessageHeader} (now : Int)
    (hd : d.isDeleted = true) (he : s.headersIndex.find? d.id = some e) (k : Int64) :
    (s.insertHeader d now).1.headersIndex.find? k =
      if e.id = k then some (e.mergeWith d)
      else match s.headersIndex.above? e.id with
        | none => s.headersIndex.find? k
        | some next =>
          if next.id = k ∧ next.prevId = e.id then some (next.setPrevMsgid e.prevId)
          else s.headersIndex.find? k := by
  rw [insertHeader_existing he, KeyMap.find_put, find_relinkNext hd]
  rfl

theorem DeletePatch.merge_prevId {d e : MessageHeader} (hd : DeletePatch d) :
    (e.mergeWith d).prevId = e.prevId := by
  simp [MessageHeader.mergeWith, hd.patch, hd.unlinked]

theorem isGone_append (s : ArchiveIndex) (gone : List Int64) (d k : Int64) :
    isGone s (gone ++ [d]) k = (k == d || isGone s gone k) := by
  rw [Bool.eq_iff_iff]
  simp only [isGone, List.contains_append, List.contains_cons, List.contains_nil, Bool.or_false,
    Bool.or_eq_true]
  constructor
  · rintro ((h | h) | h)
    · exact Or.inr (Or.inl h)
    · exact Or.inl h
    · exact Or.inr (Or.inr h)
  · rintro (h | h | h)
    · exact Or.inl (Or.inr h)
    · exact Or.inl (Or.inl h)
    · exact Or.inr h

/-- A link never leads to the header it belongs to. -/
theorem route_ne_self {ks : List Int64} {x : Int64} (hx : 0 < x) (gone : List Int64) :
    route (-1) gone (belowKeys ks x) ≠ x := by
  rcases route_mem (-1) gone (belowKeys ks x) with h | h
  · rw [h]
    rintro rfl
    exact absurd hx (by decide)
  · exact ne_of_lt (mem_belowKeys.mp h).2

theorem mem_ids {s : ArchiveIndex} {x : MessageHeader} (hx : x ∈ s.headersIndex.items) :
    x.id ∈ s.ids :=
  List.mem_map_of_mem hx

/-- What a header is after a delete patch: the patched one, the one above it with the link moved on,
or one that was there and did not link to it from above. -/
theorem mem_insert_delete {s : ArchiveIndex} {d e x : MessageHeader} (now : Int)
    (hd : d.isDeleted = true) (he : s.headersIndex.find? d.id = some e)
    (hx : x ∈ (s.insertHeader d now).1.headersIndex.items) :
    x = e.mergeWith d ∨
    (∃ next, s.headersIndex.above? e.id = some next ∧ next.prevId = e.id ∧
      x = next.setPrevMsgid e.prevId) ∨
    (x ∈ s.headersIndex.items ∧ x.id ≠ e.id ∧
      ∀ next, s.headersIndex.above? e.id = some next → next.id = x.id → next.prevId ≠ e.id) := by
  have hf := find_insert_delete now hd he x.id
  rw [KeyMap.find_of_mem hx] at hf
  by_cases hex : e.id = x.id
  · rw [if_pos hex] at hf
    exact .inl (Option.some.inj hf)
  rw [if_neg hex] at hf
  cases ha : s.headersIndex.above? e.id with
  | none =>
    simp only [ha] at hf
    exact .inr (.inr ⟨(KeyMap.find_mem hf.symm).1, Ne.symm hex, nofun⟩)
  | some next =>
    simp only [ha] at hf
    split at hf
    · rename_i hnext
      exact .inr (.inl ⟨next, rfl, hnext.2, Option.some.inj hf⟩)
    · rename_i hnext
      refine .inr (.inr ⟨(KeyMap.find_mem hf.symm).1, Ne.symm hex, fun next' he' hid hlink => ?_⟩)
      cases he'
      exact hnext ⟨hid, hlink⟩

section Above

variable {s : ArchiveIndex} {e x next : MessageHeader}

theorem belowKeys_above (he : e ∈ s.headersIndex.items)
    (ha : s.headersIndex.above? e.id = some next) :
    belowKeys s.ids next.id = e.id :: belowKeys s.ids e.id := by
  apply belowKeys_cons s.ids_sorted (mem_ids he) (KeyMap.above_mem ha).2
  intro c hc hcn
  obtain ⟨w, hw, rfl⟩ := List.mem_map.mp hc
  exact not_lt.mp fun hew => absurd (KeyMap.above_le ha hw hew) (not_le.mpr hcn)

/-- Where a header is the next one below, it is below the next one above it. -/
theorem above_of_head (hx : x ∈ s.headersIndex.items)
    (hh : (belowKeys s.ids x.id).head? = some e.id) :
    ∃ next, s.headersIndex.above? e.id = some next ∧ next.id = x.id := by
  obtain ⟨-, hlx, hmax⟩ := belowKeys_head s.ids_sorted hh
  cases ha : s.headersIndex.above? e.id with
  | none => exact absurd hlx (not_lt.mpr (KeyMap.above_none.mp ha x hx))
  | some next =>
    obtain ⟨hnm, hlt⟩ := KeyMap.above_mem ha
    refine ⟨next, rfl, le_antisymm (KeyMap.above_le ha hx hlx) (not_lt.mp fun hnlt => ?_)⟩
    exact absurd (hmax next.id (mem_ids hnm) hnlt) (not_le.mpr hlt)

end Above

section Step

variable {s₀ s : ArchiveIndex} {gone : List Int64} {d e x next : MessageHeader}

/-- The link of the header above leads to a header unless it is gone. -/
theorem Unlinked.linked_iff (h : Unlinked s₀ gone s) (hpos : ∀ k ∈ s.ids, 0 < k)
    (he : e ∈ s.headersIndex.items) (ha : s.headersIndex.above? e.id = some next) :
    next.prevId = e.id ↔ e.id ∉ gone := by
  have hlink := h.links next (KeyMap.above_mem ha).1
  rw [belowKeys_above he ha] at hlink
  constructor
  · intro hp hg
    have hroute : next.prevId = route (-1) (gone.takeWhile (· != e.id)) (belowKeys s.ids e.id) := by
      rw [hlink]
      simp [route, hg]
    exact route_ne_self (hpos _ (mem_ids he)) _ (hroute.symm.trans hp)
  · intro hg
    rw [hlink]
    simp [route, hg]

/-- A link stays right unless it is the one to the patched header. -/
theorem Unlinked.link_kept (h : Unlinked s₀ gone s) (hx : x ∈ s.headersIndex.items) {k : Int64}
    (hk : (belowKeys s.ids x.id).head? = some k → k ∈ gone) :
    x.prevId = route (-1) (gone ++ [k]) (belowKeys s.ids x.id) := by
  rw [h.links x hx, route_remove_other]
  intro a ha
  by_cases hak : a = k
  · exact .inr (hak ▸ hk (hak ▸ ha))
  · exact .inl hak

/-- One delete patch for a header of the index extends the run by one id. -/
theorem Unlinked.step (now : Int) (h : Unlinked s₀ gone s) (hpos : ∀ k ∈ s.ids, 0 < k)
    (hd : DeletePatch d) (he : s.headersIndex.find? d.id = some e) :
    Unlinked s₀ (gone ++ [d.id]) (s.insertHeader d now).1 := by
  obtain ⟨hem, hid⟩ := KeyMap.find_mem he
  have hids := insertHeader_ids now he
  have hother {x : MessageHeader} (hne : x.id ≠ d.id) :
      isGone s₀ (gone ++ [d.id]) x.id = isGone s₀ gone x.id := by
    rw [isGone_append, beq_eq_false_iff_ne.mpr hne, Bool.false_or]
  refine ⟨hids.trans h.ids, fun x hx => ?_, fun x hx => ?_, fun x hx => ?_⟩
  · rw [hids]
    rcases mem_insert_delete now hd.deleted he hx with rfl | ⟨next, ha, hlink, rfl⟩ | ⟨hxm, -, hnot⟩
    · rw [hd.merge_prevId, MessageHeader.mergeWith_id]
      refine h.link_kept hem fun hh => ?_
      exact absurd (belowKeys_head s.ids_sorted hh).2.1 (hid ▸ lt_irrefl _)
    · change e.prevId = route (-1) (gone ++ [d.id]) (belowKeys s.ids next.id)
      rw [belowKeys_above hem ha, ← hid, route_remove_head ((h.linked_iff hpos hem ha).mp hlink),
        h.links e hem]
    · refine h.link_kept hxm fun hh => ?_
      obtain ⟨next, ha, hnx⟩ := above_of_head hxm (hid ▸ hh)
      rw [← hid]
      exact not_not.mp ((h.linked_iff hpos hem ha).not.mp (hnot next ha hnx))
  · rcases mem_insert_delete now hd.deleted he hx with rfl | ⟨next, ha, -, rfl⟩ | ⟨hxm, hne, -⟩
    · have hdel : (e.mergeWith d).isDeleted = true := by
        simpa [MessageHeader.isDeleted] using hd.deleted
      rw [hdel, MessageHeader.mergeWith_id, hid, isGone_append, beq_self_eq_true, Bool.true_or]
    · obtain ⟨hnm, hlt⟩ := KeyMap.above_mem ha
      exact (h.deleted next hnm).trans (hother (hid ▸ ne_of_gt hlt)).symm
    · exact (h.deleted x hxm).trans (hother (hid ▸ hne)).symm
  · rcases mem_insert_delete now hd.deleted he hx with rfl | ⟨next, ha, -, rfl⟩ | ⟨hxm, -, -⟩
    · have hep : e.flags.patch = false := h.noPatches e hem
      simp [MessageHeader.isPatch, hep]
    · exact h.noPatches next (KeyMap.above_mem ha).1
    · exact h.noPatches x hxm

end Step

/-- A run of delete patches for headers of the index. -/
theorem Unlinked.run {s₀ s : ArchiveIndex} {gone : List Int64} (h : Unlinked s₀ gone s)
    (hpos : ∀ k ∈ s.ids, 0 < k) (calls : List (MessageHeader × Int))
    (hd : ∀ c ∈ calls, DeletePatch c.1 ∧ c.1.id ∈ s.ids) :
    Unlinked s₀ (gone ++ calls.map (fun c => c.1.id)) (s.insertHeaders calls) := by
  induction calls generalizing s gone with
  | nil => simpa [insertHeaders] using h
  | cons c calls ih =>
    obtain ⟨hp, hm⟩ := hd c List.mem_cons_self
    obtain ⟨e, he, hid⟩ := List.mem_map.mp hm
    have hf : s.headersIndex.find? c.1.id = some e := hid ▸ KeyMap.find_of_mem he
    have hids := insertHeader_ids c.2 hf
    have hs := h.step c.2 hpos hp hf
    have hr := ih hs (hids ▸ hpos) (fun x hx => hids ▸ hd x (List.mem_cons_of_mem _ hx))
    simpa [insertHeaders] using hr

/-- Every visible header names the next visible one below it, the lowest names none. -/
def Descends : List MessageHeader → Prop
  | [] => True
  | h :: below =>
    (hidden h = false →
      h.prevId = ((below.find? (fun x => !hidden x)).map MessageHeader.id).getD (-1)) ∧
      Descends below

theorem skip_head (range : List MessageHeader) :
    (skipPatchesAndDeletedForward range).head? = range.find? (fun x => !hidden x) := by
  induction range with
  | nil => rfl
  | cons h range ih =>
    cases hh : hidden h with
    | true => simpa [skipPatchesAndDeletedForward, hh] using ih
    | false => simp [skipPatchesAndDeletedForward, hh]

theorem descends_skip (range : List MessageHeader) :
    Descends (skipPatchesAndDeletedForward range) ↔ Descends range := by
  induction range with
  | nil => exact Iff.rfl
  | cons h range ih =>
    cases hh : hidden h with
    | true => simpa [skipPatchesAndDeletedForward, hh, Descends] using ih
    | false => simp [skipPatchesAndDeletedForward, hh]

theorem skip_visible {range rest : List MessageHeader} {h : MessageHeader}
    (he : skipPatchesAndDeletedForward range = h :: rest) : hidden h = false := by
  have hf : range.find? (fun x => !hidden x) = some h := by
    rw [← skip_head, he]
    rfl
  simpa using List.find?_some hf

theorem length_skip_le (range : List MessageHeader) :
    (skipPatchesAndDeletedForward range).length ≤ range.length :=
  (List.dropWhile_sublist _).length_le

/-- An unlimited walk reaches the last header exactly when no link is broken. -/
theorem findHole_lastReached (hole : ArchiveHole) {fuel : Nat} (depth : Int64)
    {current : MessageHeader} {below : List MessageHeader} (hv : hidden current = false)
    (hfuel : below.length < fuel) :
    findHole (-1) hole fuel depth (current :: below) = (.lastReached, hole) ↔
      Descends (current :: below) := by
  induction fuel generalizing current below depth with
  | zero => omega
  | succ fuel ih =>
    unfold findHole
    simp only [Descends, hv, true_implies]
    have hhead := skip_head below
    rw [← descends_skip below]
    cases hs : skipPatchesAndDeletedForward below with
    | nil =>
      rw [hs] at hhead
      rw [← hhead]
      by_cases hp : current.prevId = -1
      · simp [hp, Descends]
      · simp [hp]
    | cons prev rest =>
      rw [hs] at hhead
      have hlen : rest.length < fuel := by
        have := length_skip_le below
        rw [hs, List.length_cons] at this
        omega
      rw [← hhead]
      by_cases hp : current.prevId = prev.id
      · simp [hp, ih _ (skip_visible hs) hlen]
      · simp [hp]

theorem unbroken_iff (s : ArchiveIndex) : Unbroken s ↔ Descends s.headersIndex.items.reverse := by
  have hhead := skip_head s.headersIndex.items.reverse
  rw [← descends_skip]
  cases hs : skipPatchesAndDeletedForward s.headersIndex.items.reverse with
  | nil =>
    rw [hs] at hhead
    have hnone := List.find?_eq_none.mp hhead.symm
    constructor
    · intro _
      trivial
    · rintro _ ⟨h, hm, hv⟩
      exact absurd (hnone h (List.mem_reverse.mpr hm)) (by simp [hv])
  | cons current below =>
    rw [hs] at hhead
    have hcur : current ∈ s.headersIndex.items :=
      List.mem_reverse.mp (List.mem_of_find?_eq_some hhead.symm)
    have hv := skip_visible hs
    have hlast : ∃ last, s.headersIndex.last? = some last := by
      cases hl : s.headersIndex.last? with
      | none => exact absurd (List.getLast?_eq_none_iff.mp hl ▸ hcur) (by simp)
      | some last => exact ⟨last, rfl⟩
    obtain ⟨last, hlast⟩ := hlast
    have hwalk : ∀ hole, s.getNextHole (-1) hole (-1) = (.lastReached, hole) ↔
        Descends (current :: below) := by
      intro hole
      rw [← findHole_lastReached hole 0 hv (Nat.lt_succ_self below.length)]
      simp only [getNextHole, hlast, if_true, hs]
      rfl
    constructor
    · intro h
      exact (hwalk {}).mp (h ⟨current, hcur, hv⟩ {})
    · intro h _ hole
      exact (hwalk hole).mpr h

/-- The walk sees the ids and links of an index after a run of delete patches. -/
theorem Unlinked.descends_iff {s₀ s : ArchiveIndex} {gone : List Int64}
    (h : Unlinked s₀ gone s) :
    Descends s.headersIndex.items.reverse ↔
      ∀ x ∈ s₀.ids, isGone s₀ gone x = false →
        route (-1) gone (belowKeys s₀.ids x) =
          nextKept (-1) (isGone s₀ gone) (belowKeys s₀.ids x) := by
  have hhidden : ∀ x ∈ s.headersIndex.items, hidden x = isGone s₀ gone x.id := by
    intro x hx
    simp [hidden, h.noPatches x hx, h.deleted x hx]
  have hfind : ∀ range : List MessageHeader, (∀ x ∈ range, x ∈ s.headersIndex.items) →
      ((range.find? (fun x => !hidden x)).map MessageHeader.id).getD (-1) =
        nextKept (-1) (isGone s₀ gone) (range.map MessageHeader.id) := by
    intro range hr
    induction range with
    | nil => rfl
    | cons x range ih =>
      have ih := ih (fun y hy => hr y (List.mem_cons_of_mem _ hy))
      have hx := hhidden x (hr x List.mem_cons_self)
      cases hg : isGone s₀ gone x.id with
      | true => simpa [nextKept, hx, hg] using ih
      | false => simp [nextKept, hx, hg]
  have main : ∀ range : List MessageHeader, range <:+ s.headersIndex.items.reverse →
      (Descends range ↔ ∀ x ∈ range, isGone s₀ gone x.id = false →
        route (-1) gone (belowKeys s₀.ids x.id) =
          nextKept (-1) (isGone s₀ gone) (belowKeys s₀.ids x.id)) := by
    intro range hr
    induction range with
    | nil => simp [Descends]
    | cons x range ih =>
      have hmem : ∀ y ∈ x :: range, y ∈ s.headersIndex.items :=
        fun y hy => List.mem_reverse.mp (hr.subset hy)
      have hx := hmem x List.mem_cons_self
      have hbelow : range.map MessageHeader.id = belowKeys s₀.ids x.id := by
        obtain ⟨pre, hpre⟩ := hr
        have hsplit : s.ids = (range.map MessageHeader.id).reverse ++
            x.id :: (pre.map MessageHeader.id).reverse := by
          rw [ArchiveIndex.ids, ← List.reverse_reverse s.headersIndex.items, ← hpre]
          simp
        rw [← h.ids, belowKeys_split s.ids_sorted hsplit, List.reverse_reverse]
      rw [Descends, hfind range (fun y hy => hmem y (List.mem_cons_of_mem _ hy)), hbelow,
        ih ((List.suffix_cons x range).trans hr), hhidden x hx, h.links x hx, h.ids]
      simp
  rw [main _ (List.suffix_refl _)]
  constructor
  · intro hall k hk
    rw [← h.ids] at hk
    obtain ⟨x, hx, rfl⟩ := List.mem_map.mp hk
    exact hall x (List.mem_reverse.mpr hx)
  · intro hall x hx
    exact hall x.id (h.ids ▸ mem_ids (List.mem_reverse.mp hx))

/-- Deleting messages of a gapless index leaves it without holes exactly when every run of
deleted neighbours was deleted from its lowest id up. -/
theorem deletes_keep_chain_iff {s : ArchiveIndex} (hs : CorrectlyChained s)
    (calls : List (MessageHeader × Int))
    (hd : ∀ c ∈ calls, DeletePatch c.1 ∧ c.1.id ∈ s.ids) :
    Unbroken (s.insertHeaders calls) ↔ DeletedLowestFirst s (calls.map (fun c => c.1.id)) := by
  have hpos : ∀ k ∈ s.ids, 0 < k := by
    intro k hk
    obtain ⟨x, hx, rfl⟩ := List.mem_map.mp hk
    exact hs.positive x hx
  have hu := (Unlinked.start hs).run hpos calls hd
  rw [List.nil_append] at hu
  rw [unbroken_iff, hu.descends_iff]
  apply forall₂_congr
  intro x _
  apply imp_congr_right
  intro _
  apply route_eq_nextKept_iff
  · intro a ha
    simp [isGone, ha]
  · exact belowKeys_nodup s.ids_sorted
  · intro hb
    exact absurd (hpos _ (mem_belowKeys.mp hb).1) (by decide)

/-- Four messages in a row. -/
def fourMessages : ArchiveIndex :=
  ArchiveIndex.insertHeaders {}
    [({ id := 1, prevId := -1 }, 0), ({ id := 2, prevId := 1 }, 0), ({ id := 3, prevId := 2 }, 0),
      ({ id := 4, prevId := 3 }, 0)]

def deletePatch (id : Int64) : MessageHeader :=
  { id, flags := { patch := true, deleted := true } }

theorem fourMessages_chained : CorrectlyChained fourMessages where
  nonempty := by simp [fourMessages, insertHeaders, insertHeader, KeyMap.find?, KeyMap.putList]
  noPatches := by decide +kernel
  positive := by decide +kernel
  linked := ⟨by decide +kernel, by decide +kernel, by decide +kernel, by decide +kernel, trivial⟩

theorem deletePatch_delete (id : Int64) : DeletePatch (deletePatch id) := ⟨rfl, rfl, rfl⟩

theorem deletes_upwards_keep_chain :
    Unbroken (fourMessages.insertHeaders [(deletePatch 2, 0), (deletePatch 3, 0)]) := by
  refine (deletes_keep_chain_iff fourMessages_chained _ ?_).mpr (by decide +kernel)
  simp only [List.mem_cons, List.not_mem_nil, or_false, forall_eq_or_imp, forall_eq]
  exact ⟨⟨deletePatch_delete 2, by decide +kernel⟩, deletePatch_delete 3, by decide +kernel⟩

/-- Deleting the upper of two neighbours first leaves a hole that is none. -/
theorem deletes_downwards_break_chain :
    CorrectlyChained fourMessages ∧
      (∀ c ∈ [(deletePatch 3, (0 : Int)), (deletePatch 2, 0)],
        DeletePatch c.1 ∧ c.1.id ∈ fourMessages.ids) ∧
      ¬ Unbroken (fourMessages.insertHeaders [(deletePatch 3, 0), (deletePatch 2, 0)]) := by
  refine ⟨fourMessages_chained, ?_, ?_⟩
  · simp only [List.mem_cons, List.not_mem_nil, or_false, forall_eq_or_imp, forall_eq]
    exact ⟨⟨deletePatch_delete 3, by decide +kernel⟩, deletePatch_delete 2, by decide +kernel⟩
  · intro h
    have hv : ∃ h ∈ (fourMessages.insertHeaders
        [(deletePatch 3, 0), (deletePatch 2, 0)]).headersIndex.items, hidden h = false := by
      decide +kernel
    exact absurd (h hv {}) (by decide +kernel)

end Icq.Archive
