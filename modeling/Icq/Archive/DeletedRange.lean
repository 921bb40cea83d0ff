import Icq.Archive.Holes
import Icq.Lib.KeyMapRange

/-! Which links lead into a deleted range. -/

namespace Icq.Archive
open Icq.Lib ArchiveIndex

variable {s : ArchiveIndex} {upTo : Int64} {x : MessageHeader}

/-- The header is the next one behind the bound, which is in the index and which it names. -/
def NamesBound (s : ArchiveIndex) (upTo : Int64) (x : MessageHeader) : Prop :=
  upTo ∈ s.ids ∧ (s.headersIndex.above? upTo).map MessageHeader.id = some x.id ∧ x.prevId = upTo

instance (s : ArchiveIndex) (upTo : Int64) (x : MessageHeader) : Decidable (NamesBound s upTo x) :=
  inferInstanceAs (Decidable (_ ∧ _ ∧ _))

/-- A header as a deletion leaves it. -/
def cutOff (s : ArchiveIndex) (upTo : Int64) (x : MessageHeader) : MessageHeader :=
  if NamesBound s upTo x then x.setPrevMsgid (-1) else x

theorem cutOff_cases (s : ArchiveIndex) (upTo : Int64) (x : MessageHeader) :
    ∃ v, cutOff s upTo x = x.setPrevMsgid v := by
  rw [cutOff]
  split
  · exact ⟨-1, rfl⟩
  · exact ⟨x.prevId, x.setPrevMsgid_self.symm⟩

theorem map_cutOff {headers : List MessageHeader} (h : ∀ x ∈ headers, ¬ NamesBound s upTo x) :
    headers.map (cutOff s upTo) = headers :=
  (List.map_congr_left fun x hx => if_neg (h x hx)).trans (List.map_id headers)

/-- What a deletion leaves. -/
theorem deleteUpTo_items (s : ArchiveIndex) (upTo : Int64) :
    (s.deleteUpTo upTo).1.headersIndex.items =
      (s.headersIndex.items.filter fun h => decide (upTo < h.id)).map (cutOff s upTo) := by
  rw [deleteUpTo]
  cases hbound : s.headersIndex.lowerBound? upTo with
  | none =>
    have hbelow := KeyMap.lowerBound_none.mp hbound
    have hnone : s.headersIndex.items.filter (fun h => decide (upTo < h.id)) = [] := by
      refine List.filter_eq_nil_iff.mpr fun y hy hlt => ?_
      exact absurd (of_decide_eq_true hlt) (not_lt.mpr (le_of_lt (hbelow y hy)))
    rw [hnone]
    rfl
  | some header =>
    obtain ⟨hmem, hle⟩ := KeyMap.lowerBound_mem hbound
    dsimp only
    by_cases hfound : header.id = upTo
    · have hids : upTo ∈ s.ids := hfound ▸ mem_ids hmem
      have hfirst : (s.headersIndex.filter fun h => decide (upTo < h.id)).first? =
          s.headersIndex.above? upTo := List.head?_filter
      rw [if_pos hfound, hfirst]
      cases habove : s.headersIndex.above? upTo with
      | none =>
        refine (map_cutOff fun y _ hy => ?_).symm
        rw [NamesBound, habove] at hy
        exact absurd hy.2.1 (Option.some_ne_none _).symm
      | some after =>
        dsimp only
        by_cases hprev : after.prevId = upTo
        · have hafter : after ∈ (s.headersIndex.filter fun h => decide (upTo < h.id)).items :=
            List.mem_of_mem_head? (hfirst.trans habove)
          have hfind : (s.headersIndex.filter fun h => decide (upTo < h.id)).find?
              (after.setPrevMsgid (-1)).id = some after := KeyMap.find_of_mem hafter
          rw [if_pos hprev]
          refine (KeyMap.items_put_replace hfind).trans ?_
          refine List.map_congr_left fun y hy => ?_
          have hnames : NamesBound s upTo y ↔ y.id = after.id := by
            rw [NamesBound, habove]
            refine ⟨fun h => (Option.some.inj h.2.1).symm, fun h => ⟨hids, congrArg some h.symm, ?_⟩⟩
            exact KeyMap.eq_of_key hy hafter h ▸ hprev
          by_cases hid : y.id = after.id
          · rw [cutOff, if_pos (hnames.mpr hid), KeyMap.eq_of_key hy hafter hid]
            exact if_pos rfl
          · rw [cutOff, if_neg fun h => hid (hnames.mp h)]
            exact if_neg hid
        · rw [if_neg hprev]
          refine (map_cutOff fun y hy hnames => hprev ?_).symm
          rw [NamesBound, habove] at hnames
          have hafter := KeyMap.above_mem habove
          have hsame := KeyMap.eq_of_key (List.mem_filter.mp hy).1 hafter.1 (Option.some.inj hnames.2.1).symm
          exact hsame ▸ hnames.2.2
    · have hlt : upTo < header.id := lt_of_le_of_ne hle (Ne.symm hfound)
      have hids : upTo ∉ s.ids := by
        intro hmem'
        obtain ⟨y, hy, rfl⟩ := List.mem_map.mp hmem'
        exact absurd (KeyMap.lowerBound_le hbound hy le_rfl) (not_le.mpr hlt)
      have hrest : s.headersIndex.items.filter (fun h => decide (upTo < h.id)) =
          s.headersIndex.items.filter (fun h => decide (upTo ≤ h.id)) := by
        refine List.filter_congr fun y hy => decide_eq_decide.mpr ⟨le_of_lt, fun hle => ?_⟩
        exact lt_of_le_of_ne hle fun heq => hids (heq ▸ mem_ids hy)
      rw [if_neg hfound, map_cutOff fun y _ hy => hids hy.1, hrest]
      cases hfirst : s.headersIndex.first? with
      | none =>
        rw [List.head?_eq_none_iff.mp hfirst] at hmem
        cases hmem
      | some first =>
        dsimp only
        by_cases hsame : first.id = header.id
        · rw [if_pos hsame]
          refine (List.filter_eq_self.mpr fun y hy => decide_eq_true ?_).symm
          exact le_trans hle (hsame ▸ KeyMap.first_le hfirst hy)
        · rw [if_neg hsame]
          rfl

/-- No link is left into the deleted range, and nothing else changes. -/
structure SelfContained (s : ArchiveIndex) (upTo : Int64) : Prop where
  remaining : (s.deleteUpTo upTo).1.ids = s.ids.filter fun id => decide (upTo < id)
  kept : ∀ x ∈ (s.deleteUpTo upTo).1.headersIndex.items, ∃ y ∈ s.headersIndex.items, ∃ v,
    x = y.setPrevMsgid v
  unlinked : ∀ x ∈ (s.deleteUpTo upTo).1.headersIndex.items, ¬ (1 ≤ x.prevId ∧ x.prevId ≤ upTo)

/-- Behind the bound only the next header names a deleted one, and that is the bound. -/
def OnlyNextNames (s : ArchiveIndex) (upTo : Int64) : Prop :=
  ∀ x ∈ s.headersIndex.items, upTo < x.id → 1 ≤ x.prevId → x.prevId ≤ upTo → NamesBound s upTo x

theorem cutOff_id (x : MessageHeader) : (cutOff s upTo x).id = x.id := by
  obtain ⟨v, hv⟩ := cutOff_cases s upTo x
  rw [hv]
  rfl

theorem deleteUpTo_selfContained (s : ArchiveIndex) (upTo : Int64) :
    SelfContained s upTo ↔ OnlyNextNames s upTo := by
  have hitems := deleteUpTo_items s upTo
  constructor
  · intro h x hx hlt hge hle
    have hcut : cutOff s upTo x ∈ (s.deleteUpTo upTo).1.headersIndex.items :=
      hitems ▸ List.mem_map_of_mem (List.mem_filter.mpr ⟨hx, decide_eq_true hlt⟩)
    by_contra hnames
    refine h.unlinked _ hcut ?_
    rw [cutOff, if_neg hnames]
    exact ⟨hge, hle⟩
  · intro h
    refine ⟨?_, ?_, ?_⟩
    · rw [ArchiveIndex.ids, hitems, List.map_map, ArchiveIndex.ids, List.filter_map]
      exact List.map_congr_left fun x _ => cutOff_id x
    · intro x hx
      rw [hitems] at hx
      obtain ⟨y, hy, rfl⟩ := List.mem_map.mp hx
      exact ⟨y, (List.mem_filter.mp hy).1, cutOff_cases s upTo y⟩
    · intro x hx hlink
      rw [hitems] at hx
      obtain ⟨y, hy, rfl⟩ := List.mem_map.mp hx
      obtain ⟨hy, hlt⟩ := List.mem_filter.mp hy
      by_cases hnames : NamesBound s upTo y
      · rw [cutOff, if_pos hnames] at hlink
        exact absurd (show (1 : Int64) ≤ -1 from hlink.1) (by decide)
      · rw [cutOff, if_neg hnames] at hlink
        exact hnames (h y hy (of_decide_eq_true hlt) hlink.1 hlink.2)

instance decidableDescends : ∀ range, Decidable (Descends range)
  | [] => .isTrue trivial
  | _ :: below =>
    have := decidableDescends below
    inferInstanceAs (Decidable (_ ∧ _))

/-- Each visible header names the visible one below it. -/
def HoleFree (s : ArchiveIndex) : Prop := Descends s.headersIndex.items.reverse

instance (s : ArchiveIndex) : Decidable (HoleFree s) := decidableDescends _

/-- A deleted bound has been linked around already, and the next header keeps its link. -/
theorem deleteUpTo_relinked : HoleFree fourMessages ∧ DeletePatch (deletePatch 2) ∧
    ¬ SelfContained (fourMessages.insertHeaders [(deletePatch 2, 0)]) 2 := by
  refine ⟨by decide +kernel, deletePatch_delete 2, fun h => ?_⟩
  have hlink : ∃ x ∈ ((fourMessages.insertHeaders [(deletePatch 2, 0)]).deleteUpTo 2).1.headersIndex.items,
      1 ≤ x.prevId ∧ x.prevId ≤ 2 := by decide +kernel
  obtain ⟨x, hx, hin⟩ := hlink
  exact h.unlinked x hx hin

end Icq.Archive
