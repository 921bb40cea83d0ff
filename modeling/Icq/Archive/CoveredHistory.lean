import Icq.Archive.HoleRequest
import Icq.Archive.TruthfulArchive
import Mathlib.Order.Interval.Finset.Nat

/-! How much of the history on the server a search for holes has been through. -/

namespace Icq.Archive
open Icq.Lib Icq.Tools Icq.Common ArchiveIndex

variable {server server' : ServerHistory} {s s' : ArchiveIndex} {fromId id top : Int64}
  {front rest : List MessageHeader} {a x : MessageHeader}

/-- There are fewer positive ids than half of the words. -/
theorem Truthful.size (ht : Truthful server s) : s.headersIndex.size < 2 ^ 63 := by
  have hnodup : (s.headersIndex.items.map fun x => x.id.toInt.toNat).Nodup := by
    rw [List.nodup_iff_pairwise_ne, List.pairwise_map]
    apply List.Pairwise.imp_of_mem _ s.headersIndex.sorted
    intro x y hx hy hlt
    have hpos := (ht.issued x hx).1
    rw [Int64.lt_iff_toInt_lt] at hlt hpos
    rw [Int64.toInt_zero] at hpos
    omega
  have hsub : (s.headersIndex.items.map fun x => x.id.toInt.toNat).toFinset ⊆
      Finset.Ioo 0 (2 ^ 63) := by
    intro n hn
    obtain ⟨x, hx, rfl⟩ := List.mem_map.mp (List.mem_toFinset.mp hn)
    have hpos := (ht.issued x hx).1
    have hlt := x.id.toInt_lt
    rw [Int64.lt_iff_toInt_lt, Int64.toInt_zero] at hpos
    rw [Finset.mem_Ioo]
    omega
  have hcard := Finset.card_le_card hsub
  rw [List.toFinset_card_of_nodup hnodup, List.length_map, Nat.card_Ioo] at hcard
  exact lt_of_le_of_lt hcard (by norm_num)

/-- All that the server has between two ids is shown. -/
def HoldsBetween (server : ServerHistory) (s : ArchiveIndex) (low top : Int64) : Prop :=
  ∀ id, server.Has id → low ≤ id → id ≤ top → s.Shows id

theorem shows_of_mem (hx : x ∈ visibleFrom s fromId) : s.Shows x.id := by
  obtain ⟨hmem, hv, -⟩ := mem_visibleFrom.mp hx
  exact ⟨x, hmem, rfl, hv⟩

/-- Where the links hold from the first header on, nothing is missing. -/
theorem shows_of_links (ht : Truthful server s) (hv : visibleFrom s fromId = front ++ a :: rest)
    (hfirst : FirstLinks front.length (visibleFrom s fromId)) (hid : server.Has id)
    (hhead : ∀ x ∈ (visibleFrom s fromId).head?, id ≤ x.id) : s.Shows id ∨ id < a.id := by
  have htake : (front ++ a :: rest).take (front.length + 1) = front ++ [a] := by
    rw [List.take_length_add_append, List.take_succ_cons, List.take_zero]
  have hsub : ∀ x ∈ front ++ [a], x ∈ visibleFrom s fromId := by
    intro x hx
    rw [hv]
    rcases List.mem_append.mp hx with h | h
    · exact List.mem_append_left _ h
    · exact List.mem_append_right _ (List.mem_singleton.mp h ▸ List.mem_cons_self)
  unfold FirstLinks at hfirst
  rw [hv, htake] at hfirst
  refine known_of_row hfirst (fun x hx => shows_of_mem (hsub x hx)) ?_ hid
    ?_
  · intro x hx
    obtain ⟨hmem, hvisible, -⟩ := mem_visibleFrom.mp (hsub x (List.mem_append_left _ hx))
    exact ht.links x hmem hvisible
  · intro x hx
    apply hhead
    rw [hv]
    cases front <;> simpa using hx

/-- What is not shown up to an id is not newer than where a search begins. -/
def Reaches (server : ServerHistory) (s : ArchiveIndex) (fromId top : Int64) : Prop :=
  ∀ id, server.Has id → id ≤ top → s.Shows id ∨ ∀ x ∈ (visibleFrom s fromId).head?, id ≤ x.id

theorem reaches_head (hx : x ∈ (visibleFrom s fromId).head?) : Reaches server s fromId x.id := by
  intro id _ hle
  refine .inr fun y hy => ?_
  obtain rfl := Option.some.inj (hx.symm.trans hy)
  exact hle

theorem le_head {y : MessageHeader} (hx : x ∈ (visibleFrom s fromId).head?)
    (hy : y ∈ visibleFrom s fromId) : y.id ≤ x.id := by
  obtain ⟨rest, hrest⟩ := List.head?_eq_some_iff.mp hx
  have hsorted := visibleFrom_sorted s fromId
  rw [hrest] at hy hsorted
  rcases List.mem_cons.mp hy with rfl | hy
  · exact le_rfl
  · exact le_of_lt ((List.pairwise_cons.mp hsorted).1 y hy)

theorem HoldsBetween.reaches (hcovers : HoldsBetween server s fromId top)
    (hshows : server.bound < fromId → s.Shows fromId) : Reaches server s fromId top := by
  intro id hid hle
  by_cases hge : fromId ≤ id
  · exact .inl (hcovers id hid hge hle)
  · refine .inr fun x hx => ?_
    obtain ⟨y, hy, hyid, hv⟩ := hshows (lt_trans hid.2 (not_le.mp hge))
    have hmem : y ∈ visibleFrom s fromId := mem_visibleFrom.mpr ⟨hy, hv, .inr hyid.le⟩
    exact le_trans (le_of_lt (not_le.mp hge)) (hyid ▸ le_head hx hmem)

theorem Reaches.covers (h : Reaches server s fromId top) (ht : Truthful server s)
    (hv : visibleFrom s fromId = front ++ a :: rest)
    (hfirst : FirstLinks front.length (visibleFrom s fromId)) : HoldsBetween server s a.id top := by
  intro id hid hge hle
  rcases h id hid hle with hin | hhead
  · exact hin
  · exact (shows_of_links ht hv hfirst hid hhead).resolve_right (not_lt.mpr hge)

/-- Where the links hold down to a header that names none, the index has everything. -/
theorem Reaches.all (h : Reaches server s fromId top) (ht : Truthful server s)
    (hv : visibleFrom s fromId = front ++ [a])
    (hfirst : FirstLinks front.length (visibleFrom s fromId)) (hlast : a.prevId = -1)
    (hid : server.Has id) (hle : id ≤ top) : s.Shows id := by
  rcases h id hid hle with hin | hhead
  · exact hin
  · rcases shows_of_links ht hv hfirst hid hhead with hin | hlt
    · exact hin
    · have ha : a ∈ visibleFrom s fromId := by simp [hv]
      obtain ⟨hmem, hvisible, -⟩ := mem_visibleFrom.mp ha
      rcases ht.links a hmem hvisible id hid hlt with hle' | hin
      · rw [hlast] at hle'
        exact absurd (lt_of_lt_of_le (server.positive id hid.1) hle') (by decide)
      · exact hin

end Icq.Archive
