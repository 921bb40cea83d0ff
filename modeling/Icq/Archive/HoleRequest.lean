import Icq.Archive.NextHole

/-! The holes of an index that are asked for, and where the search for them goes on. -/

namespace Icq.Archive
open Icq.Lib ArchiveIndex

namespace ArchiveHole

def hasFrom (hole : ArchiveHole) : Bool := decide (0 < hole.fromId)

def hasTo (hole : ArchiveHole) : Bool := decide (0 < hole.toId)

end ArchiveHole

/-- Where to search on: behind a link that the answer did not mend. -/
def ArchiveIndex.validateHoleRequest (s : ArchiveIndex) (hole : ArchiveHole) (count : Int32) : Int64 :=
  if hole.fromId ≤ 0 || hole.toId ≤ 0 || decide (count.toInt.natAbs ≤ 1) then hole.fromId
  else
    match s.headersIndex.find? hole.fromId with
    | none => hole.fromId
    | some cursor =>
      if cursor.isPatch then hole.fromId
      else
        let below := (s.headersIndex.items.filter fun h => decide (h.id < hole.fromId)).reverse
        match skipPatchesAndDeletedForward below with
        | [] => hole.fromId
        | prev :: _ => if prev.id != cursor.prevId then prev.id else hole.fromId

variable {n m : Nat} {v : List MessageHeader} {s : ArchiveIndex}

theorem FirstLinks.mono (h : FirstLinks m v) (hle : n ≤ m) : FirstLinks n v := by
  have htake : v.take (n + 1) = (v.take (m + 1)).take (n + 1) := by
    rw [List.take_take, Nat.min_eq_left (by omega)]
  unfold FirstLinks
  rw [htake]
  exact List.IsChain.take h (n + 1)

/-- The first link that does not hold, or else the last header. -/
theorem first_break (hv : v ≠ []) : ∃ front a, FirstLinks front.length v ∧
    (v = front ++ [a] ∨ ∃ b rest, v = front ++ a :: b :: rest ∧ a.prevId ≠ b.id) := by
  induction v with
  | nil => exact absurd rfl hv
  | cons x v ih =>
    cases v with
    | nil => exact ⟨[], x, by simp [FirstLinks], .inl rfl⟩
    | cons y rest =>
      by_cases hlink : x.prevId = y.id
      · obtain ⟨front, a, hfirst, hcases⟩ := ih (List.cons_ne_nil _ _)
        refine ⟨x :: front, a, firstLinks_cons.mpr ⟨hlink, hfirst⟩, ?_⟩
        rcases hcases with hlast | ⟨b, rest', hbreak, hne⟩
        · exact .inl (by rw [hlast]; rfl)
        · exact .inr ⟨b, rest', by rw [hbreak]; rfl, hne⟩
      · exact ⟨[], x, by simp [FirstLinks], .inr ⟨y, rest, rfl, hlink⟩⟩

/-- What the search answers, by how far the links hold. -/
theorem getNextHole_cases (s : ArchiveIndex) (fromId : Int64) (hole : ArchiveHole) (depth : Int64)
    (hsize : s.headersIndex.size < 2 ^ 63) (hfrom : fromId = -1 ∨ fromId ∈ s.ids) :
    visibleFrom s fromId = [] ∧ s.getNextHole fromId hole depth = (.ok, hole) ∨
      depth ≠ -1 ∧ s.getNextHole fromId hole depth = (.depthReached, hole) ∨
      ∃ front a, FirstLinks front.length (visibleFrom s fromId) ∧
        ((visibleFrom s fromId = front ++ [a] ∧ s.getNextHole fromId hole depth =
          if a.prevId = -1 then (.lastReached, hole) else (.ok, { hole with fromId := a.id })) ∨
        ∃ b rest, visibleFrom s fromId = front ++ a :: b :: rest ∧ a.prevId ≠ b.id ∧
          s.getNextHole fromId hole depth = (.ok,
            { fromId := a.id, toId := b.id, depth := Int64.ofNat (front.length + 1) })) := by
  have hanswer := getNextHole_answer s fromId hole depth hsize hfrom
  by_cases hv : visibleFrom s fromId = []
  · exact .inl ⟨hv, hanswer.empty hv⟩
  · obtain ⟨front, a, hfirst, hcases⟩ := first_break hv
    have hlength : front.length < (visibleFrom s fromId).length := by
      rcases hcases with h | ⟨b, rest, h, -⟩ <;> simp [h]
    by_cases hdepth : depth = -1 ∨ 0 + front.length < stopDepth depth
    · refine .inr (.inr ⟨front, a, hfirst, ?_⟩)
      rcases hcases with hlast | ⟨b, rest, hbreak, hne⟩
      · exact .inl ⟨hlast, hanswer.finished front a hlast hfirst hdepth⟩
      · refine .inr ⟨b, rest, hbreak, hne, ?_⟩
        rw [hanswer.broken front a b rest hbreak hfirst hne hdepth, Nat.zero_add]
    · rw [not_or, not_lt] at hdepth
      refine .inr (.inl ⟨hdepth.1, hanswer.stopped hdepth.1 (by omega) (hfirst.mono (by omega))⟩)

/-- A header that the index does not have is looked for above the newest one only. -/
theorem getNextHole_absent {fromId depth : Int64} (hne : fromId ≠ -1) (habsent : fromId ∉ s.ids) :
    s.getNextHole fromId {} depth = (.indexNotFound, {}) ∨
      ∃ toId, s.getNextHole fromId {} depth = (.ok, { toId }) := by
  unfold getNextHole
  cases s.headersIndex.last? with
  | none => exact .inr ⟨-1, rfl⟩
  | some last =>
    have hnone : s.headersIndex.find? fromId = none := by
      rw [KeyMap.find_none]
      intro x hx hid
      exact habsent (List.mem_map.mpr ⟨x, hx, hid⟩)
    simp only [hne, hnone, if_false]
    split
    · exact .inr ⟨last.id, rfl⟩
    · exact .inl rfl

theorem mem_visibleFrom {fromId : Int64} {x : MessageHeader} : x ∈ visibleFrom s fromId ↔
    x ∈ s.headersIndex.items ∧ visible x = true ∧ (fromId = -1 ∨ x.id ≤ fromId) := by
  simp only [visibleFrom, List.mem_filter, List.mem_reverse, decide_eq_true_eq]
  constructor
  · rintro ⟨⟨hx, hle⟩, hv⟩
    exact ⟨hx, hv, hle⟩
  · rintro ⟨hx, hv, hle⟩
    exact ⟨⟨hx, hle⟩, hv⟩

theorem visibleFrom_sorted (s : ArchiveIndex) (fromId : Int64) :
    (visibleFrom s fromId).Pairwise fun a b => b.id < a.id := by
  apply List.Pairwise.filter
  rw [List.pairwise_reverse]
  exact s.headersIndex.sorted.filter _

/-- The search goes on where the hole began, or at the newest visible header below. -/
theorem validateHoleRequest_cases (s : ArchiveIndex) (hole : ArchiveHole) (count : Int32) :
    s.validateHoleRequest hole count = hole.fromId ∨
      0 < hole.fromId ∧ 0 < hole.toId ∧ ∃ x ∈ s.headersIndex.items, visible x = true ∧ x.id < hole.fromId ∧
        s.validateHoleRequest hole count = x.id ∧
        ∀ y ∈ s.headersIndex.items, visible y = true → y.id < hole.fromId → y.id ≤ x.id := by
  unfold validateHoleRequest
  split
  · exact .inl rfl
  · rename_i hids
    simp only [Bool.or_eq_true, decide_eq_true_eq, not_or, not_le] at hids
    split
    · exact .inl rfl
    · split
      · exact .inl rfl
      · simp only
        split
        · exact .inl rfl
        · rename_i prev rest hskip
          split
          · have hsorted : (prev :: rest).Pairwise fun a b : MessageHeader => b.id < a.id := by
              rw [← hskip]
              apply List.Pairwise.sublist (List.dropWhile_sublist _)
              rw [List.pairwise_reverse]
              exact s.headersIndex.sorted.filter _
            have hprev : prev ∈ s.headersIndex.items ∧ prev.id < hole.fromId := by
              have hmem := (List.dropWhile_sublist _).subset
                (show prev ∈ skipPatchesAndDeletedForward _ from hskip ▸ List.mem_cons_self)
              simpa using hmem
            refine .inr ⟨hids.1.1, hids.1.2, prev, hprev.1, ?_, hprev.2, rfl, ?_⟩
            · rw [visible, skip_visible hskip]
              rfl
            · intro y hy hv hlt
              have hmem : y ∈ (prev :: rest).filter visible := by
                rw [← hskip, filter_skip]
                simp [hy, hv, hlt]
              rcases List.mem_cons.mp (List.mem_filter.mp hmem).1 with rfl | hrest
              · exact le_rfl
              · exact le_of_lt ((List.pairwise_cons.mp hsorted).1 y hrest)
          · exact .inl rfl

end Icq.Archive
