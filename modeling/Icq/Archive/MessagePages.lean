import Icq.Archive.NextHole
import Icq.Lib.Page

/-! Reading the history page by page. -/

namespace Icq.Archive
open Icq.Lib

inductive GetMessagePolicy where
  | getAll
  | skipPatchesAndDeleted
deriving DecidableEq, Repr

namespace ArchiveIndex

/-- The headers in front of a place, from there down. -/
def serializeEarly (count : Nat) : List MessageHeader → Nat → List MessageHeader → List MessageHeader
  | [], _, list => list
  | header :: below, notDeleted, list =>
    if header.isPatch then serializeEarly count below notDeleted list
    else if count ≤ notDeleted then list
    else
      serializeEarly count below (if !header.isDeleted then notDeleted + 1 else notDeleted)
        (header :: list)

/-- The headers from a place on. -/
def serializeLater (count : Nat) : List MessageHeader → Nat → List MessageHeader → List MessageHeader
  | [], _, list => list
  | header :: above, notDeleted, list =>
    if header.isPatch || header.isDeleted then serializeLater count above notDeleted list
    else if count ≤ notDeleted + 1 then list ++ [header]
    else serializeLater count above (notDeleted + 1) (list ++ [header])

/-- The first result is false for a place behind the last header. -/
def serializeFrom (s : ArchiveIndex) (fromId countEarly countLater : Int64)
    (list : List MessageHeader) (includeFrom : Bool) : Bool × List MessageHeader :=
  let items := s.headersIndex.items
  if items.isEmpty then (true, list)
  else if fromId ≠ -1 ∧ s.headersIndex.lowerBound? fromId = none then (false, list)
  else
    let early := items.filter fun h => decide (fromId = -1 ∨ h.id < fromId)
    let later := items.filter fun h => decide (fromId ≠ -1 ∧ fromId ≤ h.id)
    let cursor := if includeFrom && decide (countLater ≤ 0) then early ++ later.take 1 else early
    let list :=
      if 0 < countEarly then serializeEarly countEarly.toInt.toNat cursor.reverse 0 list else list
    let list :=
      if 0 < countLater then serializeLater countLater.toInt.toNat later 0 list else list
    (true, list)

/-- The headers whose messages are read from the data; none where nothing is left to read. -/
def getMessages (s : ArchiveIndex) (countEarly countLater : Int64) (policy : GetMessagePolicy) :
    Nat → Int64 → Option (List MessageHeader)
  | 0, _ => none
  | fuel + 1, fromId =>
    match (s.serializeFrom fromId countEarly countLater [] false).2 with
    | [] => some []
    | first :: headers =>
      if policy = .skipPatchesAndDeleted then
        let kept := (first :: headers).filter fun h => !(h.isPatch || h.isDeleted)
        if kept.isEmpty then getMessages s countEarly countLater policy fuel first.id
        else some kept
      else some (first :: headers)

end ArchiveIndex

open ArchiveIndex

variable {s : ArchiveIndex} {fromId : Int64} {count n : Nat} {l list : List MessageHeader}

def standing (h : MessageHeader) : Bool := !h.isDeleted

theorem visible_eq : visible = fun h => !h.isPatch && standing h := by
  funext h
  rw [visible, hidden, Bool.not_or]
  rfl

theorem serializeEarly_full (hn : count ≤ n) : serializeEarly count l n list = list := by
  induction l with
  | nil => rfl
  | cons h l ih =>
    rw [serializeEarly]
    by_cases hpatch : h.isPatch = true
    · rw [if_pos hpatch, ih]
    · rw [if_neg hpatch, if_pos hn]

/-- Of what is in front of a place a page is read. -/
theorem serializeEarly_eq (hn : n < count) :
    serializeEarly count l n list =
      (page standing count n (l.filter fun h => !h.isPatch)).reverse ++ list := by
  induction l generalizing n list with
  | nil => rfl
  | cons h l ih =>
    rw [serializeEarly]
    by_cases hpatch : h.isPatch = true
    · rw [if_pos hpatch, ih hn, List.filter_cons_of_neg (by simp [hpatch])]
    · rw [if_neg hpatch, if_neg (not_le.mpr hn), List.filter_cons_of_pos (by simp [hpatch]), page,
        List.reverse_cons, List.append_assoc, List.singleton_append]
      change serializeEarly count l (if standing h then n + 1 else n) (h :: list) = _
      generalize (if standing h then n + 1 else n) = n'
      split
      · rename_i hfull
        exact serializeEarly_full hfull
      · rename_i hfull
        exact ih (not_le.mp hfull)

/-- The visible headers in front of a place. -/
def availableBelow (s : ArchiveIndex) (fromId : Int64) : List MessageHeader :=
  (s.headersIndex.items.filter fun h => decide (fromId = -1 ∨ h.id < fromId)).filter visible

/-- The last entries of a list. -/
def newest (n : Nat) (l : List MessageHeader) : List MessageHeader := l.drop (l.length - n)

/-- What is read in front of a place. -/
theorem serializeFrom_early {countEarly : Int64} (hcount : 0 < countEarly)
    (hfrom : fromId = -1 ∨ ∃ h ∈ s.headersIndex.items, fromId ≤ h.id) :
    (s.serializeFrom fromId countEarly 0 [] false).2 =
      (page standing countEarly.toInt.toNat 0
        ((s.headersIndex.items.filter fun h => decide (fromId = -1 ∨ h.id < fromId)).reverse.filter
          fun h => !h.isPatch)).reverse := by
  have hpos : 0 < countEarly.toInt.toNat := by
    have := Int64.lt_iff_toInt_lt.mp hcount
    change 0 < countEarly.toInt at this
    omega
  have hbound : ¬ (fromId ≠ -1 ∧ s.headersIndex.lowerBound? fromId = none) := by
    rintro ⟨hne, hnone⟩
    obtain ⟨h, hmem, hle⟩ := hfrom.resolve_left hne
    exact absurd (KeyMap.lowerBound_none.mp hnone h hmem) (not_lt.mpr hle)
  rw [serializeFrom]
  by_cases hempty : s.headersIndex.items = []
  · rw [hempty]
    rfl
  · rw [if_neg (by simpa using hempty), if_neg hbound, Bool.false_and]
    dsimp only
    rw [if_neg Bool.false_ne_true, if_pos hcount, if_neg (lt_irrefl _), serializeEarly_eq hpos,
      List.append_nil]

/-- The visible headers of a page are the newest ones. -/
theorem filter_early (hn : 0 < n) (items : List MessageHeader) :
    ((page standing n 0 (items.reverse.filter fun h => !h.isPatch)).reverse).filter
        (fun h => !(h.isPatch || h.isDeleted)) = newest n (items.filter visible) := by
  have hpage := (page_isPrefix standing n 0 (items.reverse.filter fun h => !h.isPatch)).subset
  have hsame : (page standing n 0 (items.reverse.filter fun h => !h.isPatch)).filter
      (fun h => !(h.isPatch || h.isDeleted)) =
      (page standing n 0 (items.reverse.filter fun h => !h.isPatch)).filter standing := by
    refine List.filter_congr fun h hmem => ?_
    have hpatch := (List.mem_filter.mp (hpage hmem)).2
    rw [Bool.not_or, hpatch, Bool.true_and]
    rfl
  have hvisible : (items.reverse.filter fun h => !h.isPatch).filter standing =
      (items.filter visible).reverse := by
    rw [List.filter_filter, visible_eq, ← List.filter_reverse]
    refine List.filter_congr fun h _ => Bool.and_comm _ _
  rw [List.filter_reverse, hsame, filter_page standing hn, hvisible, Nat.sub_zero, newest,
    List.reverse_take, List.reverse_reverse, List.length_reverse]

/-- Where no header of a page is visible, everything that is no patch has been read. -/
theorem page_of_none_visible (hn : 0 < n) (items : List MessageHeader)
    (hnone : ((page standing n 0 (items.reverse.filter fun h => !h.isPatch)).reverse).filter
      (fun h => !(h.isPatch || h.isDeleted)) = []) :
    (page standing n 0 (items.reverse.filter fun h => !h.isPatch)).reverse =
      items.filter fun h => !h.isPatch := by
  have hstanding : (page standing n 0 (items.reverse.filter fun h => !h.isPatch)).countP standing = 0 := by
    rw [List.countP_eq_zero]
    intro h hmem hstanding
    have hpatch := (List.mem_filter.mp ((page_isPrefix standing n 0 _).subset hmem)).2
    refine List.filter_eq_nil_iff.mp hnone h (List.mem_reverse.mpr hmem) ?_
    rw [Bool.not_or, hpatch, Bool.true_and]
    exact hstanding
  rw [page_of_count_lt hn (by omega), ← List.filter_reverse, List.reverse_reverse]

/-- The pages end, and the newest visible headers in front of the place are read, in their order. -/
theorem getMessages_newest (s : ArchiveIndex) (fromId countEarly : Int64) (fuel : Nat)
    (hids : ∀ h ∈ s.headersIndex.items, 0 < h.id) (hcount : 0 < countEarly)
    (hfrom : fromId = -1 ∨ ∃ h ∈ s.headersIndex.items, fromId ≤ h.id) :
    s.getMessages countEarly 0 .skipPatchesAndDeleted (fuel + 2) fromId =
      some (newest countEarly.toInt.toNat (availableBelow s fromId)) := by
  have hpos : 0 < countEarly.toInt.toNat := by
    have := Int64.lt_iff_toInt_lt.mp hcount
    change 0 < countEarly.toInt at this
    omega
  have hsorted := s.headersIndex.sorted
  have hkept := filter_early hpos (s.headersIndex.items.filter fun h => decide (fromId = -1 ∨ h.id < fromId))
  have hnone := page_of_none_visible hpos
    (s.headersIndex.items.filter fun h => decide (fromId = -1 ∨ h.id < fromId))
  rw [getMessages, serializeFrom_early hcount hfrom, availableBelow]
  generalize (page standing countEarly.toInt.toNat 0 ((s.headersIndex.items.filter fun h =>
    decide (fromId = -1 ∨ h.id < fromId)).reverse.filter fun h => !h.isPatch)).reverse = read at hkept hnone ⊢
  cases read with
  | nil =>
    rw [← hkept]
    rfl
  | cons first rest =>
    dsimp only
    rw [if_pos rfl, hkept]
    by_cases hempty : newest countEarly.toInt.toNat ((s.headersIndex.items.filter fun h =>
        decide (fromId = -1 ∨ h.id < fromId)).filter visible) = []
    swap
    · rw [if_neg (by simpa using hempty)]
    rw [hempty, if_pos List.isEmpty_nil]
    have hall := hnone (hkept.trans hempty)
    obtain ⟨hfirst, hfront⟩ : first ∈ s.headersIndex.items ∧ (fromId = -1 ∨ first.id < fromId) := by
      have hmem : first ∈ first :: rest := List.mem_cons_self
      rw [hall] at hmem
      obtain ⟨hmem, hfront⟩ := List.mem_filter.mp (List.mem_filter.mp hmem).1
      exact ⟨hmem, of_decide_eq_true hfront⟩
    have hlowest : ∀ h ∈ first :: rest, first.id ≤ h.id := by
      have hread : (first :: rest).Pairwise fun a b => a.id < b.id := hall ▸ (hsorted.filter _).filter _
      intro h hmem
      rcases List.mem_cons.mp hmem with rfl | hmem
      · exact le_rfl
      · exact le_of_lt ((List.pairwise_cons.mp hread).1 h hmem)
    have hlow : (s.headersIndex.items.filter fun h => decide (first.id = -1 ∨ h.id < first.id)).reverse.filter
        (fun h => !h.isPatch) = [] := by
      refine List.filter_eq_nil_iff.mpr fun h hmem hpatch => ?_
      obtain ⟨hmem, hbelow⟩ := List.mem_filter.mp (List.mem_reverse.mp hmem)
      have hne : first.id ≠ -1 := by
        intro heq
        exact absurd (heq ▸ hids first hfirst) (by decide)
      have hlt := (of_decide_eq_true hbelow).resolve_left hne
      refine absurd (hlowest h ?_) (not_le.mpr hlt)
      rw [hall]
      refine List.mem_filter.mpr ⟨List.mem_filter.mpr ⟨hmem, decide_eq_true ?_⟩, hpatch⟩
      exact hfront.imp_right (lt_trans hlt)
    rw [getMessages, serializeFrom_early hcount (.inr ⟨first, hfirst, le_rfl⟩), hlow]
    rfl

/-- The two newest of four messages in front of the fourth. -/
theorem getMessages_newest_fourMessages :
    fourMessages.getMessages 2 0 .skipPatchesAndDeleted 2 4 =
      some (newest (2 : Int64).toInt.toNat (availableBelow fourMessages 4)) :=
  getMessages_newest fourMessages 4 2 0 (by decide +kernel) (by decide) (.inr (by decide +kernel))

end Icq.Archive
