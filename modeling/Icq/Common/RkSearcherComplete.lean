import Icq.Common.RkSearcher
import Icq.Lib.Resumable

/-! Both searchers find all that occurs, each once, and nothing else. -/

namespace Icq.Common
open Icq.Lib

variable {α π : Type} {f : Hashing α} {key : π → List α} {text : List α}

namespace Hashing

/-- At the place the text begins with characters that are equal to those of the pattern. -/
def OccursAt (f : Hashing α) (key : π → List α) (text : List α) (i : Nat) (p : π) : Prop :=
  ∃ found, found <+: text.drop i ∧ List.Forall₂ (fun x y => f.equal x y = true) found (key p)

/-- The patterns are as long as the hash, and a text that is equal to one has its hash. -/
structure Suits (f : Hashing α) (key : π → List α) (patterns : List π) : Prop where
  long : ∀ p ∈ patterns, f.width ≤ (key p).length
  agrees : ∀ p ∈ patterns, ∀ found,
    List.Forall₂ (fun x y => f.equal x y = true) found (key p) →
      f.hash (found.take f.width) = f.code key p

theorem Suits.perm {patterns order : List π} (h : f.Suits key patterns)
    (horder : order.Perm patterns) : f.Suits key order :=
  ⟨fun p hp => h.long p (horder.mem_iff.mp hp), fun p hp => h.agrees p (horder.mem_iff.mp hp)⟩

theorem forall₂_take_iff {l k : List α} (h : k.length ≤ l.length) :
    List.Forall₂ (fun x y => f.equal x y = true) (l.take k.length) k ↔
      (l.zip k).all (fun x => f.equal x.1 x.2) = true := by
  induction k generalizing l with
  | nil => simp
  | cons y k ih =>
    cases l with
    | nil => simp at h
    | cons x l =>
      rw [List.length_cons, List.take_succ_cons, List.forall₂_cons, List.zip_cons_cons, List.all_cons,
        Bool.and_eq_true, ih (Nat.le_of_succ_le_succ h)]

theorem occurs_iff {i : Nat} {p : π} :
    f.occurs key text none i p = true ↔ f.OccursAt key text i p := by
  rw [occurs, Bool.and_true, Bool.and_eq_true, decide_eq_true_iff]
  constructor
  · rintro ⟨hfits, hall⟩
    rw [← List.length_drop] at hfits
    exact ⟨_, List.take_prefix _ _, (forall₂_take_iff hfits).mpr hall⟩
  · rintro ⟨found, hprefix, hequal⟩
    have hlength := hequal.length_eq
    have hfits : (key p).length ≤ (text.drop i).length := hlength ▸ hprefix.length_le
    refine ⟨List.length_drop ▸ hfits, (forall₂_take_iff hfits).mp ?_⟩
    rwa [← hlength, ← List.prefix_iff_eq_take.mp hprefix]

theorem OccursAt.lt {i : Nat} {p : π} (h : f.OccursAt key text i p)
    (hlong : f.width ≤ (key p).length) : i + f.width ≤ text.length := by
  obtain ⟨found, hprefix, hequal⟩ := h
  have hlength := hprefix.length_le
  rw [hequal.length_eq, List.length_drop] at hlength
  have := f.width_pos
  omega

/-- What occurs at a place has the hash of the window there. -/
theorem OccursAt.hash {i : Nat} {p : π} {patterns : List π} (h : f.OccursAt key text i p)
    (hsuits : f.Suits key patterns) (hp : p ∈ patterns) : f.hash (f.window text i) = f.code key p := by
  obtain ⟨found, hprefix, hequal⟩ := h
  have hwindow : f.window text i = found.take f.width := by
    have hlonger : f.width ≤ found.length := by
      rw [hequal.length_eq]
      exact hsuits.long p hp
    obtain ⟨rest, hrest⟩ := hprefix
    rw [window, ← hrest, List.take_append_of_le_length hlonger]
  rw [hwindow]
  exact hsuits.agrees p hp _ hequal

/-- The pattern occurs at the place, and has the hash of what is there. -/
def meets (f : Hashing α) (key : π → List α) (text : List α) (i : Nat) (p : π) : Bool :=
  f.occurs key text none i p && decide (f.code key p = f.hash (f.window text i))

theorem meets_of_hash {i : Nat} {p : π} (h : f.code key p = f.hash (f.window text i)) :
    f.meets key text i p = f.occurs key text none i p := by
  simp [meets, h]

/-- Where the hash agrees with the comparison, what occurs is met. -/
theorem meets_of_suits {i : Nat} {p : π} {patterns : List π} (hsuits : f.Suits key patterns)
    (hp : p ∈ patterns) : f.meets key text i p = f.occurs key text none i p := by
  by_cases hoccurs : f.occurs key text none i p = true
  · exact meets_of_hash ((occurs_iff.mp hoccurs).hash hsuits hp).symm
  · simp [meets, hoccurs]

end Hashing

/-- All that occurs, each once and by its place, and nothing else. -/
structure Complete (f : Hashing α) (key : π → List α) (text : List α) (patterns : List π)
    (results : List (Nat × π)) : Prop where
  ordered : results.Pairwise fun r r' => r.1 ≤ r'.1
  nodup : results.Nodup
  exact : ∀ i p, (i, p) ∈ results ↔ p ∈ patterns ∧ f.OccursAt key text i p

namespace Complete

variable {patterns : List π} {results results' : List (Nat × π)}

theorem of_pairsFrom {n : Nat} (hn : n + f.width = text.length) (hpatterns : patterns.Nodup)
    (hlong : ∀ p ∈ patterns, f.width ≤ (key p).length)
    (hresults : results.Perm (pairsFrom patterns (f.occurs key text none) 0 (n + 1)))
    (hordered : results.Pairwise fun r r' => r.1 ≤ r'.1) :
    Complete f key text patterns results := by
  refine ⟨hordered, hresults.nodup_iff.mpr (nodup_pairsFrom hpatterns), fun i p => ?_⟩
  rw [hresults.mem_iff, mem_pairsFrom, Hashing.occurs_iff]
  refine ⟨fun h => h.2, fun h => ⟨⟨Nat.zero_le i, ?_⟩, h⟩⟩
  have := h.2.lt (hlong p h.1)
  omega

/-- Where the text is too short nothing occurs. -/
theorem nil (hlong : ∀ p ∈ patterns, f.width ≤ (key p).length)
    (h : patterns = [] ∨ text.length < f.width) : Complete f key text patterns [] := by
  refine ⟨List.Pairwise.nil, List.nodup_nil, fun i p => iff_of_false List.not_mem_nil ?_⟩
  rintro ⟨hp, hoccurs⟩
  rcases h with rfl | hshort
  · exact List.not_mem_nil hp
  · have := hoccurs.lt (hlong p hp)
    omega

/-- Two searchers that are complete find the same. -/
theorem perm (h : Complete f key text patterns results) (h' : Complete f key text patterns results') :
    results.Perm results' :=
  (List.perm_ext_iff_of_nodup h.nodup h'.nodup).mpr fun ⟨i, p⟩ => (h.exact i p).trans (h'.exact i p).symm

theorem of_perm {order : List π} (h : Complete f key text order results)
    (horder : order.Perm patterns) : Complete f key text patterns results :=
  ⟨h.ordered, h.nodup, fun i p => (h.exact i p).trans (and_congr_left' horder.mem_iff)⟩

end Complete

namespace RkSearcher

variable {s : RkSearcher π} {all : List π}

theorem firstOf_hit {occurs : π → Bool} {before rest : List π} {p : π}
    (hbefore : ∀ q ∈ before, occurs q = false) (hp : occurs p = true) :
    firstOf occurs (before ++ p :: rest) = some (p, rest) := by
  induction before with
  | nil => exact if_pos hp
  | cons q before ih =>
    obtain ⟨hq, hbefore⟩ := List.forall_mem_cons.mp hbefore
    rw [List.cons_append, firstOf, if_neg (Bool.eq_false_iff.mp hq), ih hbefore]

theorem firstOf_miss {occurs : π → Bool} {c : List π} (h : ∀ q ∈ c, occurs q = false) :
    firstOf occurs c = none := by
  induction c with
  | nil => rfl
  | cons q c ih =>
    obtain ⟨hq, h⟩ := List.forall_mem_cons.mp h
    rw [firstOf, if_neg (Bool.eq_false_iff.mp hq), ih h]

/-- The searcher is at a place, with the candidates `c` left of its bucket. -/
structure At (f : Hashing α) (text : List α) (all : List π) (bucketOf : Nat → Nat) (n i : Nat)
    (s : RkSearcher π) (c : List π) : Prop where
  lookup : s.lookup = all
  bucketOf : s.bucketOf = bucketOf
  nonempty : all ≠ []
  patterns : s.patterns = s.lookup.length
  head : s.head = c
  place : i + n + f.width = text.length

theorem At.search_eq {bucketOf : Nat → Nat} {n i : Nat} {c : List π}
    (h : At f text all bucketOf n i s c) : s.search f key text none i =
      s.searchLoop f key text none false i (n + 1) := by
  have hplace := h.place
  have hpos := f.width_pos
  rw [search, if_neg, if_neg, h.patterns, bne_self_eq_false]
  · congr 2
    · rw [← h.patterns]
    · omega
  · omega
  · rw [List.isEmpty_iff, h.lookup]
    exact h.nonempty

theorem searchLoop_miss {bucketOf : Nat → Nat} {n i : Nat} {c : List π}
    (h : At f text all bucketOf n i s c) (hnone : ∀ q ∈ c, f.occurs key text none i q = false)
    (m : Nat) : s.searchLoop f key text none false i (m + 1) =
      ({ s with head := [] } : RkSearcher π).searchLoop f key text none true (i + 1) m := by
  have hfirst : firstOf (f.occurs key text none i) s.head = none := by
    rw [h.head]
    exact firstOf_miss hnone
  rw [searchLoop, if_neg Bool.false_ne_true, hfirst]

/-- A bucket has all that occurs. -/
theorem filter_bucket (hsuits : f.Suits key s.lookup) (i : Nat) :
    (s.bucket f key (f.hash (f.window text i))).filter (f.occurs key text none i) =
      s.lookup.filter (f.occurs key text none i) := by
  rw [bucket, List.filter_filter]
  refine List.filter_congr fun p hp => ?_
  by_cases hoccurs : f.occurs key text none i p = true
  · simp [hoccurs, (Hashing.occurs_iff.mp hoccurs).hash hsuits hp]
  · simp [hoccurs]

/-- The candidates at a place are those of the bucket. -/
def enter (f : Hashing α) (key : π → List α) (text : List α) (s : RkSearcher π) (i : Nat) :
    RkSearcher π :=
  { s with head := s.bucket f key (f.hash (f.window text i)), patterns := s.lookup.length }

theorem scans (hsuits : f.Suits key all) (bucketOf : Nat → Nat) :
    Scans (fun s i => search f key text none s i) all (f.occurs key text none)
      (At f text all bucketOf) where
  hit {n i s before rest p} h hbefore hp := by
    have hfirst : firstOf (f.occurs key text none i) s.head = some (p, rest) := by
      rw [h.head]
      exact firstOf_hit hbefore hp
    refine ⟨{ s with head := rest }, ?_, ?_⟩
    · rw [h.search_eq, searchLoop, if_neg Bool.false_ne_true, hfirst]
    · exact ⟨h.lookup, h.bucketOf, h.nonempty, h.patterns, rfl, h.place⟩
  last h hnone := by
    rw [h.search_eq, searchLoop_miss h hnone]
    exact ⟨_, rfl⟩
  next {n i s c} h hnone := by
    have hat : At f text all bucketOf n (i + 1) (s.enter f key text (i + 1))
        (s.bucket f key (f.hash (f.window text (i + 1)))) := by
      refine ⟨h.lookup, h.bucketOf, h.nonempty, rfl, rfl, ?_⟩
      have := h.place
      omega
    refine ⟨_, _, ?_, hat, ?_⟩
    · rw [h.search_eq, hat.search_eq, searchLoop_miss h hnone, searchLoop, searchLoop, if_pos rfl,
        if_neg Bool.false_ne_true, enter, ← h.patterns]
      rfl
    · rw [filter_bucket (h.lookup ▸ hsuits), h.lookup]

/-- A searcher with which no search has begun finds all that occurs. -/
theorem search_complete (hlookup : s.lookup.Nodup)
    (hsuits : f.Suits key s.lookup) (hstart : s.patterns = 0) :
    ∃ results, Enumerates (fun s i => search f key text none s i) s 0 results ∧
      Complete f key text s.lookup results := by
  by_cases hempty : s.lookup = []
  · refine ⟨[], .done (show _ = (s, none) from ?_), .nil hsuits.long (.inl hempty)⟩
    rw [search, if_pos (List.isEmpty_iff.mpr hempty)]
  by_cases hshort : text.length < f.width
  · refine ⟨[], .done (show _ = (s, none) from ?_), .nil hsuits.long (.inr hshort)⟩
    rw [search, if_neg fun h => hempty (List.isEmpty_iff.mp h), Nat.sub_zero, if_pos hshort]
  have hlength : text.length - f.width + f.width = text.length :=
    Nat.sub_add_cancel (Nat.le_of_not_lt hshort)
  have hat : At f text s.lookup s.bucketOf (text.length - f.width) 0 (s.enter f key text 0)
      (s.bucket f key (f.hash (f.window text 0))) :=
    ⟨rfl, rfl, hempty, rfl, rfl, by omega⟩
  have hsearch : s.search f key text none 0 = (s.enter f key text 0).search f key text none 0 := by
    have hfresh : (s.patterns != s.lookup.length) = true := by
      rw [hstart, bne_iff_ne]
      exact fun h => hempty (List.length_eq_zero_iff.mp h.symm)
    have hcount : text.length - (f.width - 1) = text.length - f.width + 1 := by
      have := f.width_pos
      omega
    rw [hat.search_eq, search, if_neg fun h => hempty (List.isEmpty_iff.mp h), Nat.sub_zero,
      if_neg hshort, hfresh, hcount, Nat.sub_zero, searchLoop, searchLoop, if_pos rfl, if_neg Bool.false_ne_true]
    rfl
  obtain ⟨results, henum, hresults, hordered⟩ := (scans hsuits s.bucketOf).finds_start hat hsearch
    (by rw [filter_bucket hsuits])
  exact ⟨results, henum, .of_pairsFrom hlength hlookup hsuits.long hresults hordered⟩

end RkSearcher

end Icq.Common
