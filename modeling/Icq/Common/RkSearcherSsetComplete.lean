import Icq.Common.RkSearcherComplete
import Mathlib.Data.List.TakeWhile

/-! The searcher with two arrays: what reordering and resuming leave of a bucket. -/

namespace Icq.Common
open Icq.Lib

variable {α π : Type} {f : Hashing α} {key : π → List α} {text : List α}

/-- Up to the match the patterns change places, and it is returned from where it is then. -/
theorem ReorderingPolicy.reorder_spec (policy : ReorderingPolicy) (pre before rest : List π) (p : π) :
    ∃ mixed cur, mixed.Perm (before ++ [p]) ∧
      policy.reorder (pre.length + before.length) pre.length (pre ++ (before ++ p :: rest)) =
        (pre ++ (mixed ++ rest), cur) ∧ (pre ++ (mixed ++ rest))[cur]? = some p := by
  have hstay : (pre ++ (before ++ p :: rest))[pre.length + before.length]? = some p := by
    simp
  rcases List.eq_nil_or_concat' before with rfl | ⟨init, q, rfl⟩
  · exact ⟨[p], pre.length, List.Perm.refl _, if_pos rfl, hstay⟩
  have hmoves : pre.length + (init ++ [q]).length ≠ pre.length := by simp
  have hend : (pre ++ (init ++ [q] ++ p :: rest)).drop (pre.length + (init ++ [q]).length + 1) =
      rest := by
    rw [Nat.add_assoc, List.drop_length_add_append, List.drop_length_add_append]
    rfl
  have hfound : (pre ++ (init ++ [q] ++ p :: rest)).drop (pre.length + (init ++ [q]).length) =
      p :: rest := by
    rw [List.drop_length_add_append, List.drop_left']
    rfl
  cases policy with
  | none =>
    refine ⟨init ++ [q] ++ [p], pre.length + (init ++ [q]).length, List.Perm.refl _,
      (if_neg hmoves).trans ?_, ?_⟩
    · rw [List.append_assoc _ [p], List.singleton_append]
    · rwa [List.append_assoc _ [p], List.singleton_append]
  | mtf =>
    refine ⟨p :: (init ++ [q]), pre.length, List.perm_append_singleton p _ |>.symm,
      (if_neg hmoves).trans ?_, ?_⟩
    · have htaken : ((pre ++ (init ++ [q] ++ p :: rest)).take
          (pre.length + (init ++ [q]).length)).drop pre.length = init ++ [q] := by
        rw [List.take_length_add_append, List.drop_left', List.take_left']
        · rfl
        · rfl
      dsimp only
      rw [hfound, hend, htaken, List.take_left']
      · simp
      · rfl
    · simp
  | transpose =>
    have hprev : pre.length + (init ++ [q]).length - 1 = pre.length + init.length := by simp
    refine ⟨init ++ [p, q], pre.length + init.length, ?_, (if_neg hmoves).trans ?_, ?_⟩
    · rw [List.append_assoc]
      exact (List.Perm.swap q p []).append_left init
    · have hother : (pre ++ (init ++ [q] ++ p :: rest)).drop (pre.length + init.length) =
          q :: p :: rest := by
        rw [List.drop_length_add_append, List.append_assoc, List.drop_left']
        · rfl
        · rfl
      have htaken : (pre ++ (init ++ [q] ++ p :: rest)).take (pre.length + init.length) =
          pre ++ init := by
        rw [List.take_length_add_append, List.append_assoc, List.take_left']
        rfl
      dsimp only
      rw [hprev, hfound, hend, hother, htaken]
      simp
    · simp

/-- The patterns from some place on, of which one is a match. -/
theorem ReorderingPolicy.reorder_found (policy : ReorderingPolicy) {patterns before rest : List π}
    {p : π} {first : Nat} (h : patterns.drop first = before ++ p :: rest) :
    ∃ mixed cur, mixed.Perm (before ++ [p]) ∧
      policy.reorder (first + before.length) first patterns =
        (patterns.take first ++ (mixed ++ rest), cur) ∧
      (patterns.take first ++ (mixed ++ rest))[cur]? = some p ∧
      (patterns.take first).length = first := by
  have hfirst : (patterns.take first).length = first := by
    refine List.length_take_of_le (Nat.le_of_not_lt fun hover => ?_)
    rw [List.drop_eq_nil_of_le (Nat.le_of_lt hover)] at h
    exact absurd h.symm (by simp)
  obtain ⟨mixed, cur, hmixed, hreorder, hcur⟩ := policy.reorder_spec (patterns.take first) before rest p
  rw [← h, List.take_append_drop, hfirst] at hreorder
  exact ⟨mixed, cur, hmixed, hreorder, hcur, hfirst⟩

namespace RkSearcherSset

variable {s : RkSearcherSset π} {all : List π}

/-- The patterns with one hash, from some place on. -/
def runFrom (f : Hashing α) (key : π → List α) (hash : Nat) (patterns : List π) : List π :=
  patterns.takeWhile fun p => decide (f.code key p = hash)

theorem code_of_mem_runFrom {hash : Nat} {l : List π} {p : π} (h : p ∈ runFrom f key hash l) :
    f.code key p = hash := by
  have hp := List.mem_takeWhile_imp (p := fun p => decide (f.code key p = hash)) h
  exact of_decide_eq_true hp

theorem scan_hit {occurs : π → Bool} {hash : Nat} {before : List π} {p : π} (rest : List π)
    (hhash : ∀ q ∈ before ++ [p], f.code key q = hash) (hbefore : ∀ q ∈ before, occurs q = false)
    (hp : occurs p = true) :
    scan occurs hash ((before ++ p :: rest).map (f.code key)) (before ++ p :: rest) =
      (before.length, true) := by
  induction before with
  | nil =>
    show (if f.code key p = hash then if occurs p then (0, true) else _ else _) = _
    rw [if_pos (hhash p (List.mem_singleton.mpr rfl)), if_pos hp]
    rfl
  | cons q before ih =>
    obtain ⟨hq, hbefore⟩ := List.forall_mem_cons.mp hbefore
    obtain ⟨hqhash, hhash⟩ := List.forall_mem_cons.mp hhash
    rw [List.cons_append, List.map_cons, scan, if_pos hqhash, if_neg (Bool.eq_false_iff.mp hq),
      ih hhash hbefore]
    rfl

theorem scan_miss {occurs : π → Bool} {hash : Nat} {l : List π}
    (h : ∀ q ∈ runFrom f key hash l, occurs q = false) :
    (scan occurs hash (l.map (f.code key)) l).2 = false := by
  induction l with
  | nil => rfl
  | cons q l ih =>
    rw [List.map_cons, scan]
    split
    · rename_i hq
      rw [runFrom, List.takeWhile_cons, if_pos (decide_eq_true hq)] at h
      obtain ⟨hq, h⟩ := List.forall_mem_cons.mp h
      rw [if_neg (Bool.eq_false_iff.mp hq)]
      exact ih h
    · rfl

/-- From where a hash is looked up on, all that have it stand together. -/
def Findable (buckets : List Nat) (index : Nat → Nat) : Prop :=
  ∀ hash, (buckets.drop (index hash)).takeWhile (fun b => decide (b = hash)) =
    buckets.filter fun b => decide (b = hash)

/-- The hashes go with the patterns, and each is found where its patterns stand together. -/
structure Filed (f : Hashing α) (key : π → List α) (patterns : List π) (s : RkSearcherSset π) :
    Prop where
  buckets : s.buckets = s.patterns.map (f.code key)
  findable : Findable s.buckets s.bucket
  patterns : s.patterns.Perm patterns

theorem Filed.buckets_eq_nil (h : s.Filed f key all) : s.buckets = [] ↔ all = [] := by
  rw [h.buckets, List.map_eq_nil_iff]
  exact ⟨fun hnil => (hnil ▸ h.patterns).symm.eq_nil, fun hnil => (hnil ▸ h.patterns).eq_nil⟩

theorem map_runFrom (hash : Nat) (l : List π) : (runFrom f key hash l).map (f.code key) =
    (l.map (f.code key)).takeWhile fun b => decide (b = hash) := by
  rw [List.takeWhile_map]
  rfl

theorem runFrom_bucket (h : s.Filed f key all) (hash : Nat) :
    runFrom f key hash (s.patterns.drop (s.bucket hash)) =
      s.patterns.filter fun p => decide (f.code key p = hash) := by
  apply List.Sublist.eq_of_length
  · have hself : (runFrom f key hash (s.patterns.drop (s.bucket hash))).filter
        (fun p => decide (f.code key p = hash)) =
          runFrom f key hash (s.patterns.drop (s.bucket hash)) :=
      List.filter_eq_self.mpr fun p hp => decide_eq_true (code_of_mem_runFrom hp)
    rw [← hself]
    exact ((List.takeWhile_sublist _).trans (List.drop_sublist _ _)).filter _
  · have hcodes := h.findable hash
    rw [h.buckets, ← List.map_drop, ← map_runFrom, List.filter_map] at hcodes
    have hlength := congrArg List.length hcodes
    rwa [List.length_map, List.length_map] at hlength

/-- What has the hash of the window has all that is met there. -/
theorem filter_run (h : s.Filed f key all) (i : Nat) :
    ((runFrom f key (f.hash (f.window text i))
      (s.patterns.drop (s.bucket (f.hash (f.window text i))))).filter (f.meets key text i)).Perm
        (all.filter (f.meets key text i)) := by
  have hrun : (s.patterns.filter fun p => decide (f.code key p = f.hash (f.window text i))).filter
      (f.meets key text i) = s.patterns.filter (f.meets key text i) := by
    rw [List.filter_filter]
    refine List.filter_congr fun p _ => ?_
    simp only [Hashing.meets]
    cases f.occurs key text none i p <;> simp
  rw [runFrom_bucket h, hrun]
  exact h.patterns.filter _

/-- Of what has one hash, the part behind the front is still in front. -/
theorem runFrom_rest {hash : Nat} {l front rest : List π}
    (h : runFrom f key hash l = front ++ rest) :
    ∃ behind, l = front ++ (rest ++ behind) ∧ runFrom f key hash (rest ++ behind) = rest := by
  have hsplit := List.takeWhile_append_dropWhile (p := fun p => decide (f.code key p = hash)) (l := l)
  refine ⟨l.dropWhile fun p => decide (f.code key p = hash), ?_, ?_⟩
  · conv_lhs => rw [← hsplit, ← runFrom, h]
    exact List.append_assoc _ _ _
  · have hall : ∀ p ∈ rest, decide (f.code key p = hash) = true := fun p hp =>
      decide_eq_true (code_of_mem_runFrom (h ▸ List.mem_append_right _ hp))
    rw [runFrom, List.takeWhile_append_of_pos hall]
    have hnone : (l.dropWhile fun p => decide (f.code key p = hash)).takeWhile
        (fun p => decide (f.code key p = hash)) = [] := by
      cases hd : l.dropWhile fun p => decide (f.code key p = hash) with
      | nil => rfl
      | cons p behind =>
        have hp := List.head_dropWhile_not (l := l) (fun p => decide (f.code key p = hash))
          (hd ▸ List.cons_ne_nil p behind)
        simp only [hd, List.head_cons] at hp
        rw [List.takeWhile_cons, hp]
        rfl
    rw [hnone, List.append_nil]

/-- The searcher is at a place, with the candidates `c` left of its bucket. -/
structure At (f : Hashing α) (key : π → List α) (text : List α) (all : List π) (n i : Nat)
    (s : RkSearcherSset π) (c : List π) : Prop where
  filed : s.Filed f key all
  nonempty : all ≠ []
  count : s.count = s.buckets.length
  hash : s.hashCode = f.hash (f.window text i)
  run : runFrom f key s.hashCode (s.patterns.drop s.offset) = c
  place : i + n + f.width = text.length

theorem At.search_eq {n i : Nat} {c : List π} (h : At f key text all n i s c) :
    s.search f key text none i = s.searchLoop f key text none false i (n + 1) := by
  have hplace := h.place
  have hpos := f.width_pos
  rw [search, if_neg, if_neg, h.count, bne_self_eq_false]
  · congr 2
    · rw [← h.count]
    · omega
  · omega
  · rw [List.isEmpty_iff, h.filed.buckets_eq_nil]
    exact h.nonempty

/-- A candidate that occurs is met. -/
theorem At.meets_eq {n i : Nat} {c : List π} {p : π} (h : At f key text all n i s c) (hp : p ∈ c) :
    f.meets key text i p = f.occurs key text none i p :=
  Hashing.meets_of_hash ((code_of_mem_runFrom (h.run ▸ hp)).trans h.hash)

theorem searchLoop_miss {n i : Nat} {c : List π} (h : At f key text all n i s c)
    (hnone : ∀ q ∈ c, f.meets key text i q = false) (m : Nat) :
    ∃ offset, s.searchLoop f key text none false i (m + 1) =
      ({ s with offset } : RkSearcherSset π).searchLoop f key text none true (i + 1) m := by
  have hnone : ∀ q ∈ c, f.occurs key text none i q = false := fun q hq =>
    h.meets_eq hq ▸ hnone q hq
  have hscan := @scan_miss _ _ f key (f.occurs key text none i) s.hashCode (s.patterns.drop s.offset)
    (h.run ▸ hnone)
  rw [List.map_drop, ← h.filed.buckets] at hscan
  rw [searchLoop, if_neg Bool.false_ne_true]
  cases hresult : scan (f.occurs key text none i) s.hashCode (s.buckets.drop s.offset)
    (s.patterns.drop s.offset) with
  | mk k found =>
    rw [hresult] at hscan
    obtain rfl : found = false := hscan
    exact ⟨s.offset + k, rfl⟩

/-- Patterns with one hash change places without a trace among the hashes. -/
theorem map_code_perm {hash : Nat} {l l' : List π} (h : l.Perm l')
    (hhash : ∀ q ∈ l', f.code key q = hash) : l.map (f.code key) = l'.map (f.code key) := by
  have hl' : l'.map (f.code key) = List.replicate l'.length hash :=
    List.map_eq_replicate_iff.mpr hhash
  have hl : l.map (f.code key) = List.replicate l.length hash :=
    List.map_eq_replicate_iff.mpr fun q hq => hhash q (h.mem_iff.mp hq)
  rw [hl, hl', h.length_eq]

theorem scans : Scans (fun s i => search f key text none s i) all (f.meets key text)
    (At f key text all) where
  hit {n i s before rest p} h hbefore hp := by
    rw [h.meets_eq (List.mem_append_right _ List.mem_cons_self)] at hp
    have hbefore : ∀ q ∈ before, f.occurs key text none i q = false := fun q hq =>
      h.meets_eq (List.mem_append_left _ hq) ▸ hbefore q hq
    have hsplit : before ++ p :: rest = (before ++ [p]) ++ rest := by
      rw [List.append_assoc, List.singleton_append]
    obtain ⟨behind, hdrop, hrun⟩ := runFrom_rest (h.run.trans hsplit)
    have hhash : ∀ q ∈ before ++ [p], f.code key q = s.hashCode := fun q hq =>
      code_of_mem_runFrom (h.run ▸ hsplit ▸ List.mem_append_left _ hq)
    rw [List.append_assoc, List.singleton_append] at hdrop
    have hscan := scan_hit (rest ++ behind) hhash hbefore hp
    rw [← hdrop, List.map_drop, ← h.filed.buckets] at hscan
    obtain ⟨mixed, cur, hmixed, hreorder, hcur, hoffset⟩ := s.reordering.reorder_found hdrop
    have hpatterns : s.patterns = s.patterns.take s.offset ++ ((before ++ [p]) ++ (rest ++ behind)) := by
      rw [List.append_assoc before, List.singleton_append, ← hdrop, List.take_append_drop]
    have hlength : mixed.length = before.length + 1 := by
      rw [hmixed.length_eq, List.length_append]
      rfl
    refine ⟨{ s with
      patterns := s.patterns.take s.offset ++ (mixed ++ (rest ++ behind)),
      offset := s.offset + before.length + 1 }, ?_, ⟨?_, ?_, ?_⟩, h.nonempty, ?_, h.hash, ?_,
        h.place⟩
    · rw [h.search_eq, searchLoop, if_neg Bool.false_ne_true, hscan]
      dsimp only
      rw [hreorder]
      dsimp only
      rw [hcur]
      rfl
    · refine h.filed.buckets.trans ?_
      conv_lhs => rw [hpatterns]
      dsimp only
      rw [List.map_append, List.map_append, ← map_code_perm hmixed hhash, ← List.map_append,
        ← List.map_append]
    · exact h.filed.findable
    · refine List.Perm.trans ?_ h.filed.patterns
      conv_rhs => rw [hpatterns]
      exact (hmixed.append_right _).append_left _
    · exact h.count
    · have hplace : s.offset + before.length + 1 =
          (s.patterns.take s.offset).length + mixed.length := by
        rw [hoffset, hlength]
        exact Nat.add_assoc _ _ _
      dsimp only
      rw [hplace, List.drop_length_add_append, List.drop_left', hrun]
      rfl
  last h hnone := by
    obtain ⟨offset, hmiss⟩ := searchLoop_miss h hnone 0
    rw [h.search_eq, hmiss]
    exact ⟨_, rfl⟩
  next {n i s c} h hnone := by
    obtain ⟨offset, hmiss⟩ := searchLoop_miss h hnone (n + 1)
    have hat : At f key text all n (i + 1) (({ s with offset } : RkSearcherSset π).enter f text (i + 1))
        (runFrom f key (f.hash (f.window text (i + 1)))
          (s.patterns.drop (s.bucket (f.hash (f.window text (i + 1)))))) := by
      refine ⟨⟨h.filed.buckets, h.filed.findable, h.filed.patterns⟩, h.nonempty, h.count, rfl, rfl, ?_⟩
      have := h.place
      omega
    refine ⟨_, _, ?_, hat, ?_⟩
    · rw [h.search_eq, hat.search_eq, hmiss, searchLoop, searchLoop, if_pos rfl,
        if_neg Bool.false_ne_true]
    · exact filter_run h.filed (i + 1)

/-- What a searcher finds with which no search has begun. -/
theorem finds_met {patterns : List π} (h : s.Filed f key patterns) (hne : patterns ≠ [])
    (hlong : f.width ≤ text.length) (hstart : s.count = 0) :
    ∃ results, Enumerates (fun s i => search f key text none s i) s 0 results ∧
      results.Perm (pairsFrom patterns (f.meets key text) 0 (text.length - f.width + 1)) ∧
      results.Pairwise fun r r' => r.1 ≤ r'.1 := by
  have hempty : s.buckets ≠ [] := fun hnil => hne (h.buckets_eq_nil.mp hnil)
  have hplace : 0 + (text.length - f.width) + f.width = text.length := by omega
  have hat : At f key text patterns (text.length - f.width) 0
      (({ s with count := s.buckets.length } : RkSearcherSset π).enter f text 0)
      (runFrom f key (f.hash (f.window text 0))
        (s.patterns.drop (s.bucket (f.hash (f.window text 0))))) :=
    ⟨⟨h.buckets, h.findable, h.patterns⟩, hne, rfl, rfl, rfl, hplace⟩
  have hsearch : s.search f key text none 0 =
      (({ s with count := s.buckets.length } : RkSearcherSset π).enter f text 0).search
        f key text none 0 := by
    have hfresh : (s.count != s.buckets.length) = true := by
      rw [hstart, bne_iff_ne]
      exact fun h => hempty (List.length_eq_zero_iff.mp h.symm)
    have hcount : text.length - (f.width - 1) = text.length - f.width + 1 := by
      have := f.width_pos
      omega
    rw [hat.search_eq, search, if_neg fun h => hempty (List.isEmpty_iff.mp h), Nat.sub_zero,
      if_neg (Nat.not_lt.mpr hlong), hfresh, hcount, Nat.sub_zero, searchLoop, searchLoop,
      if_pos rfl, if_neg Bool.false_ne_true]
  exact scans.finds_start hat hsearch (filter_run h 0)

/-- It finds all that occurs. -/
theorem search_complete {patterns : List π} (h : s.Filed f key patterns) (hnodup : patterns.Nodup)
    (hsuits : f.Suits key patterns) (hstart : s.count = 0) :
    ∃ results, Enumerates (fun s i => search f key text none s i) s 0 results ∧
      Complete f key text patterns results := by
  by_cases hempty : patterns = []
  · refine ⟨[], .done (show _ = (s, none) from ?_), .nil hsuits.long (.inl hempty)⟩
    rw [search, if_pos (List.isEmpty_iff.mpr (h.buckets_eq_nil.mpr hempty))]
  by_cases hshort : text.length < f.width
  · have hbuckets : s.buckets ≠ [] := fun hnil => hempty (h.buckets_eq_nil.mp hnil)
    refine ⟨[], .done (show _ = (s, none) from ?_), .nil hsuits.long (.inr hshort)⟩
    rw [search, if_neg fun h => hbuckets (List.isEmpty_iff.mp h), Nat.sub_zero, if_pos hshort]
  have hlength : text.length - f.width + f.width = text.length :=
    Nat.sub_add_cancel (Nat.le_of_not_lt hshort)
  obtain ⟨results, henum, hresults, hordered⟩ :=
    @finds_met _ _ f key text s patterns h hempty (Nat.le_of_not_lt hshort) hstart
  have hmet : pairsFrom patterns (f.meets key text) 0 (text.length - f.width + 1) =
      pairsFrom patterns (f.occurs key text none) 0 (text.length - f.width + 1) :=
    congrArg (List.flatMap · _) (funext fun i => congrArg (List.map (Prod.mk i))
      (List.filter_congr fun p hp => Hashing.meets_of_suits hsuits hp))
  exact ⟨results, henum, .of_pairsFrom hlength hnodup hsuits.long (hmet ▸ hresults) hordered⟩

end RkSearcherSset

end Icq.Common
