import Icq.Common.RkSearcherSsetComplete

/-! What a search finds from any state, and that it never comes back to a pattern. -/

namespace Icq.Common.RkSearcherSset

variable {α π : Type} {f : Hashing α} {key : π → List α} {text : List α} {s s' : RkSearcherSset π}

theorem scan_found {occurs : π → Bool} {hash k : Nat} {buckets : List Nat} {patterns : List π}
    (h : scan occurs hash buckets patterns = (k, true)) :
    ∃ before p rest, patterns = before ++ p :: rest ∧ before.length = k ∧ occurs p = true ∧
      k < buckets.length := by
  induction buckets generalizing patterns k with
  | nil => cases h
  | cons b buckets ih =>
    cases patterns with
    | nil => cases h
    | cons q patterns =>
      rw [scan] at h
      split at h
      · split at h
        · rename_i hq
          cases h
          exact ⟨[], q, patterns, rfl, rfl, hq, Nat.zero_lt_succ _⟩
        · cases hscan : scan occurs hash buckets patterns with
          | mk k' found =>
            rw [hscan] at h
            cases h
            obtain ⟨before, p, rest, rfl, rfl, hp, hk⟩ := ih hscan
            exact ⟨q :: before, p, rest, rfl, rfl, hp, Nat.succ_lt_succ hk⟩
      · cases h

/-- The patterns are there with their hashes, in whatever order. -/
structure Same (s s' : RkSearcherSset π) : Prop where
  buckets : s'.buckets = s.buckets
  patterns : s'.patterns.Perm s.patterns

/-- What a search from a place finds, and what is left in its bucket. -/
structure Finds (f : Hashing α) (key : π → List α) (text : List α) (s s' : RkSearcherSset π)
    (going : Bool) (i j : Nat) (p : π) : Prop where
  le : i ≤ j
  occurs : f.occurs key text none j p = true
  mem : p ∈ s.patterns
  offset_le : s'.offset ≤ s'.buckets.length
  offset_lt : going = true → j = i → s.offset < s'.offset

theorem Same.trans {s'' : RkSearcherSset π} (h : Same s s') (h' : Same s' s'') : Same s s'' :=
  ⟨h'.buckets.trans h.buckets, h'.patterns.trans h.patterns⟩

theorem searchLoop_finds {reset : Bool} {i n : Nat} :
    Same s (s.searchLoop f key text none reset i n).1 ∧
      (s.searchLoop f key text none reset i n).1.count = s.count ∧
      ∀ j p, (s.searchLoop f key text none reset i n).2 = some (j, p) →
        Finds f key text s (s.searchLoop f key text none reset i n).1 (!reset) i j p := by
  induction n generalizing s reset i with
  | zero => exact ⟨⟨rfl, List.Perm.refl _⟩, rfl, fun _ _ h => by cases h⟩
  | succ n ih =>
    rw [searchLoop]
    have henter : Same s (if reset then s.enter f text i else s) ∧
        (if reset then s.enter f text i else s).count = s.count ∧
        (reset = false → (if reset then s.enter f text i else s).offset = s.offset) := by
      cases reset
      · exact ⟨⟨rfl, List.Perm.refl _⟩, rfl, fun _ => rfl⟩
      · exact ⟨⟨rfl, List.Perm.refl _⟩, rfl, fun h => by cases h⟩
    generalize (if reset then s.enter f text i else s) = s₁ at henter ⊢
    obtain ⟨hsame, hcount, hoffset⟩ := henter
    cases hscan : scan (f.occurs key text none i) s₁.hashCode (s₁.buckets.drop s₁.offset)
      (s₁.patterns.drop s₁.offset) with
    | mk k found =>
      cases found with
      | true =>
        obtain ⟨before, p, rest, hdrop, rfl, hp, hk⟩ := scan_found hscan
        obtain ⟨mixed, cur, hmixed, hreorder, hcur, -⟩ := s₁.reordering.reorder_found hdrop
        dsimp only
        rw [hreorder]
        dsimp only
        rw [hcur]
        have hpatterns : (s₁.patterns.take s₁.offset ++ (mixed ++ rest)).Perm s₁.patterns := by
          conv_rhs => rw [← List.take_append_drop s₁.offset s₁.patterns, hdrop]
          rw [← List.singleton_append (x := p), ← List.append_assoc before]
          exact (hmixed.append_right rest).append_left _
        refine ⟨⟨hsame.buckets, hpatterns.trans hsame.patterns⟩, hcount, ?_⟩
        rintro j q ⟨rfl, rfl⟩
        rw [List.length_drop] at hk
        refine ⟨Nat.le_refl i, hp, ?_, ?_, fun hgoing _ => ?_⟩
        · refine hsame.patterns.mem_iff.mp (List.mem_of_mem_drop (i := s₁.offset) ?_)
          rw [hdrop]
          exact List.mem_append_right _ List.mem_cons_self
        · dsimp only
          omega
        · rw [Bool.not_eq_true'] at hgoing
          have := hoffset hgoing
          dsimp only
          omega
      | false =>
        dsimp only
        obtain ⟨hsame', hcount', hfinds⟩ := @ih { s₁ with offset := s₁.offset + k } true (i + 1)
        refine ⟨⟨hsame'.buckets.trans hsame.buckets, hsame'.patterns.trans hsame.patterns⟩,
          hcount'.trans hcount, ?_⟩
        intro j p hfound
        have h := hfinds j p hfound
        refine ⟨Nat.le_of_succ_le h.le, h.occurs, hsame.patterns.mem_iff.mp h.mem, h.offset_le, ?_⟩
        intro _ hj
        exact absurd h.le (by omega)

theorem search_same (f : Hashing α) (key : π → List α) (text : List α) (s : RkSearcherSset π) (i : Nat) :
    Same s (s.search f key text none i).1 := by
  rw [search]
  split
  · exact ⟨rfl, List.Perm.refl _⟩
  · split
    · exact ⟨rfl, List.Perm.refl _⟩
    · exact @Same.trans _ s { s with count := s.buckets.length } _ ⟨rfl, List.Perm.refl _⟩
        searchLoop_finds.1

/-- A search goes on in its bucket where the one before it has counted the patterns. -/
theorem search_finds {i j : Nat} {p : π} (h : (s.search f key text none i).2 = some (j, p)) :
    (s.search f key text none i).1.count = (s.search f key text none i).1.buckets.length ∧
      Finds f key text s (s.search f key text none i).1 (s.count == s.buckets.length) i j p := by
  have hsame := (search_same f key text s i).buckets
  rw [search] at h hsame ⊢
  split at h
  · cases h
  split at h
  · cases h
  rename_i hnonempty hlong
  rw [if_neg hnonempty, if_neg hlong] at hsame ⊢
  obtain ⟨-, hcount, hfinds⟩ := @searchLoop_finds _ _ f key text
    { s with count := s.buckets.length } (s.count != s.buckets.length) i (text.length - (f.width - 1) - i)
  refine ⟨hcount.trans (congrArg List.length hsame.symm), ?_⟩
  have hfound := hfinds j p h
  refine ⟨hfound.le, hfound.occurs, hfound.mem, hfound.offset_le, fun hgoing hj => ?_⟩
  refine hfound.offset_lt ?_ hj
  rwa [bne, Bool.not_not]

end Icq.Common.RkSearcherSset
