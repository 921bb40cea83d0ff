import Mathlib.Data.List.Basic

/-! Pieces of a list that cover each of its places once. -/

namespace Icq.Lib

variable {π α : Type} {start : π → Nat} {text : π → List α}

/-- The place belongs to the piece. -/
def covers (start : π → Nat) (text : π → List α) (k : Nat) (p : π) : Bool :=
  decide (start p ≤ k) && decide (k < start p + (text p).length)

theorem covers_iff {k : Nat} {p : π} :
    covers start text k p = true ↔ start p ≤ k ∧ k < start p + (text p).length := by
  rw [covers, Bool.and_eq_true, decide_eq_true_iff, decide_eq_true_iff]

/-- What stands in a list where a piece says. -/
def IsCut (start : π → Nat) (text : π → List α) (message : List α) (p : π) : Prop :=
  (message.drop (start p)).take (text p).length = text p

theorem IsCut.end_le {message : List α} {p : π} (h : IsCut start text message p)
    (hne : text p ≠ []) : start p + (text p).length ≤ message.length := by
  have hlength := congrArg List.length h
  rw [List.length_take, List.length_drop] at hlength
  have := List.length_pos_iff.mpr hne
  omega

theorem countP_covers_cons {k : Nat} {p : π} {pieces : List π} :
    (p :: pieces).countP (covers start text k) = pieces.countP (covers start text k) +
      if start p ≤ k ∧ k < start p + (text p).length then 1 else 0 := by
  rw [List.countP_cons]
  simp only [covers_iff]

/-- In front of the pieces nothing is covered, and then each place once. -/
theorem flatMap_eq_drop {message : List α} {pieces : List π} {a : Nat}
    (hcut : ∀ p ∈ pieces, IsCut start text message p)
    (hsorted : pieces.Pairwise fun p q => start p ≤ start q)
    (hbefore : ∀ k < a, pieces.countP (covers start text k) = 0)
    (hcover : ∀ k, a ≤ k → k < message.length → pieces.countP (covers start text k) = 1) :
    pieces.flatMap text = message.drop a := by
  induction pieces generalizing a with
  | nil =>
    refine (List.drop_eq_nil_of_le (Nat.le_of_not_lt fun ha => ?_)).symm
    exact absurd (hcover a (Nat.le_refl a) ha) Nat.zero_ne_one
  | cons p pieces ih =>
    obtain ⟨hp, hcut⟩ := List.forall_mem_cons.mp hcut
    obtain ⟨hfirst, hsorted⟩ := List.pairwise_cons.mp hsorted
    simp only [countP_covers_cons] at hbefore hcover
    rw [List.flatMap_cons]
    by_cases hempty : text p = []
    · rw [hempty, List.nil_append]
      simp only [hempty, List.length_nil] at hbefore hcover
      refine ih hcut hsorted (fun k hk => ?_) fun k hk hlt => ?_
      · have := hbefore k hk
        omega
      · have := hcover k hk hlt
        split at this
        · omega
        · omega
    have hlength := List.length_pos_iff.mpr hempty
    have hend := hp.end_le hempty
    have hstart : start p = a := by
      rcases Nat.lt_trichotomy (start p) a with hlt | heq | hgt
      · have := hbefore (start p) hlt
        rw [if_pos ⟨Nat.le_refl _, by omega⟩] at this
        omega
      · exact heq
      · have hone := hcover a (Nat.le_refl a) (by omega)
        rw [if_neg fun h => absurd h.1 (Nat.not_le.mpr hgt), Nat.add_zero] at hone
        obtain ⟨q, hq, hcovers⟩ := List.countP_pos_iff.mp (Nat.lt_of_lt_of_eq Nat.zero_lt_one hone.symm)
        have hle := (covers_iff.mp hcovers).1
        have := hfirst q hq
        omega
    subst hstart
    have hrest : pieces.flatMap text = message.drop (start p + (text p).length) := by
      refine ih hcut hsorted (fun k hk => ?_) fun k hk hlt => ?_
      · rcases Nat.lt_or_ge k (start p) with hlt | hge
        · have := hbefore k hlt
          omega
        · have := hcover k hge (by omega)
          rw [if_pos ⟨hge, hk⟩] at this
          omega
      · have := hcover k (by omega) hlt
        rw [if_neg fun h => absurd h.2 (Nat.not_lt.mpr hk)] at this
        exact this
    have hp : text p = (message.drop (start p)).take (text p).length := hp.symm
    rw [hrest, ← List.drop_drop]
    conv_lhs => rw [hp]
    rw [List.length_take, Nat.min_eq_left (by rw [List.length_drop]; omega), List.take_append_drop]

/-- In whatever way pieces are sorted by their places, together they are the whole. -/
theorem flatMap_eq_of_covered {message : List α} {pieces sorted : List π}
    (hcut : ∀ p ∈ pieces, IsCut start text message p)
    (hcover : ∀ k < message.length, pieces.countP (covers start text k) = 1)
    (hperm : sorted.Perm pieces) (hsorted : sorted.Pairwise fun p q => start p ≤ start q) :
    sorted.flatMap text = message := by
  refine (flatMap_eq_drop (a := 0) (fun p hp => hcut p (hperm.mem_iff.mp hp)) hsorted ?_ ?_).trans
    List.drop_zero
  · exact fun k hk => absurd hk (Nat.not_lt_zero k)
  · exact fun k _ hk => (hperm.countP_eq _).trans (hcover k hk)

end Icq.Lib
