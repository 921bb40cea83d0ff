import Mathlib.Data.List.Infix

/-! The first place in a text by what is in front of it and behind it, and pairs of codes of which
one takes the meaning from the other. -/

namespace Icq.Lib

variable {α : Type}

/-- The first place that `p` holds of, with the text in front of it and the text behind it. -/
def firstPlace (p : List α → List α → Bool) : List α → List α → Option Nat
  | before, [] => if p before [] then some 0 else none
  | before, c :: ahead =>
    if p before (c :: ahead) then some 0 else (firstPlace p (before ++ [c]) ahead).map (· + 1)

section

variable {p p' : List α → List α → Bool} {before ahead : List α} {n : Nat}

theorem firstPlace_eq_some : firstPlace p before ahead = some n ↔
    n ≤ ahead.length ∧ p (before ++ ahead.take n) (ahead.drop n) = true ∧
      ∀ k < n, p (before ++ ahead.take k) (ahead.drop k) = false := by
  induction ahead generalizing before n with
  | nil =>
    unfold firstPlace
    constructor
    · intro h
      split at h
      · cases h
        exact ⟨Nat.le_refl _, by simpa, fun k hk => absurd hk (Nat.not_lt_zero k)⟩
      · cases h
    · rintro ⟨hn, hp, -⟩
      obtain rfl := Nat.le_zero.mp hn
      simpa using hp
  | cons c ahead ih =>
    unfold firstPlace
    by_cases hc : p before (c :: ahead) = true
    · rw [if_pos hc]
      constructor
      · intro h
        cases h
        exact ⟨Nat.zero_le _, by simpa, fun k hk => absurd hk (Nat.not_lt_zero k)⟩
      · rintro ⟨-, -, hlt⟩
        cases n with
        | zero => rfl
        | succ n =>
          have := hlt 0 (Nat.succ_pos n)
          simp [hc] at this
    · rw [if_neg hc]
      cases n with
      | zero =>
        simp only [Option.map_eq_some_iff, Nat.succ_ne_zero, and_false, exists_false, false_iff, not_and]
        intro _ h
        simp [hc] at h
      | succ n =>
        have hshift (k : Nat) : p (before ++ (c :: ahead).take (k + 1)) ((c :: ahead).drop (k + 1)) =
            p (before ++ [c] ++ ahead.take k) (ahead.drop k) := by
          simp
        simp only [Option.map_eq_some_iff, Nat.succ.injEq, exists_eq_right, ih, hshift,
          List.length_cons, Nat.succ_le_succ_iff]
        refine and_congr_right fun _ => and_congr_right fun _ => ⟨fun h k hk => ?_, fun h k hk => ?_⟩
        · cases k with
          | zero => simpa using hc
          | succ k => exact (hshift k).trans (h k (Nat.lt_of_succ_lt_succ hk))
        · exact (hshift k).symm.trans (h (k + 1) (Nat.succ_lt_succ hk))

theorem firstPlace_eq_none : firstPlace p before ahead = none ↔
    ∀ k ≤ ahead.length, p (before ++ ahead.take k) (ahead.drop k) = false := by
  induction ahead generalizing before with
  | nil =>
    unfold firstPlace
    simp
  | cons c ahead ih =>
    unfold firstPlace
    by_cases hc : p before (c :: ahead) = true
    · rw [if_pos hc]
      refine iff_of_false (by simp) fun h => ?_
      simpa [hc] using h 0 (Nat.zero_le _)
    · rw [if_neg hc, Option.map_eq_none_iff, ih]
      refine ⟨fun h k hk => ?_, fun h k hk => ?_⟩
      · cases k with
        | zero => simpa using hc
        | succ k => simpa using h k (Nat.le_of_succ_le_succ hk)
      · simpa using h (k + 1) (Nat.succ_le_succ hk)

theorem firstPlace_step {c : α} (h : p before (c :: ahead) = false) :
    firstPlace p before (c :: ahead) = (firstPlace p (before ++ [c]) ahead).map (· + 1) :=
  if_neg (by rw [h]; exact Bool.false_ne_true)

end

/-- How often a code stands, once behind another, at the beginning of a text. -/
def countRun [DecidableEq α] (code : List α) : Nat → List α → Nat
  | _, [] => 0
  | skip + 1, _ :: text => countRun code skip text
  | 0, c :: text =>
    if code.isPrefixOf (c :: text) then countRun code (code.length - 1) text + 1 else 0

theorem countRun_eq_zero [DecidableEq α] {code : List α} (hne : code ≠ []) {text : List α} :
    countRun code 0 text = 0 ↔ ¬ code <+: text := by
  cases text with
  | nil => simpa [countRun] using hne
  | cons c text =>
    rw [countRun, ← List.isPrefixOf_iff_prefix]
    split <;> simp_all

/-- Two codes of one length, neither of which begins within the other. -/
structure CodePair (α : Type) where
  first : List α
  second : List α
  second_ne : second ≠ []
  length_eq : first.length = second.length
  differ : first ≠ second
  inner : ∀ c ∈ first.tail ++ second.tail, first.head? ≠ some c ∧ second.head? ≠ some c

namespace CodePair

variable (k : CodePair α) {x y before ahead r : List α}

theorem first_ne : k.first ≠ [] := fun h =>
  k.second_ne (List.length_eq_zero_iff.mp (by rw [← k.length_eq, h]; rfl))

/-- Within a code none begins. -/
theorem not_prefix_within (hx : x ≠ []) (hy : y ≠ []) (h : k.first = x ++ y ∨ k.second = x ++ y) :
    ¬ k.first <+: y ++ r ∧ ¬ k.second <+: y ++ r := by
  obtain ⟨c, y, rfl⟩ := List.exists_cons_of_ne_nil hy
  obtain ⟨d, x, rfl⟩ := List.exists_cons_of_ne_nil hx
  have hc : c ∈ k.first.tail ++ k.second.tail := by
    rcases h with h | h <;> simp [h]
  obtain ⟨h1, h2⟩ := k.inner c hc
  have hhead {code : List α} (hne : code ≠ []) (hp : code <+: c :: y ++ r) : code.head? = some c := by
    obtain ⟨e, code, rfl⟩ := List.exists_cons_of_ne_nil hne
    exact congrArg some (List.cons_prefix_cons.mp hp).1
  exact ⟨fun hp => h1 (hhead k.first_ne hp), fun hp => h2 (hhead k.second_ne hp)⟩

theorem not_both (h : k.first <+: r) : ¬ k.second <+: r := fun h' =>
  k.differ ((List.prefix_of_prefix_length_le h h' (Nat.le_of_eq k.length_eq)).eq_of_length k.length_eq)

/-- No pair of the codes begins a little in front of the place behind another pair. -/
theorem no_overlap (hb : k.first ++ k.second <:+ before) {s : List α} (hs : s <:+ before) (hne : s ≠ [])
    (hlen : s.length ≤ k.first.length) : ¬ k.first ++ k.second <+: s ++ ahead := by
  intro hp
  have hsecond : s <:+ k.second := by
    refine List.suffix_of_suffix_length_le hs ((List.suffix_append _ _).trans hb) ?_
    rw [← k.length_eq]
    exact hlen
  have hfirst : k.first <+: s ++ ahead := (List.prefix_append _ _).trans hp
  obtain ⟨x, hx⟩ := hsecond
  cases x with
  | nil =>
    rw [List.nil_append] at hx
    subst hx
    exact k.not_both hfirst (List.prefix_append _ _)
  | cons d x =>
    exact (k.not_prefix_within (List.cons_ne_nil d x) hne (.inr hx.symm)).1 hfirst

end CodePair

end Icq.Lib
