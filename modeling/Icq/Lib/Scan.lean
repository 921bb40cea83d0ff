import Icq.Lib.Words

/-! The places of a pattern that a search from left to right comes to, each behind the end of the
one before. -/

namespace Icq.Lib

variable {α : Type} [DecidableEq α] {text pattern : List α} {fuel pos p q : Nat}

theorem findText_eq_some : findText text pattern = some p ↔
    p ≤ text.length ∧ pattern <+: text.drop p ∧ ∀ q < p, ¬ pattern <+: text.drop q := by
  simp only [findText, List.findIdx?_eq_some_iff_getElem, List.length_tails, List.getElem_tails,
    List.isPrefixOf_iff_prefix, Nat.lt_succ_iff, exists_prop]

theorem findText_eq_none : findText text pattern = none ↔ ¬ pattern <:+: text := by
  rw [← findText_isSome, Bool.not_eq_true, Option.isSome_eq_false_iff, Option.isNone_iff_eq_none]

/-- The first place of a pattern from a place on. -/
def findFrom (text pattern : List α) (pos : Nat) : Option Nat :=
  (findText (text.drop pos) pattern).map (· + pos)

theorem findFrom_zero : findFrom text pattern 0 = findText text pattern := by
  simp [findFrom]

theorem findFrom_spec (h : findFrom text pattern pos = some p) :
    pos ≤ p ∧ pattern <+: text.drop p ∧ ∀ q, pos ≤ q → q < p → ¬ pattern <+: text.drop q := by
  obtain ⟨d, hd, rfl⟩ := Option.map_eq_some_iff.mp h
  obtain ⟨-, hat, hbefore⟩ := findText_eq_some.mp hd
  rw [List.drop_drop, Nat.add_comm] at hat
  refine ⟨Nat.le_add_left _ _, hat, fun q hq hlt => ?_⟩
  have hnot := hbefore (q - pos) (by omega)
  rwa [List.drop_drop, Nat.add_sub_cancel' hq] at hnot

theorem findFrom_none (h : findFrom text pattern pos = none) (hp : pos ≤ p) :
    ¬ pattern <+: text.drop p := by
  rw [findFrom, Option.map_eq_none_iff, findText_eq_none] at h
  intro hat
  refine h (hat.isInfix.trans ?_)
  rw [← Nat.add_sub_cancel' hp, ← List.drop_drop]
  exact (List.drop_suffix _ _).isInfix

/-- The places from a place on, at most so many. -/
def scanFrom (text pattern : List α) : Nat → Nat → List Nat
  | 0, _ => []
  | fuel + 1, pos =>
    match findFrom text pattern pos with
    | none => []
    | some p => p :: scanFrom text pattern fuel (p + pattern.length)

def scan (text pattern : List α) : List Nat := scanFrom text pattern (text.length + 1) 0

theorem le_of_mem_scanFrom (h : p ∈ scanFrom text pattern fuel pos) : pos ≤ p := by
  induction fuel generalizing pos with
  | zero => cases h
  | succ fuel ih =>
    rw [scanFrom] at h
    cases hfind : findFrom text pattern pos with
    | none => simp [hfind] at h
    | some a =>
      have ha := (findFrom_spec hfind).1
      rw [hfind] at h
      rcases List.mem_cons.mp h with rfl | h
      · exact ha
      · exact ha.trans ((Nat.le_add_right _ _).trans (ih h))

omit [DecidableEq α] in
theorem length_le_of_prefix_drop (hne : pattern ≠ []) (h : pattern <+: text.drop p) :
    p + pattern.length ≤ text.length := by
  have hle := h.length_le
  have hpos := List.length_pos_iff.mpr hne
  rw [List.length_drop] at hle
  omega

/-- Enough places are tried: where the pattern stands, only a place before that it overlaps with
hides it. -/
theorem mem_scanFrom (hne : pattern ≠ []) (hfuel : text.length < fuel + pos) :
    p ∈ scanFrom text pattern fuel pos ↔ pos ≤ p ∧ pattern <+: text.drop p ∧
      ∀ q ∈ scanFrom text pattern fuel pos, q < p → q + pattern.length ≤ p := by
  induction fuel generalizing pos with
  | zero =>
    refine iff_of_false List.not_mem_nil fun ⟨hpos, hat, _⟩ => ?_
    have hle := length_le_of_prefix_drop hne hat
    omega
  | succ fuel ih =>
    rw [scanFrom]
    cases hfind : findFrom text pattern pos with
    | none => exact iff_of_false List.not_mem_nil fun ⟨hpos, hat, _⟩ => findFrom_none hfind hpos hat
    | some a =>
      obtain ⟨ha, hat, hbefore⟩ := findFrom_spec hfind
      have hlen := List.length_pos_iff.mpr hne
      have hrest := @ih (a + pattern.length) (by omega)
      simp only [List.mem_cons, hrest, forall_eq_or_imp]
      constructor
      · rintro (rfl | ⟨hle, hp, hover⟩)
        · refine ⟨ha, hat, fun hlt => absurd hlt (Nat.lt_irrefl _), fun q hq hlt => ?_⟩
          have hle := le_of_mem_scanFrom hq
          omega
        · exact ⟨by omega, hp, fun _ => hle, hover⟩
      · rintro ⟨hpos, hp, hfirst, hover⟩
        have hap : a ≤ p := Nat.le_of_not_lt fun hlt => hbefore p hpos hlt hp
        rcases Nat.eq_or_lt_of_le hap with rfl | hlt
        · exact .inl rfl
        · exact .inr ⟨hfirst hlt, hp, hover⟩

theorem mem_scan (hne : pattern ≠ []) : p ∈ scan text pattern ↔ pattern <+: text.drop p ∧
    ∀ q ∈ scan text pattern, q < p → q + pattern.length ≤ p := by
  rw [scan, mem_scanFrom hne (by omega)]
  exact and_iff_right (Nat.zero_le p)

theorem scanFrom_pairwise : (scanFrom text pattern fuel pos).Pairwise (· ≤ ·) := by
  induction fuel generalizing pos with
  | zero => exact .nil
  | succ fuel ih =>
    rw [scanFrom]
    cases findFrom text pattern pos with
    | none => exact .nil
    | some a =>
      refine List.pairwise_cons.mpr ⟨fun p hp => ?_, ih⟩
      exact (Nat.le_add_right _ _).trans (le_of_mem_scanFrom hp)

/-- Of numbers in order, those in front of the first that is too large are all that are not. -/
theorem mem_takeWhile_lt {l : List Nat} (h : l.Pairwise (· ≤ ·)) (c n : Nat) :
    p ∈ l.takeWhile (fun p => decide (p + c < n)) ↔ p ∈ l ∧ p + c < n := by
  induction l with
  | nil => simp
  | cons a l ih =>
    obtain ⟨hle, h⟩ := List.pairwise_cons.mp h
    rw [List.takeWhile_cons]
    by_cases ha : a + c < n
    · rw [decide_eq_true ha, if_pos rfl, List.mem_cons, ih h, List.mem_cons, or_and_right]
      refine or_congr_left ⟨?_, fun hp => hp.1⟩
      rintro rfl
      exact ⟨rfl, ha⟩
    · rw [decide_eq_false ha, if_neg Bool.false_ne_true]
      refine iff_of_false List.not_mem_nil fun ⟨hp, hlt⟩ => ?_
      rcases List.mem_cons.mp hp with rfl | hp
      · exact ha hlt
      · have := hle p hp
        omega

/-- No end of the pattern, but the whole of it, is also its beginning. -/
def Unbordered (pattern : List α) : Prop :=
  ∀ d, 0 < d → d < pattern.length → ¬ pattern.drop d <+: pattern

/-- Places of an unbordered pattern do not overlap, so that the scan comes to all of them. -/
theorem mem_scan_of_unbordered (hne : pattern ≠ []) (h : Unbordered pattern)
    (hat : pattern <+: text.drop p) : p ∈ scan text pattern := by
  refine (mem_scan hne).mpr ⟨hat, fun q hq hlt => ?_⟩
  by_contra hover
  have hbefore : pattern <+: text.drop q := ((mem_scan hne).mp hq).1
  have hdrop : pattern.drop (p - q) <+: text.drop p := by
    have hrest := hbefore.drop (p - q)
    rwa [List.drop_drop, Nat.add_sub_cancel' (Nat.le_of_lt hlt)] at hrest
  refine h (p - q) (by omega) (by omega) ?_
  refine List.prefix_of_prefix_length_le hdrop hat ?_
  rw [List.length_drop]
  exact Nat.sub_le _ _

end Icq.Lib
