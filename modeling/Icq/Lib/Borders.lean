import Mathlib.Order.Basic
import Mathlib.Data.Nat.Find

/-! Where a word overlaps itself, and the table by which a search falls back to shorter overlaps. -/

namespace Icq.Lib

/-- The greatest of the numbers with a property. -/
def IsLast (P : Nat → Prop) (k : Nat) : Prop := P k ∧ ∀ l, P l → l ≤ k

theorem IsLast.unique {P : Nat → Prop} {k l : Nat} (hk : IsLast P k) (hl : IsLast P l) : k = l :=
  Nat.le_antisymm (hl.2 k hk.1) (hk.2 l hl.1)

theorem isLast_congr {P Q : Nat → Prop} (h : ∀ k, P k ↔ Q k) (k : Nat) : IsLast P k ↔ IsLast Q k :=
  and_congr (h k) (forall_congr' fun l => imp_congr_left (h l))

theorem exists_isLast {P : Nat → Prop} {n k : Nat} (h : P k) (hlt : ∀ l, P l → l < n) :
    ∃ l, IsLast P l := by
  classical
  have hk := Nat.le_of_lt (hlt k h)
  exact ⟨Nat.findGreatest P n, Nat.findGreatest_spec hk h,
    fun l hl => Nat.le_findGreatest (Nat.le_of_lt (hlt l hl)) hl⟩

variable {κ : Type*} {codes : Nat → κ} {i j k l : Nat}

/-- The first `k` letters are the last ones of the first `j`, and fewer. -/
def Border (codes : Nat → κ) (j k : Nat) : Prop := k < j ∧ ∀ t < k, codes t = codes (j - k + t)

/-- Overlaps are told by which letters are the same. -/
theorem border_congr {κ' : Type*} {codes' : Nat → κ'} {n : Nat}
    (h : ∀ a < n, ∀ b < n, codes a = codes b ↔ codes' a = codes' b) (hj : j ≤ n) :
    Border codes j k ↔ Border codes' j k :=
  and_congr_right fun hk => forall_congr' fun t => imp_congr_right fun ht =>
    h t (by omega) (j - k + t) (by omega)

theorem border_zero (h : 0 < j) : Border codes j 0 := ⟨h, fun _ ht => absurd ht (Nat.not_lt_zero _)⟩

theorem Border.trans (hjk : Border codes j k) (hkl : Border codes k l) : Border codes j l := by
  refine ⟨Nat.lt_trans hkl.1 hjk.1, fun t ht => ?_⟩
  have hk := hkl.2 t ht
  have hj := hjk.2 (k - l + t) (by have := hkl.1; omega)
  have hplace : j - k + (k - l + t) = j - l + t := by
    have := hjk.1
    have := hkl.1
    omega
  rw [hk, hj, hplace]

/-- The shorter of two overlaps is an overlap of the longer one. -/
theorem Border.of_lt (hjk : Border codes j k) (hjl : Border codes j l) (h : l < k) :
    Border codes k l := by
  refine ⟨h, fun t ht => ?_⟩
  have hj := hjk.2 (k - l + t) (by omega)
  have hplace : j - k + (k - l + t) = j - l + t := by
    have := hjk.1
    omega
  rw [hjl.2 t ht, hj, hplace]

/-- Overlaps with one more letter. -/
theorem border_succ : Border codes (j + 1) (k + 1) ↔ Border codes j k ∧ codes k = codes j := by
  constructor
  · rintro ⟨hlt, heq⟩
    have hlt : k < j := Nat.lt_of_succ_lt_succ hlt
    have hstart : j + 1 - (k + 1) = j - k := Nat.add_sub_add_right j 1 k
    rw [hstart] at heq
    refine ⟨⟨hlt, fun t ht => heq t (Nat.lt_succ_of_lt ht)⟩, ?_⟩
    have hlast := heq k (Nat.lt_succ_self k)
    rwa [Nat.sub_add_cancel (Nat.le_of_lt hlt)] at hlast
  · rintro ⟨⟨hlt, heq⟩, hlast⟩
    refine ⟨Nat.succ_lt_succ hlt, fun t ht => ?_⟩
    have hstart : j + 1 - (k + 1) = j - k := Nat.add_sub_add_right j 1 k
    rw [hstart]
    rcases Nat.lt_succ_iff_lt_or_eq.mp ht with ht | rfl
    · exact heq t ht
    · rwa [Nat.sub_add_cancel (Nat.le_of_lt hlt)]

/-- The loop that falls back until it comes to what goes on, or to nothing. An overlap is shorter
than what it is one of, so there are no more rounds than letters. -/
def fallBack (table : Nat → Nat) (goes : Nat → Bool) : Nat → Nat → Nat
  | 0, j => j
  | fuel + 1, j => if 0 < j && !goes j then fallBack table goes fuel (table (j - 1)) else j

/-- Fall back and go on by one letter, if that can be. -/
def advance (table : Nat → Nat) (goes : Nat → Bool) (j : Nat) : Nat :=
  if goes (fallBack table goes j j) then fallBack table goes j j + 1 else fallBack table goes j j

/-- Of the first so many numbers of letters the table has the longest overlap. -/
def BorderTable (codes : Nat → κ) (n : Nat) (table : Nat → Nat) : Prop :=
  ∀ i < n, IsLast (Border codes (i + 1)) (table i)

theorem BorderTable.mono {table : Nat → Nat} {n m : Nat} (h : BorderTable codes n table)
    (hle : m ≤ n) : BorderTable codes m table :=
  fun i hi => h i (Nat.lt_of_lt_of_le hi hle)

section FallBack

variable {table : Nat → Nat} {goes : Nat → Bool} {fuel : Nat}

theorem fallBack_goes (h : goes j = true) : fallBack table goes fuel j = j := by
  cases fuel with
  | zero => rfl
  | succ fuel => rw [fallBack, h, Bool.not_true, Bool.and_false, if_neg Bool.false_ne_true]

/-- Falling back ends at nothing, or at the longest overlap that goes on. -/
theorem fallBack_spec (htable : BorderTable codes j table) (hfuel : j ≤ fuel) :
    (fallBack table goes fuel j = j ∨ Border codes j (fallBack table goes fuel j)) ∧
      (fallBack table goes fuel j = 0 ∨ goes (fallBack table goes fuel j) = true) ∧
      ∀ l, Border codes j l → goes l = true → l ≤ fallBack table goes fuel j := by
  induction fuel generalizing j with
  | zero =>
    obtain rfl := Nat.le_zero.mp hfuel
    exact ⟨.inl rfl, .inl rfl, fun l hl => absurd hl.1 (Nat.not_lt_zero l)⟩
  | succ fuel ih =>
    by_cases hgoes : goes j = true
    · rw [fallBack_goes hgoes]
      exact ⟨.inl rfl, .inr hgoes, fun l hl _ => Nat.le_of_lt hl.1⟩
    by_cases hzero : j = 0
    · subst hzero
      exact ⟨.inl rfl, .inl rfl, fun l hl => absurd hl.1 (Nat.not_lt_zero l)⟩
    have hpos := Nat.pos_of_ne_zero hzero
    have hstep : fallBack table goes (fuel + 1) j = fallBack table goes fuel (table (j - 1)) := by
      rw [fallBack, if_pos]
      simp [hpos, hgoes]
    obtain ⟨hborder, hlast⟩ := htable (j - 1) (Nat.sub_lt hpos Nat.one_pos)
    rw [Nat.sub_add_cancel hpos] at hborder hlast
    have hlt := hborder.1
    obtain ⟨hat, hend, hmax⟩ := ih (htable.mono (Nat.le_of_lt hlt)) (by omega)
    rw [hstep]
    refine ⟨.inr ?_, hend, fun l hl hgo => ?_⟩
    · rcases hat with hat | hat
      · rw [hat]
        exact hborder
      · exact hborder.trans hat
    · rcases Nat.lt_or_eq_of_le (hlast l hl) with hless | rfl
      · exact hmax l (hborder.of_lt hl hless) hgo
      · exact Nat.le_of_eq (fallBack_goes hgo).symm

/-- A letter leads from a place to the one behind the longest overlap it goes on from, if there is
one. -/
theorem advance_spec (htable : BorderTable codes j table) (hgoes : goes j = false) :
    (∀ k, IsLast (fun k => Border codes j k ∧ goes k = true) k → advance table goes j = k + 1) ∧
      ((∀ k, Border codes j k → goes k = false) → advance table goes j = 0) := by
  have hspec := @fallBack_spec _ codes j table goes j htable (Nat.le_refl j)
  rw [advance]
  generalize fallBack table goes j j = r at hspec
  obtain ⟨hat, hend, hmax⟩ := hspec
  constructor
  · rintro k ⟨⟨hk, hgo⟩, hlast⟩
    have hle := hmax k hk hgo
    have hr : goes r = true := by
      rcases hend with rfl | hend
      · rwa [Nat.le_zero.mp hle] at hgo
      · exact hend
    have hr' : Border codes j r := by
      refine hat.resolve_left ?_
      rintro rfl
      rw [hgoes] at hr
      cases hr
    rw [if_pos hr, Nat.le_antisymm (hlast r ⟨hr', hr⟩) hle]
  · intro hnone
    have hr : goes r = false := by
      rcases hat with rfl | hat
      · exact hgoes
      · exact hnone r hat
    rw [if_neg (by simp [hr])]
    refine hend.resolve_right ?_
    simp [hr]

theorem advance_goes (h : goes j = true) : advance table goes j = j + 1 := by
  rw [advance, fallBack_goes h, if_pos h]

/-- The next entry of the table comes from the one before, as a letter of the word leads on. -/
theorem BorderTable.next {n : Nat} [DecidableEq κ] (h : BorderTable codes (n + 1) table) :
    IsLast (Border codes (n + 2))
      (advance table (fun k => decide (codes k = codes (n + 1))) (table n)) := by
  obtain ⟨hborder, hlast⟩ := h n (Nat.lt_succ_self n)
  let goes : Nat → Bool := fun k => decide (codes k = codes (n + 1))
  have htable : BorderTable codes (table n) table := h.mono (Nat.le_of_lt hborder.1)
  obtain ⟨hat, hend, hmax⟩ := @fallBack_spec _ codes (table n) table goes _ htable (Nat.le_refl _)
  have hover : ∀ l, Border codes (n + 1) l → codes l = codes (n + 1) →
      l ≤ fallBack table goes (table n) (table n) := by
    intro l hl hgo
    have hgo : goes l = true := decide_eq_true hgo
    rcases Nat.lt_or_eq_of_le (hlast l hl) with hless | rfl
    · exact hmax l (hborder.of_lt hl hless) hgo
    · exact Nat.le_of_eq (fallBack_goes hgo).symm
  have hr : Border codes (n + 1) (fallBack table goes (table n) (table n)) := by
    rcases hat with hat | hat
    · rw [hat]
      exact hborder
    · exact hborder.trans hat
  show IsLast _ (advance table goes (table n))
  rw [advance]
  generalize fallBack table goes (table n) (table n) = r at hend hover hr
  by_cases hgo : goes r = true
  · rw [if_pos hgo]
    refine ⟨border_succ.mpr ⟨hr, of_decide_eq_true hgo⟩, fun l hl => ?_⟩
    cases l with
    | zero => exact Nat.zero_le _
    | succ l =>
      obtain ⟨hl, hcode⟩ := border_succ.mp hl
      exact Nat.succ_le_succ (hover l hl hcode)
  · rw [if_neg hgo]
    obtain rfl := hend.resolve_right hgo
    refine ⟨border_zero (Nat.succ_pos _), fun l hl => ?_⟩
    cases l with
    | zero => exact Nat.le_refl 0
    | succ l =>
      obtain ⟨hl, hcode⟩ := border_succ.mp hl
      obtain rfl := Nat.le_zero.mp (hover l hl hcode)
      exact absurd (decide_eq_true hcode) hgo

end FallBack

end Icq.Lib
