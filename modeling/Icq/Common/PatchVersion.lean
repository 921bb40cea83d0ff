import Icq.Lib.Scalar

namespace Icq.Common
open Icq.Lib

/-- The version of a message's last update as the server wrote it. -/
structure PatchVersion where
  versionString : Bytes := []
  offlineVersion : Int32 := 0
deriving DecidableEq

namespace PatchVersion

/-- Lexicographic order of signed characters. -/
def lexLess : Bytes → Bytes → Bool
  | _, [] => false
  | [], _ :: _ => true
  | a :: as, b :: bs =>
    if a.toInt8 < b.toInt8 then true
    else if b.toInt8 < a.toInt8 then false
    else lexLess as bs

/-- A longer version string is newer; equal lengths compare as text. -/
def textLess (lhs rhs : Bytes) : Bool :=
  if lhs.length = rhs.length then lexLess lhs rhs else decide (lhs.length < rhs.length)

/-- The offline part plays no role. -/
def lessThan (lhs rhs : PatchVersion) : Bool := textLess lhs.versionString rhs.versionString

theorem lexLess_irrefl (s : Bytes) : lexLess s s = false := by
  induction s with
  | nil => rfl
  | cons a s ih => simp [lexLess, ih]

theorem toInt8_inj {a b : UInt8} (h : a.toInt8 = b.toInt8) : a = b := by
  have hu := congrArg Int8.toUInt8 h
  simpa using hu

theorem lexLess_cons {a b : UInt8} {s t : Bytes} :
    lexLess (a :: s) (b :: t) = true ↔
      a.toInt8 < b.toInt8 ∨ (a = b ∧ lexLess s t = true) := by
  rw [lexLess]
  by_cases hab : a.toInt8 < b.toInt8
  · simp [hab]
  · by_cases hba : b.toInt8 < a.toInt8
    · have hne : a ≠ b := by
        rintro rfl
        exact hab hba
      simp [hab, hba, hne]
    · have heq : a = b := by
        apply toInt8_inj
        rw [Int8.lt_iff_toInt_lt] at hab hba
        rw [← Int8.toInt_inj]
        omega
      simp [heq]

theorem lexLess_trans {r s t : Bytes} (hrs : lexLess r s = true) (hst : lexLess s t = true) :
    lexLess r t = true := by
  induction r generalizing s t with
  | nil =>
    cases t with
    | nil => cases s <;> cases hst
    | cons c t => rfl
  | cons a r ih =>
    cases s with
    | nil => cases hrs
    | cons b s =>
      cases t with
      | nil => cases hst
      | cons c t =>
        rw [lexLess_cons] at hrs hst ⊢
        rcases hrs with hab | ⟨rfl, hrs⟩
        · rcases hst with hbc | ⟨rfl, _⟩
          · rw [Int8.lt_iff_toInt_lt] at hab hbc ⊢
            exact Or.inl (by omega)
          · exact Or.inl hab
        · rcases hst with hac | ⟨rfl, hst⟩
          · exact Or.inl hac
          · exact Or.inr ⟨rfl, ih hrs hst⟩

theorem eq_of_not_lexLess {s t : Bytes} (hl : s.length = t.length) (hst : lexLess s t = false)
    (hts : lexLess t s = false) : s = t := by
  induction s generalizing t with
  | nil => exact (List.length_eq_zero_iff.mp hl.symm).symm
  | cons a s ih =>
    cases t with
    | nil => cases hl
    | cons b t =>
      rw [← Bool.not_eq_true, lexLess_cons, not_or] at hst hts
      have hab : a = b := by
        apply toInt8_inj
        rw [← Int8.toInt_inj]
        have h1 := hst.1
        have h2 := hts.1
        rw [Int8.lt_iff_toInt_lt] at h1 h2
        omega
      subst hab
      have hrest : s = t := by
        apply ih (by simpa using hl)
        · simpa using hst.2
        · simpa using hts.2
      rw [hrest]

theorem textLess_irrefl (s : Bytes) : textLess s s = false := by simp [textLess, lexLess_irrefl]

theorem textLess_iff {s t : Bytes} : textLess s t = true ↔
    s.length < t.length ∨ (s.length = t.length ∧ lexLess s t = true) := by
  unfold textLess
  split
  · rename_i h
    simp [h]
  · rename_i h
    simp [h]

theorem textLess_trans {r s t : Bytes} (hrs : textLess r s = true) (hst : textLess s t = true) :
    textLess r t = true := by
  rw [textLess_iff] at hrs hst ⊢
  rcases hrs with h | ⟨he, h⟩
  · exact Or.inl (by omega)
  · rcases hst with h' | ⟨he', h'⟩
    · exact Or.inl (by omega)
    · exact Or.inr ⟨he.trans he', lexLess_trans h h'⟩

/-- Texts neither of which is newer are the same. -/
theorem eq_of_not_textLess {s t : Bytes} (hst : textLess s t = false) (hts : textLess t s = false) :
    s = t := by
  rw [← Bool.not_eq_true, textLess_iff, not_or, not_and] at hst hts
  have hl : s.length = t.length := by omega
  exact eq_of_not_lexLess hl (by simpa using hst.2 hl) (by simpa using hts.2 hl.symm)

theorem not_textLess_trans {r s t : Bytes} (hrs : textLess r s = false)
    (hst : textLess s t = false) : textLess r t = false := by
  rw [← Bool.not_eq_true]
  intro hrt
  cases hsr : textLess s r with
  | true => exact absurd (textLess_trans hsr hrt) (by rw [hst]; decide)
  | false =>
    rw [eq_of_not_textLess hrs hsr, hst] at hrt
    cases hrt

/-- Nothing is older than the empty text or longer than what is cut off it. -/
theorem not_textLess_take (s : Bytes) (n : Nat) : textLess s (s.take n) = false := by
  rw [← Bool.not_eq_true, textLess_iff, List.length_take]
  rintro (h | ⟨h, hl⟩)
  · omega
  · rw [List.take_of_length_le (by omega), lexLess_irrefl] at hl
    cases hl

theorem textLess_asymm {s t : Bytes} (h : textLess s t = true) : textLess t s = false := by
  rw [← Bool.not_eq_true]
  intro ht
  have hss := textLess_trans h ht
  rw [textLess_irrefl] at hss
  cases hss

theorem lessThan_irrefl (p : PatchVersion) : lessThan p p = false := textLess_irrefl _

end PatchVersion

end Icq.Common
