import Mathlib.Order.Basic
import Mathlib.Order.Defs.LinearOrder
import Mathlib.Data.Set.Basic

/-! What sorting and binary search ask of a comparison, on the values at hand only. -/

namespace Icq.Lib

variable {α β : Type*}

/-- Neither value comes first. -/
def Incomp (lt : α → α → Prop) (a b : α) : Prop := ¬ lt a b ∧ ¬ lt b a

/-- A strict weak order of the values of `s`; nothing is said of other values. -/
structure StrictWeakOn (lt : α → α → Prop) (s : Set α) : Prop where
  irrefl : ∀ a ∈ s, ¬ lt a a
  asymm : ∀ a ∈ s, ∀ b ∈ s, lt a b → ¬ lt b a
  trans : ∀ a ∈ s, ∀ b ∈ s, ∀ c ∈ s, lt a b → lt b c → lt a c
  incomp_trans : ∀ a ∈ s, ∀ b ∈ s, ∀ c ∈ s, Incomp lt a b → Incomp lt b c → Incomp lt a c

variable {lt : α → α → Prop} {s : Set α} {a b c : α}

theorem Incomp.symm (h : Incomp lt a b) : Incomp lt b a := ⟨h.2, h.1⟩

namespace StrictWeakOn

/-- A comparison of places in a linear order is a strict weak order. -/
theorem of_place [LinearOrder β] (place : α → β)
    (h : ∀ a ∈ s, ∀ b ∈ s, lt a b ↔ place a < place b) : StrictWeakOn lt s where
  irrefl a ha hlt := lt_irrefl _ ((h a ha a ha).mp hlt)
  asymm a ha b hb hab hba := lt_asymm ((h a ha b hb).mp hab) ((h b hb a ha).mp hba)
  trans a ha b hb c hc hab hbc := by
    have := lt_trans ((h a ha b hb).mp hab) ((h b hb c hc).mp hbc)
    exact (h a ha c hc).mpr this
  incomp_trans a ha b hb c hc hab hbc := by
    simp only [Incomp, h a ha b hb, h b hb a ha, not_lt] at hab
    simp only [Incomp, h b hb c hc, h c hc b hb, not_lt] at hbc
    simp only [Incomp, h a ha c hc, h c hc a ha, not_lt]
    exact ⟨hbc.1.trans hab.1, hab.2.trans hbc.2⟩

/-- What comes before a value comes before every value beside it. -/
theorem lt_of_incomp (h : StrictWeakOn lt s) (ha : a ∈ s) (hb : b ∈ s) (hc : c ∈ s)
    (hab : Incomp lt a b) (hbc : lt b c) : lt a c := by
  by_contra hac
  by_cases hca : lt c a
  · exact hab.2 (h.trans b hb c hc a ha hbc hca)
  · have hbc' := h.incomp_trans b hb a ha c hc hab.symm ⟨hac, hca⟩
    exact hbc'.1 hbc

/-- What a value comes before, it comes before every value beside that one. -/
theorem lt_of_lt_of_incomp (h : StrictWeakOn lt s) (ha : a ∈ s) (hb : b ∈ s) (hc : c ∈ s)
    (hab : lt a b) (hbc : Incomp lt b c) : lt a c := by
  by_contra hac
  by_cases hca : lt c a
  · exact hbc.2 (h.trans c hc a ha b hb hca hab)
  · have hab' := h.incomp_trans a ha c hc b hb ⟨hac, hca⟩ hbc.symm
    exact hab'.1 hab

end StrictWeakOn

end Icq.Lib
