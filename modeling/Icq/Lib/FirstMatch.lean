import Mathlib.Data.List.Basic
import Mathlib.Data.List.Nodup
import Mathlib.Data.List.Pairwise

/-! The first entry of a vector that a search finds: replaced or erased in its place. -/

namespace Icq.Lib

variable {α β : Type*} {p : α → Bool} {f : α → α} {l : List α} {a x : α}

/-- Replace the first entry that `p` holds of. -/
def modifyFirst (p : α → Bool) (f : α → α) : List α → List α
  | [] => []
  | a :: l => if p a then f a :: l else a :: modifyFirst p f l

theorem mem_modifyFirst (h : x ∈ modifyFirst p f l) : x ∈ l ∨ ∃ a ∈ l, p a = true ∧ x = f a := by
  induction l with
  | nil => cases h
  | cons a l ih =>
    rw [modifyFirst] at h
    split at h
    · rename_i ha
      rcases List.mem_cons.mp h with rfl | hx
      · exact .inr ⟨a, List.mem_cons_self, ha, rfl⟩
      · exact .inl (List.mem_cons_of_mem _ hx)
    · rcases List.mem_cons.mp h with rfl | hx
      · exact .inl List.mem_cons_self
      · rcases ih hx with hx | ⟨b, hb, hp, rfl⟩
        · exact .inl (List.mem_cons_of_mem _ hx)
        · exact .inr ⟨b, List.mem_cons_of_mem _ hb, hp, rfl⟩

/-- What the replacement keeps is kept in every place. -/
theorem map_modifyFirst {g : α → β} (h : ∀ a ∈ l, p a = true → g (f a) = g a) :
    (modifyFirst p f l).map g = l.map g := by
  induction l with
  | nil => rfl
  | cons a l ih =>
    rw [modifyFirst]
    split
    · rename_i ha
      rw [List.map_cons, List.map_cons, h a List.mem_cons_self ha]
    · rw [List.map_cons, List.map_cons, ih fun b hb => h b (List.mem_cons_of_mem _ hb)]

end Icq.Lib
