import Mathlib.Data.List.DropRight

/-! What stands behind the last of some element of a list, and what in front of it. -/

namespace Icq.Lib

variable {α : Type} [DecidableEq α] {a b text : List α} {c : α}

/-- What stands behind the last of an element, which is everything if there is none. -/
def behindLast (c : α) (text : List α) : List α := text.rtakeWhile (· != c)

/-- What stands in front of the last of an element, which is everything if there is none. -/
def upToLast (c : α) (text : List α) : List α :=
  if c ∈ text then (text.rdropWhile (· != c)).dropLast else text

omit [DecidableEq α] in
theorem exists_last (h : c ∈ text) : ∃ a b, text = a ++ c :: b ∧ c ∉ b := by
  obtain ⟨a, b, heq, hnot⟩ := List.eq_append_cons_of_mem (List.mem_reverse.mpr h)
  refine ⟨b.reverse, a.reverse, ?_, fun hmem => hnot (List.mem_reverse.mp hmem)⟩
  rw [← List.reverse_reverse text, heq, List.reverse_append, List.reverse_cons, List.append_assoc]
  rfl

theorem ne_of_notMem (h : c ∉ b) : ∀ x ∈ b, (x != c) = true :=
  fun _ hx => bne_iff_ne.mpr fun heq => h (heq ▸ hx)

theorem behindLast_last (h : c ∉ b) : behindLast c (a ++ c :: b) = b := by
  have hall : ∀ x ∈ b.reverse, (x != c) = true :=
    fun x hx => ne_of_notMem h x (List.mem_reverse.mp hx)
  rw [behindLast, List.rtakeWhile, List.reverse_append, List.reverse_cons, List.append_assoc,
    List.takeWhile_append_of_pos hall, List.singleton_append, List.takeWhile_cons_of_neg (by simp),
    List.append_nil, List.reverse_reverse]

theorem upToLast_last (h : c ∉ b) : upToLast c (a ++ c :: b) = a := by
  have hall : ∀ x ∈ b.reverse, (x != c) = true :=
    fun x hx => ne_of_notMem h x (List.mem_reverse.mp hx)
  rw [upToLast, if_pos (List.mem_append_right _ List.mem_cons_self), List.rdropWhile,
    List.reverse_append, List.reverse_cons, List.append_assoc, List.dropWhile_append_of_pos hall,
    List.singleton_append, List.dropWhile_cons_of_neg (by simp), List.reverse_cons,
    List.reverse_reverse, List.dropLast_concat]

theorem upToLast_none (h : c ∉ text) : upToLast c text = text := if_neg h

theorem behindLast_append (h : c ∈ b) : behindLast c (a ++ b) = behindLast c b := by
  obtain ⟨x, y, rfl, hy⟩ := exists_last h
  rw [← List.append_assoc, behindLast_last hy, behindLast_last hy]

end Icq.Lib
