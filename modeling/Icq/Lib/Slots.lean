import Mathlib.Data.List.Basic

/-! A list of slots of which one is filled anew. -/

namespace Icq.Lib

variable {α β : Type} {l : List α} {i : Nat} {a : α}

/-- A filled slot stands between two halves that no filling touches. -/
theorem exists_slot (h : l[i]? = some a) :
    ∃ front back, l = front ++ a :: back ∧ ∀ b, l.set i b = front ++ b :: back := by
  obtain ⟨hi, rfl⟩ := List.getElem?_eq_some_iff.mp h
  refine ⟨l.take i, l.drop (i + 1), ?_, ?_⟩
  · rw [List.getElem_cons_drop, List.take_append_drop]
  · intro b
    rw [List.set_eq_take_append_cons_drop, if_pos hi]

theorem filterMap_slot {f : α → Option β} {front back : List α} :
    (front ++ a :: back).filterMap f =
      front.filterMap f ++ ((f a).toList ++ back.filterMap f) := by
  cases h : f a <;> simp [List.filterMap_append, h]

/-- What is collected from the slots changes by what the slot held and what it holds now. -/
theorem perm_filterMap_set {f : α → Option β} (h : l[i]? = some a) (b : α) :
    ((f a).toList ++ (l.set i b).filterMap f).Perm ((f b).toList ++ l.filterMap f) := by
  obtain ⟨front, back, rfl, hset⟩ := exists_slot h
  rw [hset, filterMap_slot, filterMap_slot]
  refine (List.perm_append_comm_assoc _ _ _).trans ?_
  refine ((List.perm_append_comm_assoc _ _ _).append_left _).trans ?_
  exact List.perm_append_comm_assoc _ _ _

theorem countP_set_add {p : α → Bool} (h : l[i]? = some a) (b : α) :
    (l.set i b).countP p + (if p a then 1 else 0) = l.countP p + if p b then 1 else 0 := by
  obtain ⟨front, back, rfl, hset⟩ := exists_slot h
  rw [hset, List.countP_append, List.countP_append, List.countP_cons, List.countP_cons]
  omega

end Icq.Lib
