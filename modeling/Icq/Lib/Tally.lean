import Mathlib.Data.List.Count
import Mathlib.Data.List.Induction

/-! Counting equal items of a list, in the order they first appear. -/

namespace Icq.Lib

variable {α β : Type} {same : α → α → Bool}

def tallyAdd (same : α → α → Bool) (a : α) : List (α × Nat) → List (α × Nat)
  | [] => [(a, 1)]
  | item :: rest =>
    if same item.1 a then (item.1, item.2 + 1) :: rest else item :: tallyAdd same a rest

def tally (same : α → α → Bool) (l : List α) : List (α × Nat) :=
  l.foldl (fun counted a => tallyAdd same a counted) []

/-- A counted item for each time it was counted, as `key` shows it. -/
def untally (key : α → β) (counted : List (α × Nat)) : List β :=
  counted.flatMap fun item => List.replicate item.2 (key item.1)

theorem mem_tallyAdd {a : α} {counted : List (α × Nat)} {item : α × Nat}
    (h : item ∈ tallyAdd same a counted) : 0 < item.2 ∧ (item.1 = a ∨ ∃ n, (item.1, n) ∈ counted) ∨
      item ∈ counted := by
  induction counted with
  | nil =>
    obtain rfl := List.mem_singleton.mp h
    exact .inl ⟨Nat.one_pos, .inl rfl⟩
  | cons first rest ih =>
    rw [tallyAdd] at h
    split at h
    · rcases List.mem_cons.mp h with rfl | h
      · exact .inl ⟨Nat.succ_pos _, .inr ⟨first.2, List.mem_cons_self⟩⟩
      · exact .inr (List.mem_cons_of_mem _ h)
    · rcases List.mem_cons.mp h with rfl | h
      · exact .inr List.mem_cons_self
      · rcases ih h with ⟨hpos, ha | ⟨n, hn⟩⟩ | hm
        · exact .inl ⟨hpos, .inl ha⟩
        · exact .inl ⟨hpos, .inr ⟨n, List.mem_cons_of_mem _ hn⟩⟩
        · exact .inr (List.mem_cons_of_mem _ hm)

/-- Every counted item was there, and was counted at least once. -/
theorem mem_tally {l : List α} {item : α × Nat} (h : item ∈ tally same l) :
    0 < item.2 ∧ item.1 ∈ l := by
  induction l using List.reverseRecOn generalizing item with
  | nil => cases h
  | append_singleton l a ih =>
    rw [tally, List.foldl_append] at h
    rcases mem_tallyAdd h with ⟨hpos, ha | ⟨n, hn⟩⟩ | hm
    · exact ⟨hpos, ha ▸ List.mem_append_right _ List.mem_cons_self⟩
    · exact ⟨hpos, List.mem_append_left _ (ih hn).2⟩
    · exact ⟨(ih hm).1, List.mem_append_left _ (ih hm).2⟩

theorem untally_tallyAdd {key : α → β} (hsame : ∀ a b, same a b = true → key a = key b) (a : α)
    (counted : List (α × Nat)) :
    (untally key (tallyAdd same a counted)).Perm (untally key counted ++ [key a]) := by
  induction counted with
  | nil => exact .refl _
  | cons first rest ih =>
    rw [tallyAdd]
    split
    next heq =>
      rw [untally, List.flatMap_cons, List.replicate_succ, ← hsame _ _ heq]
      exact @List.perm_append_comm _ [key first.1] _
    next =>
      rw [untally, List.flatMap_cons, untally, List.flatMap_cons, List.append_assoc]
      exact ih.append_left _

/-- The counted items are those of the list. -/
theorem untally_tally {key : α → β} (hsame : ∀ a b, same a b = true → key a = key b) (l : List α) :
    (untally key (tally same l)).Perm (l.map key) := by
  induction l using List.reverseRecOn with
  | nil => exact .refl _
  | append_singleton l a ih =>
    rw [tally, List.foldl_append, List.map_append]
    exact (untally_tallyAdd hsame a _).trans (ih.append_right _)

theorem count_of_mem_tally [BEq β] [LawfulBEq β] {key : α → β}
    (hsame : ∀ a b, same a b = true → key a = key b) {l : List α} {item : α × Nat}
    (h : item ∈ tally same l) : item.2 ≤ (l.map key).count (key item.1) := by
  rw [← (untally_tally hsame l).count_eq, ← List.replicate_sublist_iff]
  rw [untally, List.flatMap_def]
  exact List.sublist_flatten_of_mem (List.mem_map.mpr ⟨item, h, rfl⟩)

end Icq.Lib
