import Mathlib.Data.List.Basic

/-! Reading a list in pages of as many visible entries as a limit says. -/

namespace Icq.Lib

variable {α : Type}

/-- The front of the list up to the entry with which `n` visible ones become `limit`. -/
def page (visible : α → Bool) (limit n : Nat) : List α → List α
  | [] => []
  | x :: rest =>
    let n := if visible x then n + 1 else n
    x :: if limit ≤ n then [] else page visible limit n rest

variable {visible : α → Bool} {limit n : Nat}

@[simp] theorem page_nil : page visible limit n [] = [] := rfl

theorem page_eq_nil {l : List α} : page visible limit n l = [] ↔ l = [] := by
  cases l with
  | nil => exact Iff.rfl
  | cons x rest => exact ⟨fun h => absurd h (by simp [page]), fun h => absurd h (by simp)⟩

theorem page_isPrefix (visible : α → Bool) (limit n : Nat) (l : List α) :
    page visible limit n l <+: l := by
  induction l generalizing n with
  | nil => exact List.prefix_rfl
  | cons x rest ih =>
    rw [page, List.prefix_cons_inj]
    generalize (if visible x = true then n + 1 else n) = count
    split
    · exact List.nil_prefix
    · exact ih count

/-- A page is all of the list, or a full one that ends with a visible entry. -/
theorem page_cases (visible : α → Bool) (hn : n < limit) (l : List α) :
    (page visible limit n l = l ∧ n + l.countP visible < limit) ∨
    ∃ front x rest, page visible limit n l = front ++ [x] ∧ l = front ++ x :: rest ∧
      visible x ∧ n + (front ++ [x]).countP visible = limit := by
  induction l generalizing n with
  | nil => exact Or.inl ⟨rfl, by simpa using hn⟩
  | cons x rest ih =>
    by_cases hx : visible x
    · by_cases hfull : limit ≤ n + 1
      · right
        refine ⟨[], x, rest, by simp [page, hx, hfull], rfl, hx, ?_⟩
        have hone : n + 1 = limit := by omega
        simpa [hx] using hone
      · rcases ih (by omega : n + 1 < limit) with ⟨hall, hcount⟩ | ⟨front, y, tail, hpage, hl, hy, hcount⟩
        · left
          refine ⟨by simp [page, hx, hfull, hall], ?_⟩
          rw [List.countP_cons, if_pos hx]
          omega
        · right
          refine ⟨x :: front, y, tail, by simp [page, hx, hfull, hpage], by rw [hl]; rfl, hy, ?_⟩
          rw [List.cons_append, List.countP_cons, if_pos hx]
          omega
    · have hrest : page visible limit n (x :: rest) = x :: page visible limit n rest := by
        simp [page, hx, show ¬ limit ≤ n by omega]
      rcases ih hn with ⟨hall, hcount⟩ | ⟨front, y, tail, hpage, hl, hy, hcount⟩
      · left
        refine ⟨by rw [hrest, hall], ?_⟩
        rw [List.countP_cons, if_neg hx]
        exact hcount
      · right
        refine ⟨x :: front, y, tail, by rw [hrest, hpage]; rfl, by rw [hl]; rfl, hy, ?_⟩
        rw [List.cons_append, List.countP_cons, if_neg hx]
        exact hcount

/-- Only a full page leaves something. -/
theorem page_of_count_lt {l : List α} (hn : n < limit)
    (h : n + (page visible limit n l).countP visible < limit) : page visible limit n l = l := by
  rcases page_cases visible hn l with ⟨hall, -⟩ | ⟨front, x, rest, hpage, -, -, hcount⟩
  · exact hall
  · rw [hpage] at h
    omega

/-- The visible entries of a page are the first ones of the list. -/
theorem filter_page (visible : α → Bool) (hn : n < limit) (l : List α) :
    (page visible limit n l).filter visible = (l.filter visible).take (limit - n) := by
  rcases page_cases visible hn l with ⟨hall, hcount⟩ | ⟨front, x, rest, hpage, hl, -, hcount⟩
  · rw [List.countP_eq_length_filter] at hcount
    rw [hall, List.take_of_length_le (by omega)]
  · rw [List.countP_eq_length_filter] at hcount
    have hsplit : l = (front ++ [x]) ++ rest := hl.trans (List.append_cons front x rest)
    rw [hpage, hsplit, List.filter_append (front ++ [x]) rest, List.take_left' (by omega)]

theorem takeWhile_split {p : α → Bool} {front back : List α} (hfront : ∀ x ∈ front, p x)
    (hback : ∀ x ∈ back.head?, ¬ p x) : (front ++ back).takeWhile p = front := by
  rw [List.takeWhile_append_of_pos hfront]
  cases back with
  | nil => rw [List.takeWhile_nil, List.append_nil]
  | cons x rest => rw [List.takeWhile_cons_of_neg (hback x rfl), List.append_nil]

theorem dropWhile_split {p : α → Bool} {front back : List α} (hfront : ∀ x ∈ front, p x)
    (hback : ∀ x ∈ back.head?, ¬ p x) : (front ++ back).dropWhile p = back := by
  rw [List.dropWhile_append_of_pos hfront]
  cases back with
  | nil => rfl
  | cons x rest => rw [List.dropWhile_cons_of_neg (hback x rfl)]

end Icq.Lib
