import Mathlib.Data.List.Infix

/-! Where a text has a pattern, and the words of a text. -/

namespace Icq.Lib

variable {α : Type}

section

variable [DecidableEq α] {text pattern : List α}

/-- The place where a pattern first stands in a text. -/
def findText (text pattern : List α) : Option Nat :=
  text.tails.findIdx? fun rest => pattern.isPrefixOf rest

theorem findText_isSome : (findText text pattern).isSome = true ↔ pattern <:+: text := by
  rw [findText, List.findIdx?_isSome, List.any_eq_true, List.infix_iff_prefix_suffix]
  simp only [List.mem_tails, List.isPrefixOf_iff_prefix]
  exact exists_congr fun _ => and_comm

theorem findText_zero : findText text pattern = some 0 ↔ pattern <+: text := by
  cases text with
  | nil => cases pattern <;> simp [findText]
  | cons c text =>
    simp only [findText, List.tails, List.findIdx?_cons, List.isPrefixOf_iff_prefix]
    by_cases h : pattern <+: c :: text <;> simp [h]

end

section

variable {space : α → Bool} {text part w : List α}

/-- The words of a text: the longest stretches without a space. -/
def words (space : α → Bool) (text : List α) : List (List α) :=
  (text.splitOnP space).filter (!·.isEmpty)

theorem word_ne_nil (h : w ∈ words space text) : w ≠ [] := by
  simpa using (List.mem_filter.mp h).2

theorem piece_infix {piece : List α} (h : piece ∈ text.splitOnP space) : piece <:+: text := by
  suffices (∀ first rest, text.splitOnP space = first :: rest → first <+: text) ∧
      ∀ piece ∈ text.splitOnP space, piece <:+: text from this.2 piece h
  clear h
  induction text with
  | nil => simp
  | cons c text ih =>
    obtain ⟨first, rest, he⟩ := List.exists_cons_of_ne_nil (List.splitOnP_ne_nil space text)
    have hfirst := ih.1 first rest he
    rw [List.splitOnP_cons_eq_if_modifyHead, he]
    split
    · refine ⟨fun _ _ h => ?_, fun p hp => ?_⟩
      · cases h
        exact List.nil_prefix
      · rcases List.mem_cons.mp hp with rfl | hp
        · exact List.nil_infix
        · exact (ih.2 p (he ▸ hp)).trans (List.infix_cons_iff.mpr (.inr (List.infix_refl _)))
    · rw [List.modifyHead_cons]
      refine ⟨fun _ _ h => ?_, fun p hp => ?_⟩
      · cases h
        exact List.cons_prefix_cons.mpr ⟨rfl, hfirst⟩
      · rcases List.mem_cons.mp hp with rfl | hp
        · exact (List.cons_prefix_cons.mpr ⟨rfl, hfirst⟩).isInfix
        · exact (ih.2 p (he ▸ List.mem_cons_of_mem _ hp)).trans
            (List.infix_cons_iff.mpr (.inr (List.infix_refl _)))

theorem word_infix (h : w ∈ words space text) : w <:+: text := piece_infix (List.mem_filter.mp h).1

theorem piece_no_space {piece : List α} (h : piece ∈ text.splitOnP space) :
    ∀ c ∈ piece, space c = false := by
  induction text generalizing piece with
  | nil => simp_all
  | cons c text ih =>
    obtain ⟨first, rest, he⟩ := List.exists_cons_of_ne_nil (List.splitOnP_ne_nil space text)
    rw [List.splitOnP_cons_eq_if_modifyHead, he] at h
    split at h
    · rcases List.mem_cons.mp h with rfl | h
      · simp
      · exact ih (he ▸ h)
    · rename_i hc
      rw [List.modifyHead_cons] at h
      rcases List.mem_cons.mp h with rfl | h
      · intro x hx
        rcases List.mem_cons.mp hx with rfl | hx
        · simpa using hc
        · exact ih (he ▸ List.mem_cons_self) x hx
      · exact ih (he ▸ List.mem_cons_of_mem _ h)

theorem word_no_space (h : w ∈ words space text) : ∀ c ∈ w, space c = false :=
  piece_no_space (List.mem_filter.mp h).1

/-- A beginning without spaces is in the first piece. -/
theorem prefix_first_piece {first : List α} {rest : List (List α)} (hpart : part <+: text)
    (hspace : ∀ c ∈ part, space c = false) (h : text.splitOnP space = first :: rest) :
    part <+: first := by
  induction text generalizing part first rest with
  | nil => simp_all
  | cons c text ih =>
    cases part with
    | nil => exact List.nil_prefix
    | cons d part =>
      obtain ⟨rfl, htail⟩ := List.cons_prefix_cons.mp hpart
      obtain ⟨hd, hspace⟩ := List.forall_mem_cons.mp hspace
      obtain ⟨first', rest', he⟩ := List.exists_cons_of_ne_nil (List.splitOnP_ne_nil space text)
      rw [List.splitOnP_cons_eq_if_modifyHead, hd, he] at h
      cases h
      exact List.cons_prefix_cons.mpr ⟨rfl, ih htail hspace he⟩

theorem infix_piece (hpart : part <:+: text) (hspace : ∀ c ∈ part, space c = false) :
    ∃ piece ∈ text.splitOnP space, part <:+: piece := by
  induction text with
  | nil => exact ⟨[], by simp, hpart⟩
  | cons c text ih =>
    obtain ⟨first, rest, he⟩ := List.exists_cons_of_ne_nil (List.splitOnP_ne_nil space (c :: text))
    rcases List.infix_cons_iff.mp hpart with hp | hp
    · exact ⟨first, he ▸ List.mem_cons_self, (prefix_first_piece hp hspace he).isInfix⟩
    · obtain ⟨piece, hm, hin⟩ := ih hp
      rw [List.splitOnP_cons_eq_if_modifyHead]
      obtain ⟨first', rest', he'⟩ := List.exists_cons_of_ne_nil (List.splitOnP_ne_nil space text)
      split
      · exact ⟨piece, List.mem_cons_of_mem _ hm, hin⟩
      · rw [he'] at hm ⊢
        rw [List.modifyHead_cons]
        rcases List.mem_cons.mp hm with rfl | hm
        · exact ⟨c :: piece, List.mem_cons_self, List.infix_cons_iff.mpr (.inr hin)⟩
        · exact ⟨piece, List.mem_cons_of_mem _ hm, hin⟩

/-- A part without spaces lies in one word. -/
theorem infix_word (hne : part ≠ []) (hpart : part <:+: text)
    (hspace : ∀ c ∈ part, space c = false) : ∃ w ∈ words space text, part <:+: w := by
  obtain ⟨piece, hm, hin⟩ := infix_piece hpart hspace
  refine ⟨piece, List.mem_filter.mpr ⟨hm, ?_⟩, hin⟩
  cases piece with
  | nil => exact absurd (List.infix_nil.mp hin) hne
  | cons => rfl

end

/-- A word that stands in a text a second time, further behind, puts its first letter among the
letters behind the first place, as far as the second lies behind it. -/
theorem mem_take_of_again {a : α} {w front post front' post' : List α}
    (h : front ++ (a :: w) ++ post = front' ++ (a :: w) ++ post')
    (hlt : front.length < front'.length) : a ∈ post.take (front'.length - front.length) := by
  obtain ⟨s, hs⟩ := Nat.exists_eq_add_of_lt hlt
  have hshift (i : Nat) (hi : i < w.length + 1) :
      ((a :: w) ++ post)[i + (s + 1)]? = ((a :: w) ++ post)[i]? := by
    have h1 : ((a :: w) ++ post)[i + (s + 1)]? =
        (front ++ (a :: w) ++ post)[front.length + (i + (s + 1))]? := by
      rw [List.append_assoc, List.getElem?_append_right (Nat.le_add_right _ _),
        Nat.add_sub_cancel_left]
    have h2 : (front' ++ (a :: w) ++ post')[front.length + (i + (s + 1))]? = (a :: w)[i]? := by
      rw [List.append_assoc, List.getElem?_append_right (by omega),
        List.getElem?_append_left (by rw [List.length_cons]; omega)]
      congr 1
      omega
    rw [h1, h, h2, List.getElem?_append_left (by simpa using hi)]
  -- the multiples of the distance up to the end of the word all have the letter
  have hmark (k : Nat) (hk : k * (s + 1) < w.length + 1 + (s + 1)) :
      ((a :: w) ++ post)[k * (s + 1)]? = some a := by
    induction k with
    | zero => simp
    | succ k ih =>
      rw [Nat.succ_mul] at hk ⊢
      rw [hshift _ (by omega)]
      exact ih (by omega)
  have hpos : 0 < s + 1 := Nat.succ_pos s
  have hdiv := Nat.div_add_mod (w.length + s + 1) (s + 1)
  have hmod := Nat.mod_lt (w.length + s + 1) hpos
  rw [Nat.mul_comm] at hdiv
  have hlast := hmark ((w.length + s + 1) / (s + 1)) (by omega)
  rw [List.getElem?_append_right (by rw [List.length_cons]; omega)] at hlast
  refine List.mem_of_getElem? (i := (w.length + s + 1) / (s + 1) * (s + 1) - (a :: w).length) ?_
  rw [List.getElem?_take_of_lt (by rw [List.length_cons]; omega)]
  exact hlast

/-- So it is among the letters between, when the second place begins within or right behind them. -/
theorem mem_of_again {a : α} {w front between post front' post' : List α}
    (h : front ++ (a :: w) ++ (between ++ post) = front' ++ (a :: w) ++ post')
    (hlt : front.length < front'.length) (hle : front'.length ≤ front.length + between.length) :
    a ∈ between := by
  have hmem := mem_take_of_again h hlt
  rw [List.take_append_of_le_length (by omega)] at hmem
  exact List.mem_of_mem_take hmem

end Icq.Lib
