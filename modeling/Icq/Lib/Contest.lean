import Mathlib.Data.List.Basic

/-! A place that a challenger takes over when its rank is at least as good as the holder's. -/

namespace Icq.Lib

variable {α κ : Type*} {rank : α → κ} {beats : κ → κ → Prop} [DecidableRel beats]
  {a m : α} {l front : List α}

/-- The holder of a place after some challengers came one after the other. -/
def contest (rank : α → κ) (beats : κ → κ → Prop) [DecidableRel beats] (holder : α) (l : List α) :
    α :=
  l.foldl (fun holder x => if beats (rank x) (rank holder) then x else holder) holder

theorem contest_cons (x : α) :
    contest rank beats a (x :: l) = contest rank beats (if beats (rank x) (rank a) then x else a) l :=
  rfl

theorem contest_append (l more : List α) :
    contest rank beats a (l ++ more) = contest rank beats (contest rank beats a l) more :=
  List.foldl_append

theorem contest_mem (rank : α → κ) (beats : κ → κ → Prop) [DecidableRel beats] (a : α) (l : List α) :
    contest rank beats a l ∈ a :: l := by
  induction l generalizing a with
  | nil => exact List.mem_cons_self
  | cons x l ih =>
    rw [contest_cons]
    split
    · exact List.mem_cons_of_mem _ (ih x)
    · rcases List.mem_cons.mp (ih a) with h | h
      · rw [h]
        exact List.mem_cons_self
      · exact List.mem_cons_of_mem _ (List.mem_cons_of_mem _ h)

/-- A holder keeps its rank against challengers of its own rank and lesser ones. -/
theorem rank_contest (h : ∀ x ∈ l, rank x = rank a ∨ ¬ beats (rank x) (rank a)) :
    rank (contest rank beats a l) = rank a := by
  induction l generalizing a with
  | nil => rfl
  | cons x l ih =>
    obtain ⟨hx, hl⟩ := List.forall_mem_cons.mp h
    rw [contest_cons]
    split
    · rename_i hb
      have heq : rank x = rank a := hx.resolve_right (not_not_intro hb)
      exact (ih fun y hy => heq ▸ hl y hy).trans heq
    · exact ih hl

/-- A challenger that beats whoever may hold the place takes it. -/
theorem contest_concat (h : ∀ x ∈ a :: l, beats (rank m) (rank x)) :
    contest rank beats a (l ++ [m]) = m := by
  rw [contest_append, contest_cons, if_pos (h _ (contest_mem rank beats a l))]
  rfl

/-- When those of a rank that the first holder does not yield to come first, the rank is lost. -/
theorem rank_of_lesser_first [DecidableEq κ] {r : κ} (h : ¬ beats r (rank a)) (hself : beats r r) :
    rank (contest rank beats a (l.filter (fun x => decide (rank x = r)) ++
      l.filter fun x => !decide (rank x = r))) ≠ r := by
  have hfirst : rank (contest rank beats a (l.filter fun x => decide (rank x = r))) = rank a := by
    refine rank_contest fun x hx => .inr ?_
    rw [of_decide_eq_true (List.mem_filter.mp hx).2]
    exact h
  rw [contest_append]
  rcases List.mem_cons.mp (contest_mem rank beats
    (contest rank beats a (l.filter fun x => decide (rank x = r)))
    (l.filter fun x => !decide (rank x = r))) with hlast | hlast
  · rw [hlast, hfirst]
    exact fun heq => h (heq ▸ hself)
  · exact fun heq => absurd heq (by simpa using (List.mem_filter.mp hlast).2)

/-- The order of the challengers does not matter and the last holder beats them all just when one
of them, or the first holder, does so strictly. -/
theorem contest_settled_iff [DecidableEq κ] (total : ∀ r q, beats r q ∨ beats q r) :
    ((∀ x ∈ l, beats (rank (contest rank beats a l)) (rank x)) ∧
      ∀ l', l'.Perm l → rank (contest rank beats a l') = rank (contest rank beats a l)) ↔
    ∃ m ∈ a :: l, beats (rank m) (rank a) ∧
      ∀ x ∈ l, rank x = rank m ∨ ¬ beats (rank x) (rank m) := by
  have hself (r : κ) : beats r r := (total r r).elim id id
  constructor
  · rintro ⟨hall, hperm⟩
    have hmem := contest_mem rank beats a l
    generalize contest rank beats a l = k at hall hperm hmem
    have hfirst : beats (rank k) (rank a) := by
      by_contra hn
      exact rank_of_lesser_first hn (hself _) (hperm _ (List.filter_append_perm _ l))
    refine ⟨k, hmem, hfirst, fun x hx => or_iff_not_imp_left.mpr fun hne hb => ?_⟩
    obtain ⟨before, after, rfl⟩ := List.append_of_mem hx
    by_cases hsame : ∃ y ∈ before ++ after, rank y = rank k
    · -- the one of this rank comes last but one, and then the other
      obtain ⟨y, hy, hyk⟩ := hsame
      obtain ⟨front, back, hsplit⟩ := List.append_of_mem hy
      have horder : ((front ++ back) ++ [y] ++ [x]).Perm (before ++ x :: after) := by
        refine (List.perm_append_singleton _ _).trans ?_
        refine List.Perm.trans ?_ List.perm_middle.symm
        refine ((List.perm_append_singleton _ _).trans ?_).cons x
        rw [hsplit]
        exact List.perm_middle.symm
      have hover : ∀ z ∈ a :: (front ++ back), beats (rank y) (rank z) := by
        rw [hyk]
        refine List.forall_mem_cons.mpr ⟨hfirst, fun z hz => hall z (horder.mem_iff.mp ?_)⟩
        exact List.mem_append_left _ (List.mem_append_left _ hz)
      have hlast := hperm _ horder
      rw [contest_append, contest_concat hover, contest_cons, hyk, if_pos hb] at hlast
      exact hne hlast
    · -- nobody who comes has the rank, so the first who takes the place loses it for good
      have hk : k = a := by
        rcases List.mem_cons.mp hmem with h | h
        · exact h
        · rcases List.mem_append.mp h with h | h
          · exact absurd ⟨k, List.mem_append_left _ h, rfl⟩ hsame
          · rcases List.mem_cons.mp h with rfl | h
            · exact absurd rfl hne
            · exact absurd ⟨k, List.mem_append_right _ h, rfl⟩ hsame
      have hlast := hperm (x :: (before ++ after)) List.perm_middle.symm
      rw [contest_cons, ← hk, if_pos hb] at hlast
      rcases List.mem_cons.mp (contest_mem rank beats x (before ++ after))
        with h | h
      · exact hne (h ▸ hlast)
      · exact hsame ⟨_, h, hlast⟩
  · rintro ⟨m, hm, hma, hl⟩
    have hbeats : ∀ x ∈ l, beats (rank m) (rank x) := by
      intro x hx
      rcases hl x hx with heq | hn
      · exact heq ▸ hself _
      · exact (total _ _).resolve_right hn
    have hrank : ∀ l', l'.Perm l → rank (contest rank beats a l') = rank m := by
      intro l' hl'
      have hl'' : ∀ x ∈ l', rank x = rank m ∨ ¬ beats (rank x) (rank m) :=
        fun x hx => hl x (hl'.mem_iff.mp hx)
      rcases List.mem_cons.mp hm with rfl | hm
      · exact rank_contest hl''
      · obtain ⟨before, after, rfl⟩ := List.append_of_mem (hl'.mem_iff.mpr hm)
        have hover : ∀ x ∈ a :: before, beats (rank m) (rank x) := by
          refine List.forall_mem_cons.mpr ⟨hma, fun x hx => hbeats x (hl'.mem_iff.mp ?_)⟩
          exact List.mem_append_left _ hx
        rw [List.append_cons, contest_append, contest_concat hover]
        refine rank_contest fun x hx => hl'' x ?_
        exact List.mem_append_right _ (List.mem_cons_of_mem _ hx)
    have hkept := hrank l (List.Perm.refl l)
    exact ⟨fun x hx => hkept ▸ hbeats x hx, fun l' hl' => (hrank l' hl').trans hkept.symm⟩

end Icq.Lib
