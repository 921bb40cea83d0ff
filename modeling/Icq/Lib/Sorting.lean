import Mathlib.Data.List.Sort

/-! Lists in order. -/

namespace Icq.Lib

/-- A comparison that asks for the second part only where the first is the same. -/
theorem ite_lex {eq lt : Prop} [Decidable eq] [Decidable lt] {p : Bool} (h : eq → ¬lt) :
    (if eq then p else decide lt) = true ↔ lt ∨ eq ∧ p = true := by
  split
  · rename_i heq
    exact ⟨fun hp => .inr ⟨heq, hp⟩, fun hp => hp.elim (fun hlt => absurd hlt (h heq)) (·.2)⟩
  · rename_i hne
    rw [decide_eq_true_iff]
    exact ⟨.inl, fun hp => hp.elim id fun heq => absurd heq.1 hne⟩

/-- A new value goes where the smaller ones end. -/
theorem pairwise_insert {α : Type*} [LinearOrder α] {l : List α} {x : α}
    (h : l.Pairwise (· < ·)) (hx : x ∉ l) :
    (l.takeWhile (fun y => decide (y < x)) ++
      x :: l.dropWhile fun y => decide (y < x)).Pairwise (· < ·) := by
  have hplace := List.orderedInsert_eq_take_drop (· ≤ ·) x l
  simp only [not_le] at hplace
  rw [← hplace]
  have hle := (h.imp le_of_lt).orderedInsert x l
  have hnodup : (l.orderedInsert (· ≤ ·) x).Nodup :=
    (List.perm_orderedInsert (· ≤ ·) x l).nodup_iff.mpr (List.nodup_cons.mpr ⟨hx, h.imp ne_of_lt⟩)
  exact (hle.and hnodup).imp fun ⟨hle, hne⟩ => lt_of_le_of_ne hle hne

/-- Where those that satisfy `p` come first, taking them out and putting them in front changes
nothing. -/
theorem filter_append_filter_not {α : Type*} {p : α → Bool} {l : List α}
    (h : l.Pairwise fun a b => p b = true → p a = true) :
    l.filter p ++ l.filter (fun a => !p a) = l := by
  induction l with
  | nil => rfl
  | cons a l ih =>
    obtain ⟨ha, hl⟩ := List.pairwise_cons.mp h
    by_cases hp : p a = true
    · rw [List.filter_cons, if_pos hp, List.filter_cons, hp, Bool.not_true,
        if_neg Bool.false_ne_true, List.cons_append, ih hl]
    · have hnone : ∀ b ∈ a :: l, ¬p b = true :=
        List.forall_mem_cons.mpr ⟨hp, fun b hb hpb => hp (ha b hb hpb)⟩
      rw [List.filter_eq_nil_iff.mpr hnone, List.nil_append]
      exact List.filter_eq_self.mpr fun b hb => by rw [Bool.eq_false_iff.mpr (hnone b hb)]; rfl

section Grouping

variable {α κ : Type*} [DecidableEq κ] {key : α → κ} {ks : List κ} {l : List α}

/-- The keys come in the order of the list `ks`. -/
def KeysInOrder (ks : List κ) (keys : List κ) : Prop :=
  keys.Pairwise fun a b => ks.idxOf a ≤ ks.idxOf b

/-- Values whose keys are in order are already grouped by them. -/
theorem flatMap_filter_eq (hks : ks.Nodup) (hmem : ∀ a ∈ l, key a ∈ ks)
    (h : KeysInOrder ks (l.map key)) :
    (ks.flatMap fun k => l.filter fun a => decide (key a = k)) = l := by
  induction ks generalizing l with
  | nil => exact (List.eq_nil_iff_forall_not_mem.mpr fun a ha => List.not_mem_nil (hmem a ha)).symm
  | cons k ks ih =>
    obtain ⟨hk, hks⟩ := List.nodup_cons.mp hks
    have h := List.pairwise_map.mp h
    have hfirst : l.Pairwise fun a b => decide (key b = k) = true → decide (key a = k) = true := by
      refine h.imp fun {a b} hab hb => ?_
      rw [of_decide_eq_true hb, List.idxOf_cons_self, Nat.le_zero, List.idxOf_cons] at hab
      by_contra hne
      rw [beq_eq_false_iff_ne.mpr fun he => hne (decide_eq_true he.symm)] at hab
      exact Nat.succ_ne_zero _ hab
    rw [List.flatMap_cons]
    conv_rhs => rw [← filter_append_filter_not hfirst]
    congr 1
    have hrest := @ih (l.filter fun a => !decide (key a = k)) hks ?_ ?_
    · conv_rhs => rw [← hrest]
      refine List.flatMap_congr fun k' hk' => ?_
      rw [List.filter_filter]
      refine List.filter_congr fun a _ => ?_
      by_cases ha : key a = k'
      · have hne : key a ≠ k := fun hak => hk (hak.symm.trans ha ▸ hk')
        rw [decide_eq_true ha, decide_eq_false hne]
        rfl
      · rw [decide_eq_false ha]
        rfl
    · intro a ha
      obtain ⟨ha, hne⟩ := List.mem_filter.mp ha
      refine (List.mem_cons.mp (hmem a ha)).resolve_left fun he => ?_
      rw [decide_eq_true he] at hne
      cases hne
    · refine List.pairwise_map.mpr ((h.filter _).imp_of_mem fun {a b} ha hb hab => ?_)
      rw [List.idxOf_cons, List.idxOf_cons] at hab
      have hne : ∀ {c}, c ∈ l.filter (fun a => !decide (key a = k)) → (k == key c) = false := by
        intro c hc
        refine beq_eq_false_iff_ne.mpr fun he => ?_
        have hc := (List.mem_filter.mp hc).2
        rw [decide_eq_true he.symm] at hc
        cases hc
      rw [hne ha, hne hb] at hab
      exact Nat.le_of_succ_le_succ hab

/-- What is grouped has its keys in order. -/
theorem keysInOrder_flatMap (hks : ks.Nodup) (l : List α) :
    KeysInOrder ks ((ks.flatMap fun k => l.filter fun a => decide (key a = k)).map key) := by
  refine List.pairwise_map.mpr (List.pairwise_flatMap.mpr ⟨fun k _ => ?_, ?_⟩)
  · refine List.pairwise_of_forall_mem_list fun a ha b hb => ?_
    rw [of_decide_eq_true (List.mem_filter.mp ha).2, of_decide_eq_true (List.mem_filter.mp hb).2]
  · refine List.pairwise_iff_getElem.mpr fun i j hi hj hij a ha b hb => ?_
    rw [of_decide_eq_true (List.mem_filter.mp ha).2, of_decide_eq_true (List.mem_filter.mp hb).2,
      hks.idxOf_getElem, hks.idxOf_getElem]
    exact le_of_lt hij

end Grouping

end Icq.Lib
