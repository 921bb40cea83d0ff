import Mathlib.Data.List.Sublists
import Mathlib.Data.List.Induction

/-! A pass over a list that takes an element when it is free, or tied to a key already known:
what it knows in the end is told by the chains of the list. -/

namespace Icq.Lib

variable {σ α κ : Type*}

/-- A chain that starts at an anchored element; each further one is tied to the one before.
It ends at the key. -/
inductive Tied (anchored : α → Prop) (key prev : α → κ) : List α → κ → Prop
  | single (a : α) (h : anchored a) : Tied anchored key prev [a] (key a)
  | snoc (chain : List α) (a : α) (h : Tied anchored key prev chain (prev a)) :
    Tied anchored key prev (chain ++ [a]) (key a)

variable {anchored : α → Prop} {key prev : α → κ}

theorem tied_concat {chain : List α} {a : α} {k : κ} (h : Tied anchored key prev (chain ++ [a]) k) :
    k = key a ∧ (anchored a ∨ Tied anchored key prev chain (prev a)) := by
  generalize hl : chain ++ [a] = l at h
  cases h with
  | single b hb =>
    obtain ⟨rfl, hab⟩ := List.append_inj' (hl.trans (List.nil_append [b]).symm) rfl
    cases hab
    exact ⟨rfl, .inl hb⟩
  | snoc chain' b hb =>
    obtain ⟨rfl, hab⟩ := List.append_inj' hl rfl
    cases hab
    exact ⟨rfl, .inr hb⟩

section Known

variable {step : σ → α → σ} {known : σ → κ → Prop} {free : α → Prop}

/-- After the pass a key is known when it was before, or when a chain within the list ends
at it. -/
theorem known_foldl
    (hstep : ∀ s a k, known (step s a) k ↔ known s k ∨ (k = key a ∧ (free a ∨ known s (prev a))))
    (s : σ) (l : List α) (k : κ) :
    known (l.foldl step s) k ↔ known s k ∨
      ∃ chain, chain.Sublist l ∧ Tied (fun a => free a ∨ known s (prev a)) key prev chain k := by
  induction l using List.reverseRecOn generalizing k with
  | nil =>
    refine ⟨.inl, fun h => h.resolve_right ?_⟩
    intro ⟨chain, hsub, htied⟩
    rw [List.sublist_nil] at hsub
    subst hsub
    generalize hl : ([] : List α) = l at htied
    cases htied with
    | single a h => cases hl
    | snoc chain a h => exact List.append_ne_nil_of_right_ne_nil _ (List.cons_ne_nil _ _) hl.symm
  | append_singleton l a ih =>
    rw [List.foldl_append, List.foldl_cons, List.foldl_nil, hstep, ih]
    constructor
    · intro h
      rcases h with (hk | ⟨chain, hsub, htied⟩) | ⟨rfl, hfree | hprev⟩
      · exact .inl hk
      · exact .inr ⟨chain, hsub.trans (List.sublist_append_left _ _), htied⟩
      · exact .inr ⟨[a], List.sublist_append_right _ _, .single a (.inl hfree)⟩
      · rcases (ih (prev a)).mp hprev with hs | ⟨chain, hsub, htied⟩
        · exact .inr ⟨[a], List.sublist_append_right _ _, .single a (.inr hs)⟩
        · exact .inr ⟨chain ++ [a], hsub.append (List.Sublist.refl _), .snoc chain a htied⟩
    · intro h
      rcases h with hk | ⟨chain, hsub, htied⟩
      · exact .inl (.inl hk)
      · obtain ⟨first, last, rfl, hfirst, hlast⟩ := List.sublist_append_iff.mp hsub
        rcases List.sublist_singleton.mp hlast with rfl | rfl
        · rw [List.append_nil] at htied
          exact .inl (.inr ⟨first, hfirst, htied⟩)
        · obtain ⟨rfl, (hfree | hs) | hchain⟩ := tied_concat htied
          · exact .inr ⟨rfl, .inl hfree⟩
          · exact .inr ⟨rfl, .inr ((ih (prev a)).mpr (.inl hs))⟩
          · exact .inr ⟨rfl, .inr ((ih (prev a)).mpr (.inr ⟨first, hfirst, hchain⟩))⟩

end Known

end Icq.Lib
