import Icq.Lib.KeyMap
import Mathlib.Algebra.Ring.Nat

/-! How much a map holds, entry by entry, and how long a run can be that makes something less. -/

namespace Icq.Lib

namespace KeyMap

variable {ν κ : Type} [LinearOrder κ] {key : ν → κ}

def weight (m : KeyMap key) (f : ν → Nat) : Nat := (m.items.map f).sum

theorem weight_list (f : ν → Nat) (k : κ) {l : List ν} (h : l.Pairwise fun a b => key a < key b) :
    (l.map f).sum = ((l.find? fun v => key v == k).map f).getD 0 +
      ((l.filter fun v => key v != k).map f).sum := by
  induction l with
  | nil => rfl
  | cons v l ih =>
    obtain ⟨hv, hl⟩ := List.pairwise_cons.mp h
    by_cases hk : key v = k
    · have hrest : l.filter (fun v => key v != k) = l := by
        rw [List.filter_eq_self]
        intro w hw
        simpa using ne_of_gt (hk ▸ hv w hw)
      simp [hk, hrest]
    · simp [hk, ih hl]
      omega

/-- The entry of one key, and all others. -/
theorem weight_erase (m : KeyMap key) (f : ν → Nat) (k : κ) :
    m.weight f = ((m.find? k).map f).getD 0 + (m.erase k).weight f :=
  weight_list f k m.sorted

end KeyMap

/-- Where every action makes the effort less, no more actions follow than the effort allows. -/
theorem foldlM_effort {σ ι : Type} {step : σ → ι → Option σ} {P : σ → Prop} {allowed : ι → Prop}
    {s s' : σ} {actions : List ι} (effort : σ → Nat)
    (keep : ∀ {s action s'}, P s → allowed action → step s action = some s' →
      P s' ∧ effort s' < effort s)
    (hs : P s) (hallowed : ∀ action ∈ actions, allowed action)
    (h : actions.foldlM step s = some s') : P s' ∧ actions.length + effort s' ≤ effort s := by
  induction actions generalizing s with
  | nil =>
    obtain rfl := Option.some.inj h
    exact ⟨hs, by simp⟩
  | cons action actions ih =>
    obtain ⟨haction, hrest⟩ := List.forall_mem_cons.mp hallowed
    rw [List.foldlM_cons] at h
    obtain ⟨next, hnext, h⟩ := Option.bind_eq_some_iff.mp h
    obtain ⟨hp, hless⟩ := keep hs haction hnext
    obtain ⟨hend, hlength⟩ := ih hp hrest h
    refine ⟨hend, ?_⟩
    rw [List.length_cons]
    omega

end Icq.Lib
