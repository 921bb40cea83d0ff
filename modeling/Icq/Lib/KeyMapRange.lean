import Icq.Lib.KeyMap
import Mathlib.Data.List.Induction

namespace Icq.Lib

namespace KeyMap

variable {ν κ : Type} [LinearOrder κ] {key : ν → κ} {m m' : KeyMap key} {v x : ν} {k : κ}

theorem mem_foldl_put {l : List ν} (h : x ∈ (l.foldl put m).items) : x ∈ m.items ∨ x ∈ l := by
  induction l generalizing m with
  | nil => exact .inl h
  | cons v l ih =>
    rcases ih h with h' | h'
    · rcases mem_put.mp h' with rfl | h'
      · exact .inr List.mem_cons_self
      · exact .inl h'.1
    · exact .inr (List.mem_cons_of_mem _ h')

/-- The key lies between the first and the last one. -/
def Spans (m : KeyMap key) (k : κ) : Prop :=
  ∃ first ∈ m.first?, ∃ last ∈ m.last?, key first ≤ k ∧ k ≤ key last

theorem spans_iff_keys : m.Spans k ↔ ∃ a ∈ (m.items.map key).head?,
    ∃ b ∈ (m.items.map key).getLast?, a ≤ k ∧ k ≤ b := by
  rw [Spans, first?, last?, List.head?_map, List.getLast?_map]
  simp

/-- Values may change under their keys. -/
theorem spans_congr (h : m.items.map key = m'.items.map key) : m.Spans k ↔ m'.Spans k := by
  rw [spans_iff_keys, spans_iff_keys, h]

theorem first_le {a : ν} (ha : a ∈ m.first?) (hv : v ∈ m.items) : key a ≤ key v := by
  have hs := m.sorted
  obtain ⟨rest, hrest⟩ := List.head?_eq_some_iff.mp ha
  rw [hrest] at hs hv
  rcases List.mem_cons.mp hv with rfl | hv
  · exact le_refl _
  · exact le_of_lt ((List.pairwise_cons.mp hs).1 v hv)

theorem le_last {b : ν} (hb : b ∈ m.last?) (hv : v ∈ m.items) : key v ≤ key b := by
  have hs := m.sorted
  obtain ⟨rest, hrest⟩ := List.getLast?_eq_some_iff.mp hb
  rw [hrest] at hs hv
  rcases List.mem_append.mp hv with hv | hv
  · exact le_of_lt ((List.pairwise_append.mp hs).2.2 v hv b (List.mem_singleton.mpr rfl))
  · rw [List.mem_singleton.mp hv]

theorem spans_of_mem (hv : v ∈ m.items) : m.Spans (key v) := by
  have hne := List.ne_nil_of_mem hv
  have hfirst : m.first? = some (m.items.head hne) := List.head?_eq_some_head hne
  have hlast : m.last? = some (m.items.getLast hne) := List.getLast?_eq_some_getLast hne
  exact ⟨_, hfirst, _, hlast, first_le hfirst hv, le_last hlast hv⟩

/-- What the entries hold is found again by what names its entry. -/
theorem filter_flatMap {β : Type} {f : ν → List β} {owner : β → κ} (m : KeyMap key)
    (hown : ∀ v ∈ m.items, ∀ b ∈ f v, owner b = key v) (k : κ) :
    (m.items.flatMap f).filter (fun b => owner b == k) = ((m.find? k).map f).getD [] := by
  obtain ⟨items, hsorted⟩ := m
  unfold find?
  dsimp only at hown ⊢
  induction items with
  | nil => rfl
  | cons v items ih =>
    obtain ⟨hfirst, hsorted⟩ := List.pairwise_cons.mp hsorted
    obtain ⟨hv, hown⟩ := List.forall_mem_cons.mp hown
    rw [List.flatMap_cons, List.filter_append, ih hsorted hown, List.find?_cons]
    by_cases hk : key v = k
    · have hrest : ∀ x ∈ items, ¬(key x == k) = true := fun x hx => by
        rw [beq_iff_eq]
        exact fun hxk => (ne_of_lt (hfirst x hx)) (hk.trans hxk.symm)
      rw [List.find?_eq_none.mpr hrest, beq_iff_eq.mpr hk, Option.map_none, Option.getD_none,
        List.append_nil]
      exact List.filter_eq_self.mpr fun b hb => beq_iff_eq.mpr ((hv b hb).trans hk)
    · have hnone : (f v).filter (fun b => owner b == k) = [] :=
        List.filter_eq_nil_iff.mpr fun b hb h => hk ((hv b hb).symm.trans (beq_iff_eq.mp h))
      rw [beq_eq_false_iff_ne.mpr hk, hnone, List.nil_append]

end KeyMap

end Icq.Lib
