import Mathlib.Data.List.Forall2

/-! Texts that are changed piece by piece between their separators. -/

namespace Icq.Lib

variable {α : Type} {isSep : α → Bool} {R : List α → List α → Prop}

/-- The separators are the same, and the pieces between them are related one by one. -/
def Piecewise (isSep : α → Bool) (R : List α → List α → Prop) (s r : List α) : Prop :=
  r.filter isSep = s.filter isSep ∧
    List.Forall₂ R (s.splitOnP isSep) (r.splitOnP isSep)

namespace Piecewise

theorem exists_piece {s : List α} (h : ¬∀ c ∈ s, isSep c = false) :
    ∃ piece c rest, s = piece ++ c :: rest ∧ (∀ x ∈ piece, isSep x = false) ∧
      isSep c = true := by
  induction s with
  | nil => exact absurd (fun c hc => absurd hc List.not_mem_nil) h
  | cons x s ih =>
    cases hx : isSep x with
    | true => exact ⟨[], x, s, rfl, fun c hc => absurd hc List.not_mem_nil, hx⟩
    | false =>
      obtain ⟨piece, c, rest, rfl, hpiece, hc⟩ :=
        ih fun hs => h (List.forall_mem_cons.mpr ⟨hx, hs⟩)
      exact ⟨x :: piece, c, rest, rfl, List.forall_mem_cons.mpr ⟨hx, hpiece⟩, hc⟩

theorem filter_piece {piece : List α} (h : ∀ c ∈ piece, isSep c = false) :
    piece.filter isSep = [] :=
  List.filter_eq_nil_iff.mpr fun c hc => Bool.eq_false_iff.mp (h c hc)

theorem single_iff {piece out : List α} (hpiece : ∀ c ∈ piece, isSep c = false)
    (hout : ∀ c ∈ out, isSep c = false) : Piecewise isSep R piece out ↔ R piece out := by
  rw [Piecewise, filter_piece hpiece, filter_piece hout, List.splitOnP_eq_singleton hpiece,
    List.splitOnP_eq_singleton hout, List.forall₂_cons]
  exact ⟨fun h => h.2.1, fun h => ⟨rfl, h, .nil⟩⟩

theorem cons_iff {piece out rest r : List α} {c : α} (hpiece : ∀ c ∈ piece, isSep c = false)
    (hout : ∀ c ∈ out, isSep c = false) (hc : isSep c = true) :
    Piecewise isSep R (piece ++ c :: rest) (out ++ c :: r) ↔
      R piece out ∧ Piecewise isSep R rest r := by
  rw [Piecewise, Piecewise, List.filter_append, List.filter_append, filter_piece hpiece,
    filter_piece hout, List.nil_append, List.nil_append, List.filter_cons_of_pos hc,
    List.filter_cons_of_pos hc, List.splitOnP_append_cons_of_forall_mem hpiece c hc,
    List.splitOnP_append_cons_of_forall_mem hout c hc, List.forall₂_cons, List.cons.injEq]
  exact ⟨fun h => ⟨h.2.1, h.1.2, h.2.2⟩, fun h => ⟨⟨rfl, h.2.1⟩, h.1, h.2.2⟩⟩

end Piecewise

end Icq.Lib
