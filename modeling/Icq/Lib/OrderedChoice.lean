import Mathlib.Data.List.Infix
import Mathlib.Data.List.Sections

/-! Attempts in order, of which the first that succeeds counts, and texts put together of
alternatives that are chosen so, one behind another. -/

namespace Icq.Lib

section Attempts

variable {ε α β : Type} {f : α → Except ε (Option β)} {a : α} {l : List α} {o : Option β}

def Succeeds (f : α → Except ε (Option β)) (a : α) : Prop := ∃ b, f a = .ok (some b)

def Throws (f : α → Except ε (Option β)) (a : α) : Prop := ∃ e, f a = .error e

/-- Some attempt succeeds in front of each one that throws. -/
def Guarded (f : α → Except ε (Option β)) (l : List α) : Prop :=
  ∀ before a after, l = before ++ a :: after → Throws f a → ∃ x ∈ before, Succeeds f x

theorem guarded_cons : Guarded f (a :: l) ↔ ¬ Throws f a ∧ (Succeeds f a ∨ Guarded f l) := by
  constructor
  · intro h
    refine ⟨fun hthrows => ?_, ?_⟩
    · obtain ⟨x, hx, -⟩ := h [] a l rfl hthrows
      cases hx
    by_cases ha : Succeeds f a
    · exact .inl ha
    refine .inr fun before x after he hthrows => ?_
    obtain ⟨y, hy, hsucceeds⟩ := h (a :: before) x after (by rw [he, List.cons_append]) hthrows
    rcases List.mem_cons.mp hy with rfl | hy
    · exact absurd hsucceeds ha
    · exact ⟨y, hy, hsucceeds⟩
  · rintro ⟨hthrows, h⟩ before x after he hx
    cases before with
    | nil =>
      cases he
      exact absurd hx hthrows
    | cons y before =>
      obtain ⟨rfl, rfl⟩ := List.cons.inj he
      rcases h with ha | h
      · exact ⟨a, List.mem_cons_self, ha⟩
      · obtain ⟨x, hx, hsucceeds⟩ := h before x after rfl hx
        exact ⟨x, List.mem_cons_of_mem _ hx, hsucceeds⟩

theorem findSomeM?_append {l' : List α} : (l ++ l').findSomeM? f = (do
    match ← l.findSomeM? f with
    | some b => return some b
    | none => l'.findSomeM? f) := by
  induction l with
  | nil => rfl
  | cons a l ih =>
    rw [List.cons_append, List.findSomeM?_cons, List.findSomeM?_cons, ih]
    cases hfa : f a with
    | error e => rfl
    | ok o => cases o <;> rfl

theorem findSomeM?_returns : (∃ o, l.findSomeM? f = .ok o) ↔ Guarded f l := by
  induction l with
  | nil =>
    refine iff_of_true ⟨none, rfl⟩ fun before a after he => ?_
    exact absurd he (by simp)
  | cons a l ih =>
    rw [guarded_cons, List.findSomeM?_cons]
    cases hfa : f a with
    | error e =>
      refine iff_of_false ?_ fun h => h.1 ⟨e, hfa⟩
      rintro ⟨o, ho⟩
      cases ho
    | ok o =>
      have hthrows : ¬ Throws f a := by
        rintro ⟨e, he⟩
        rw [hfa] at he
        cases he
      cases o with
      | some b => exact iff_of_true ⟨some b, rfl⟩ ⟨hthrows, .inl ⟨b, hfa⟩⟩
      | none =>
        have hsucceeds : ¬ Succeeds f a := by
          rintro ⟨b, hb⟩
          rw [hfa] at hb
          cases hb
        refine ih.trans ⟨fun h => ⟨hthrows, .inr h⟩, fun h => h.2.resolve_left hsucceeds⟩

theorem findSomeM?_cases (h : l.findSomeM? f = .ok o) :
    (∃ b, o = some b ∧ ∃ a ∈ l, f a = .ok (some b)) ∨ o = none ∧ ∀ a ∈ l, f a = .ok none := by
  induction l with
  | nil =>
    cases h
    exact .inr ⟨rfl, fun a ha => nomatch ha⟩
  | cons a l ih =>
    rw [List.findSomeM?_cons] at h
    cases hfa : f a with
    | error e =>
      rw [hfa] at h
      cases h
    | ok r =>
      rw [hfa] at h
      cases r with
      | some b =>
        cases h
        exact .inl ⟨b, rfl, a, List.mem_cons_self, hfa⟩
      | none =>
        rcases ih h with ⟨b, hb, x, hx, hfx⟩ | ⟨hnone, hall⟩
        · exact .inl ⟨b, hb, x, List.mem_cons_of_mem _ hx, hfx⟩
        · exact .inr ⟨hnone, List.forall_mem_cons.mpr ⟨hfa, hall⟩⟩

end Attempts

section Choices

variable {α : Type}

/-- From a place on, each text is the first of its alternatives that stands where the one before
ends. -/
inductive Chosen [DecidableEq α] (look : Nat → Option (List α)) :
    List (List (List α)) → Nat → List (List α) → Prop
  | nil (pos : Nat) : Chosen look [] pos []
  | cons {alternatives rest pos text t ts} (hlook : look pos = some text)
      (hfind : alternatives.find? (·.isPrefixOf text) = some t)
      (hrest : Chosen look rest (pos + t.length) ts) :
      Chosen look (alternatives :: rest) pos (t :: ts)

/-- The texts go on to a position whose alternatives are looked for where nothing can be. -/
inductive Strays [DecidableEq α] (look : Nat → Option (List α)) : List (List (List α)) → Nat → Prop
  | here {alternatives rest pos} (hlook : look pos = none) (hne : alternatives ≠ []) :
      Strays look (alternatives :: rest) pos
  | later {alternatives rest pos text t} (hlook : look pos = some text)
      (hfind : alternatives.find? (·.isPrefixOf text) = some t)
      (hrest : Strays look rest (pos + t.length)) : Strays look (alternatives :: rest) pos

section

variable {text t u : List α} {pos : Nat}

theorem infix_iff_prefix_drop : t <:+: text ↔ ∃ pos, t <+: text.drop pos := by
  rw [List.infix_iff_prefix_suffix]
  constructor
  · rintro ⟨rest, hprefix, hsuffix⟩
    exact ⟨_, List.suffix_iff_eq_drop.mp hsuffix ▸ hprefix⟩
  · rintro ⟨pos, h⟩
    exact ⟨_, h, List.drop_suffix pos text⟩

theorem append_prefix_drop :
    t ++ u <+: text.drop pos ↔ t <+: text.drop pos ∧ u <+: text.drop (pos + t.length) := by
  constructor
  · rintro ⟨v, hv⟩
    rw [List.append_assoc] at hv
    refine ⟨⟨_, hv⟩, v, ?_⟩
    rw [← List.drop_drop, ← hv, List.drop_left]
  · rintro ⟨⟨v, hv⟩, w, hw⟩
    rw [← List.drop_drop, ← hv, List.drop_left] at hw
    exact ⟨w, by rw [← hv, ← hw, List.append_assoc]⟩

end

variable [DecidableEq α] {look : Nat → Option (List α)} {text : List α} {pos : Nat}
  {rest : List (List (List α))} {ts : List (List α)}

theorem prefix_of_find? {alternatives : List (List α)} {t : List α}
    (h : alternatives.find? (·.isPrefixOf text) = some t) : t <+: text := by
  have ht := List.find?_some h
  exact List.isPrefixOf_iff_prefix.mp ht

theorem Chosen.sections (h : Chosen look rest pos ts) : ts ∈ rest.sections := by
  rw [List.mem_sections]
  induction h with
  | nil pos => exact .nil
  | cons hlook hfind hrest ih => exact .cons (List.mem_of_find?_eq_some hfind) ih

/-- Where every place can be looked at, the texts stand one behind another. -/
theorem Chosen.flatten_prefix (hlook : ∀ n ≤ text.length, look n = some (text.drop n))
    (hpos : pos ≤ text.length) (h : Chosen look rest pos ts) : ts.flatten <+: text.drop pos := by
  induction h with
  | nil pos => exact List.nil_prefix
  | @cons alternatives rest pos at' t ts hat hfind hrest ih =>
    rw [hlook pos hpos] at hat
    cases hat
    have ht : t <+: text.drop pos := prefix_of_find? hfind
    have hle := ht.length_le
    rw [List.length_drop] at hle
    exact append_prefix_drop.mpr ⟨ht, ih (by omega)⟩

theorem not_strays (hlook : ∀ n ≤ text.length, look n = some (text.drop n))
    (hpos : pos ≤ text.length) : ¬ Strays look rest pos := by
  intro h
  induction h with
  | @here alternatives rest pos hat hne =>
    rw [hlook pos hpos] at hat
    cases hat
  | @later alternatives rest pos at' t hat hfind hrest ih =>
    rw [hlook pos hpos] at hat
    cases hat
    have hle := (prefix_of_find? hfind).length_le
    rw [List.length_drop] at hle
    exact ih (by omega)

/-- No alternative is the beginning of another one. -/
def PrefixFree (alternatives : List (List α)) : Prop :=
  ∀ s ∈ alternatives, ∀ t ∈ alternatives, s <+: t → s = t

/-- Alternatives that are apart leave no choice: whatever stands there is found. -/
theorem Chosen.of_prefixFree (hlook : ∀ n ≤ text.length, look n = some (text.drop n))
    (hpos : pos ≤ text.length) (hfree : ∀ alternatives ∈ rest, PrefixFree alternatives)
    (hmem : ts ∈ rest.sections) (hat : ts.flatten <+: text.drop pos) : Chosen look rest pos ts := by
  rw [List.mem_sections] at hmem
  induction hmem generalizing pos with
  | nil => exact .nil pos
  | @cons t alternatives ts rest ht hrest ih =>
    obtain ⟨hhead, htail⟩ := append_prefix_drop.mp hat
    obtain ⟨hhere, hfree⟩ := List.forall_mem_cons.mp hfree
    have hle := hhead.length_le
    rw [List.length_drop] at hle
    have hfind : alternatives.find? (·.isPrefixOf (text.drop pos)) = some t := by
      have hsome : (alternatives.find? (·.isPrefixOf (text.drop pos))).isSome = true :=
        List.find?_isSome.mpr ⟨t, ht, List.isPrefixOf_iff_prefix.mpr hhead⟩
      obtain ⟨s, hs⟩ := Option.isSome_iff_exists.mp hsome
      have hprefix : s <+: text.drop pos := prefix_of_find? hs
      have hmem := List.mem_of_find?_eq_some hs
      rcases List.prefix_or_prefix_of_prefix hprefix hhead with h | h
      · rwa [hhere s hmem t ht h] at hs
      · rwa [← hhere t ht s hmem h] at hs
    exact .cons (hlook pos hpos) hfind (ih (by omega) hfree htail)

end Choices

end Icq.Lib
