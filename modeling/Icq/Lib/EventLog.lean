import Mathlib.Data.List.Basic

/-! Logs of events in the order they happened: what is opened, closed, or ends while open. -/

namespace Icq.Lib

variable {ε : Type} {log more : List ε} {opening : ε} {closes ends : ε → Prop}

/-- It happened, and nothing has closed it since. -/
def OpenIn (log : List ε) (opening : ε) (closes : ε → Prop) : Prop :=
  ∃ before after, log = before ++ opening :: after ∧ ∀ e ∈ after, ¬ closes e

/-- It happened, and an end came before anything closed it. -/
def EndedIn (log : List ε) (opening : ε) (closes ends : ε → Prop) : Prop :=
  ∃ before between x after, log = before ++ opening :: (between ++ x :: after) ∧
    (∀ e ∈ between, ¬ closes e) ∧ ends x

/-- As often as it happened, it was closed before an end. -/
def ClosedIn (log : List ε) (opening : ε) (closes ends : ε → Prop) : Prop :=
  ∀ before after, log = before ++ opening :: after →
    ∃ between x rest, after = between ++ x :: rest ∧ closes x ∧ ∀ e ∈ between, ¬ ends e

theorem openIn_last : OpenIn (log ++ [opening]) opening closes :=
  ⟨log, [], rfl, fun _ h => by cases h⟩

theorem OpenIn.append (h : OpenIn log opening closes) (hmore : ∀ e ∈ more, ¬ closes e) :
    OpenIn (log ++ more) opening closes := by
  obtain ⟨before, after, rfl, hafter⟩ := h
  refine ⟨before, after ++ more, by simp, ?_⟩
  intro e he
  rcases List.mem_append.mp he with he | he
  · exact hafter e he
  · exact hmore e he

theorem closedIn_of_notMem (h : opening ∉ log) : ClosedIn log opening closes ends := by
  intro before after hlog
  exact absurd (hlog ▸ by simp) h

/-- It happened once, at the start of the log. -/
theorem closedIn_cons {between rest : List ε} {x : ε} (hcloses : closes x)
    (hbetween : ∀ e ∈ between, ¬ ends e) (honce : opening ∉ between ++ x :: rest) :
    ClosedIn (opening :: (between ++ x :: rest)) opening closes ends := by
  intro before after hlog
  cases before with
  | nil =>
    rw [List.nil_append, List.cons.injEq] at hlog
    exact ⟨between, x, rest, hlog.2.symm, hcloses, hbetween⟩
  | cons y before =>
    rw [List.cons_append, List.cons.injEq] at hlog
    rw [hlog.2] at honce
    simp at honce

/-- What is open ends with the next end. -/
theorem OpenIn.ended (h : OpenIn log opening closes) (hmore : ∀ e ∈ more, ¬ closes e) {x : ε}
    (hx : x ∈ more) (hends : ends x) : EndedIn (log ++ more) opening closes ends := by
  obtain ⟨before, after, rfl, hafter⟩ := h
  obtain ⟨front, back, rfl⟩ := List.append_of_mem hx
  refine ⟨before, after ++ front, x, back, by simp, ?_, hends⟩
  intro e he
  rcases List.mem_append.mp he with he | he
  · exact hafter e he
  · exact hmore e (List.mem_append_left _ he)

theorem EndedIn.append (h : EndedIn log opening closes ends) (more : List ε) :
    EndedIn (log ++ more) opening closes ends := by
  obtain ⟨before, between, x, after, rfl, hbetween, hends⟩ := h
  exact ⟨before, between, x, after ++ more, by simp, hbetween, hends⟩

theorem ClosedIn.not_endedIn (h : ClosedIn log opening closes ends)
    (hdisjoint : ∀ e, closes e → ¬ ends e) : ¬ EndedIn log opening closes ends := by
  intro ⟨before, between, x, after, hlog, hbetween, hends⟩
  obtain ⟨between', y, rest, hafter, hcloses, hbetween'⟩ := h before _ hlog
  rcases List.append_eq_append_iff.mp hafter with ⟨front, hfront, hrest⟩ | ⟨front, hfront, hrest⟩
  · cases front with
    | nil =>
      rw [List.nil_append, List.cons.injEq] at hrest
      exact hdisjoint y hcloses (hrest.1 ▸ hends)
    | cons z front =>
      rw [List.cons_append, List.cons.injEq] at hrest
      apply hbetween' x _ hends
      rw [hfront, hrest.1]
      simp
  · cases front with
    | nil =>
      rw [List.nil_append, List.cons.injEq] at hrest
      exact hdisjoint y hcloses (hrest.1 ▸ hends)
    | cons z front =>
      rw [List.cons_append, List.cons.injEq] at hrest
      apply hbetween y _ hcloses
      rw [hfront, hrest.1]
      simp

theorem of_mem_concat {e x : ε} (h : e ∈ log ++ [x]) (hne : e ≠ x) : e ∈ log :=
  (List.mem_append.mp h).resolve_right fun hmem => hne (List.mem_singleton.mp hmem)

/-- Each event is backed by what happened before it. -/
def Justified (legit : List ε → ε → Prop) (log : List ε) : Prop :=
  ∀ before e after, log = before ++ e :: after → legit before e

section Justified

variable {legit : List ε → ε → Prop}

theorem Justified.nil : Justified legit ([] : List ε) := by
  intro before e after h
  exact absurd h.symm (List.append_ne_nil_of_right_ne_nil _ (List.cons_ne_nil _ _))

/-- An event of a longer log is one of the old events or one of the new ones. -/
theorem append_eq_split {before after : List ε} {e : ε} (h : log ++ more = before ++ e :: after) :
    (∃ rest, log = before ++ e :: rest ∧ after = rest ++ more) ∨
      ∃ front, before = log ++ front ∧ more = front ++ e :: after := by
  rcases List.append_eq_append_iff.mp h with ⟨front, hbefore, hmore⟩ | ⟨front, hlog, hrest⟩
  · exact .inr ⟨front, hbefore, hmore⟩
  · cases front with
    | nil =>
      rw [List.append_nil] at hlog
      exact .inr ⟨[], by rw [hlog, List.append_nil], hrest.symm⟩
    | cons x front =>
      rw [List.cons_append, List.cons.injEq] at hrest
      exact .inl ⟨front, by rw [hlog, hrest.1], hrest.2⟩

theorem Justified.append (h : Justified legit log)
    (hmore : ∀ front e back, more = front ++ e :: back → legit (log ++ front) e) :
    Justified legit (log ++ more) := by
  intro before e after heq
  rcases append_eq_split heq with ⟨rest, hlog, -⟩ | ⟨front, rfl, hfront⟩
  · exact h before e rest hlog
  · exact hmore front e after hfront

theorem Justified.concat (h : Justified legit log) {e : ε} (he : legit log e) :
    Justified legit (log ++ [e]) := by
  apply h.append
  intro front e' back heq
  rcases List.singleton_eq_append_iff.mp heq with ⟨rfl, heq⟩ | ⟨-, heq⟩
  · obtain ⟨rfl, -⟩ := List.cons.inj heq
    rwa [List.append_nil]
  · cases heq

end Justified

end Icq.Lib
