import Icq.Wim.LogArraysHidden

/-! The arrays of strings in a log, over the whole loop. -/

namespace Icq.Wim
open Icq.Lib

section

variable {t t' : Bytes} {c : UInt8} {e : ValueEnd} {v : ValueScan}

theorem Masked.drop (h : Masked t t') (n : Nat) : Masked (t.drop n) (t'.drop n) := List.forall₂_drop n h

theorem Masked.getLast (h : Masked t t') (hc : t'.getLast? = some c) :
    ∃ c', t.getLast? = some c' ∧ (c = c' ∨ c = maskChar c') := by
  rw [List.getLast?_eq_getElem?, h.length_eq] at hc
  have hlt : t.length - 1 < t.length := by
    have := (List.getElem?_eq_some_iff.mp hc).1
    rw [h.length_eq] at this
    exact this
  refine ⟨t[t.length - 1], ?_, ?_⟩
  · rw [List.getLast?_eq_getElem?, List.getElem?_eq_getElem hlt]
  · have := h.get (List.getElem?_eq_getElem hlt)
    rwa [hc, Option.some_inj, Option.some_inj] at this

/-- Only an array reads behind the buffer, from a quote or a backslash at its end. -/
theorem maskValue_isSome (h : e.valueEnd = [bracketClose] → ∀ c ∈ t.getLast?, c ≠ quote ∧ c ≠ backslash) :
    maskValue e v t ≠ none := by
  induction hn : t.length using Nat.strong_induction_on generalizing v t with
  | _ n ih =>
    cases t with
    | nil => exact Option.some_ne_none _
    | cons c rest =>
      have hrest {v : ValueScan} : maskValue e v rest ≠ none := by
        refine ih rest.length (by rw [← hn]; exact Nat.lt_succ_self _) (fun he x hx => ?_) rfl
        refine h he x ?_
        rw [List.getLast?_cons, Option.mem_def.mp hx]
        rfl
      unfold maskValue
      split
      · exact Option.some_ne_none _
      dsimp only
      split
      · simpa using hrest
      rename_i hclose
      have h := h (not_not.mp hclose)
      split
      · rename_i hc
        cases rest with
        | nil => exact absurd hc (h c rfl).2
        | cons d rest => exact mark_isSome fun _ => hrest
      split
      · rename_i hc
        split
        · cases rest with
          | nil => exact absurd hc (h c rfl).1
          | cons d rest =>
            rw [Ne, Option.map_eq_none_iff]
            refine mark_isSome fun _ => ih rest.length ?_ (fun _ x hx => h x ?_) rfl
            · rw [← hn]
              simp only [List.length_cons]
              omega
            · rw [List.getLast?_cons_cons, List.getLast?_cons, Option.mem_def.mp hx]
              rfl
        · exact mark_isSome fun _ => hrest
      · exact mark_isSome fun _ => hrest

end

namespace LogReplaceFunctor

variable {f : LogReplaceFunctor} {s s' : LogScan} {m : Marker} {e : ValueEnd} {ahead buffer rest t : Bytes}

theorem findMarker_array (h : f.findMarker ahead = some (m, some e)) (he : e.valueEnd = [bracketClose]) :
    e = arrayEnd := by
  unfold findMarker at h
  dsimp only at h
  split at h
  · cases h
  split at h
  · cases h
    split at he
    · rename_i hb
      rw [if_pos hb]
    · exact absurd he (by decide)
  · obtain ⟨m', -, hm⟩ := Option.map_eq_some_iff.mp h
    cases hm
    split at he <;> exact absurd he (by decide)

/-- The turn at the marker of an array, by the text it leaves. -/
theorem step_array (hf : f.findMarker (m.pattern ++ rest) = some (m, some arrayEnd))
    (hm : m.evaluator = none) (before : Bytes) :
    (f.step ⟨before, m.pattern ++ rest⟩).map LogScan.text =
      (arrayText false false rest).map (before ++ m.pattern ++ ·) := by
  have hforward : (LogScan.mk before (m.pattern ++ rest)).forward m.pattern.length =
      ⟨before ++ m.pattern, rest⟩ := by
    simp [LogScan.forward]
  unfold step
  simp only [hf, hforward, hm]
  rw [if_pos (show arrayEnd.valueEnd = [bracketClose] from rfl), ← arrayText_first, valueText, Option.map_map, Option.map_map]
  congr 1
  funext p
  exact List.append_assoc _ _ _

theorem stringArray_masks (a : StringArray) : Masks false a.strings a.lastGap ↔ InStep false a.contents :=
  masks_iff a.gaps a.lastGaps a.between a.whole

/-- The turn at a marker of an array in step. -/
theorem step_inStep {a : StringArray} {post : Bytes}
    (hf : f.findMarker s.ahead = some (m, some arrayEnd)) (hm : m.evaluator = none)
    (hs : s.ahead = m.pattern ++ a.text ++ post) (h : InStep false a.contents) :
    ∃ s', f.step s = some s' ∧ Hides a.marks (s'.text.drop (s.before.length + m.pattern.length)) := by
  obtain ⟨before, ahead⟩ := s
  dsimp only at hf hs ⊢
  subst hs
  rw [List.append_assoc] at hf ⊢
  obtain ⟨t, ht, hh⟩ := (stringArray_masks a).mpr h post
  have he := step_array hf hm before
  rw [StringArray.text, StringArray.marks, ht] at he
  obtain ⟨s', hs', htext⟩ := Option.map_eq_some_iff.mp he
  refine ⟨s', hs', ?_⟩
  rw [htext, ← List.length_append, List.drop_left]
  exact hh

/-- Every turn stays in the buffer, except at an array that reaches its end. -/
theorem step_isSome (h : ∀ m, f.findMarker s.ahead = some (m, some arrayEnd) → m.evaluator = none →
    f.step s ≠ none) : f.step s ≠ none := by
  cases hf : f.findMarker s.ahead with
  | none =>
    rw [step, hf]
    exact Option.some_ne_none _
  | some found =>
    obtain ⟨m, valueEnd⟩ := found
    cases hm : m.evaluator with
    | some re =>
      rw [step, hf]
      simp [hm]
    | none =>
      cases valueEnd with
      | none =>
        rw [step, hf]
        simp [hm]
      | some e =>
        by_cases he : e.valueEnd = [bracketClose]
        · rw [findMarker_array hf he] at hf
          exact h m hf hm
        · rw [step, hf]
          simp only [hm, Ne, Option.map_eq_none_iff]
          exact maskValue_isSome fun hc => absurd hc he

theorem step_lastChar (hr : f.Reaches buffer s) (hf : f.findMarker s.ahead = some (m, some e))
    (hm : m.evaluator = none) (h : ∀ c ∈ buffer.getLast?, c ≠ quote ∧ c ≠ backslash) :
    f.step s ≠ none := by
  obtain ⟨⟨rest, hrest⟩, hlt⟩ := findMarker_stands hf
  have hne : rest ≠ [] := by
    rintro rfl
    rw [← hrest, List.append_nil] at hlt
    exact Nat.lt_irrefl _ hlt
  have hforward : (s.forward m.pattern.length).ahead = rest := by
    rw [LogScan.forward, ← hrest]
    exact List.drop_left
  rw [step, hf]
  simp only [hm, Ne, Option.map_eq_none_iff, hforward]
  refine maskValue_isSome fun _ c hc => ?_
  have hlast : s.text.getLast? = some c := by
    rw [LogScan.text, ← hrest, ← List.append_assoc, List.getLast?_append_of_ne_nil _ hne]
    exact hc
  obtain ⟨c', hc', he⟩ := (reaches_masked hr).getLast hlast
  have hplain := h c' hc'
  rcases he with rfl | rfl
  · exact hplain
  · unfold maskChar
    split
    · exact ⟨by decide, by decide⟩
    · exact hplain

/-- Whatever follows an array, its turn masks the strings exactly when they keep the scan in step.
A log hides every such array; it uses no place behind the buffer when all arrays are such, or when
the buffer ends in neither a quote nor a backslash. -/
theorem arrays_hidden {f : LogReplaceFunctor} :
    (∀ {before : Bytes} {m : Marker} {a : StringArray},
      (∀ post, f.findMarker (m.pattern ++ a.text ++ post) = some (m, some arrayEnd)) →
        m.evaluator = none →
          ((∀ post, ∃ s', f.step ⟨before, m.pattern ++ a.text ++ post⟩ = some s' ∧
            Hides a.marks (s'.text.drop (before.length + m.pattern.length))) ↔ InStep false a.contents)) ∧
    ∀ {buffer : Bytes},
      (∀ s m, f.Reaches buffer s → f.findMarker s.ahead = some (m, some arrayEnd) → m.evaluator = none →
        (∃ (a : StringArray) (post : Bytes),
          s.ahead = m.pattern ++ a.text ++ post ∧ InStep false a.contents) ∨
        ∀ c ∈ buffer.getLast?, c ≠ quote ∧ c ≠ backslash) →
      ∃ t, f.apply buffer = some t ∧ ∀ {s : LogScan} {m : Marker} {a : StringArray} {post : Bytes},
        f.Reaches buffer s → f.findMarker s.ahead = some (m, some arrayEnd) → m.evaluator = none →
          s.ahead = m.pattern ++ a.text ++ post → InStep false a.contents →
            Hides a.marks (t.drop (s.before.length + m.pattern.length)) := by
  constructor
  · intro before m a hf hm
    rw [← stringArray_masks]
    refine forall_congr' fun post => ?_
    have hf := hf post
    rw [List.append_assoc] at hf ⊢
    have he := step_array hf hm before
    constructor
    · rintro ⟨s', hs', hh⟩
      rw [hs'] at he
      obtain ⟨t, ht, htext⟩ := Option.map_eq_some_iff.mp he.symm
      refine ⟨t, ht, ?_⟩
      rwa [← htext, ← List.length_append, List.drop_left] at hh
    · rintro ⟨t, ht, hh⟩
      rw [StringArray.text, StringArray.marks, ht] at he
      obtain ⟨s', hs', htext⟩ := Option.map_eq_some_iff.mp he
      refine ⟨s', hs', ?_⟩
      rwa [htext, ← List.length_append, List.drop_left]
  · intro buffer h
    have hstays (s : LogScan) (hr : f.Reaches buffer s) (_ : 2 ≤ s.ahead.length) : f.step s ≠ none := by
      refine step_isSome fun m hf hm => ?_
      rcases h s m hr hf hm with ⟨a, post, hs, hin⟩ | hlast
      · obtain ⟨s', hs', -⟩ := step_inStep hf hm hs hin
        rw [hs']
        exact Option.some_ne_none _
      · exact step_lastChar hr hf hm hlast
    obtain ⟨t, ht⟩ := apply_isSome hstays
    refine ⟨t, ht, fun {s m a post} hr hf hm hs hin => ?_⟩
    obtain ⟨s', hs', hh⟩ := step_inStep hf hm hs hin
    obtain ⟨-, hlt⟩ := findMarker_stands hf
    have hpos := List.length_pos_iff.mpr m.nonempty
    have hr' : f.Reaches buffer s' := .step () hr (by omega) hs'
    exact hh.masked ((masked_of_reaches hr' ht).drop _)

/-- The first marker is found where it stands. -/
theorem findMarker_first {ms : List Marker} (hf : f.markers = []) (hj : f.markersJson = m :: ms)
    (hm : m.pattern.getLast? = some bracketOpen) (a : StringArray) (post : Bytes) :
    f.findMarker (m.pattern ++ a.text ++ post) = some (m, some arrayEnd) := by
  have hpos : 0 < a.text.length := by
    simp [StringArray.text, StringArray.marks, arrayMarks]
  have hstands : (decide (m.pattern.length < (m.pattern ++ a.text ++ post).length) &&
      m.pattern.isPrefixOf (m.pattern ++ a.text ++ post)) = true := by
    rw [Bool.and_eq_true, decide_eq_true_eq, List.isPrefixOf_iff_prefix, List.append_assoc]
    simp only [List.length_append]
    exact ⟨by omega, List.prefix_append _ _⟩
  simp only [findMarker, hf, hj, List.find?_nil, List.find?_cons, hstands, hm, if_true]

/-- The array of the strings `a\"` and `]b`. -/
def escapedQuote : StringArray :=
  { strings := [([], [0x61, backslash, quote]), ([0x2c], [bracketClose, 0x62])]
    gaps := by simp [isGap, quote, backslash, bracketOpen, bracketClose]
    lastGaps := by simp
    between := by decide
    whole := by decide }

/-- Its strings are masked. -/
theorem arrays_hidden_escapedQuote :
    let f := addJsonArrayMarker {} (ascii ['s'])
    let pattern := quote :: (ascii ['s'] ++ [quote, 0x3a, bracketOpen])
    let a := escapedQuote
    (∀ post, ∃ s', f.step ⟨[], pattern ++ a.text ++ post⟩ = some s' ∧
      Hides a.marks (s'.text.drop pattern.length)) ∧
    ∃ t, f.apply (pattern ++ a.text) = some t ∧ Hides a.marks (t.drop pattern.length) := by
  intro f pattern a
  have hf := findMarker_first (f := f) (m := ⟨pattern, none, List.cons_ne_nil _ _⟩) rfl rfl rfl a
  constructor
  · exact (arrays_hidden.1 hf rfl).mpr (by decide)
  · obtain ⟨t, ht, hh⟩ := @(@arrays_hidden f).2 (pattern ++ a.text) fun _ _ _ _ _ => .inr fun c hc => by
      cases hc
      decide
    have hstart := hf []
    rw [List.append_nil] at hstart
    exact ⟨t, ht, hh .start hstart rfl (List.append_nil _).symm (by decide)⟩

/-- After an empty string the next one is not masked. -/
theorem string_behind_empty_shown :
    ¬ ∀ (f : LogReplaceFunctor) (buffer : Bytes) (s : LogScan) (m : Marker) (a : StringArray)
      (post : Bytes), f.Reaches buffer s → f.findMarker s.ahead = some (m, some arrayEnd) →
        m.evaluator = none → s.ahead = m.pattern ++ a.text ++ post →
          ∃ t, f.apply buffer = some t ∧ Hides a.marks (t.drop (s.before.length + m.pattern.length)) := by
  intro h
  let pattern := quote :: (ascii ['s'] ++ [quote, 0x3a, bracketOpen])
  let a : StringArray :=
    { strings := [([], []), ([0x2c], [0x61, 0x62])]
      gaps := by simp [isGap, quote, backslash, bracketOpen, bracketClose]
      lastGaps := by simp
      between := by decide
      whole := by decide }
  let m : Marker := ⟨pattern, none, List.cons_ne_nil _ _⟩
  have hf := findMarker_first (f := addJsonArrayMarker {} (ascii ['s'])) (m := m) rfl rfl rfl a []
  rw [List.append_nil] at hf
  obtain ⟨t, ht, hh⟩ := h _ (pattern ++ a.text) _ m a [] .start hf rfl (List.append_nil _).symm
  have he : apply (addJsonArrayMarker {} (ascii ['s'])) (pattern ++ a.text) =
      some (pattern ++ ([quote, 0x2a, 0x2a, quote, 0x61, 0x62, quote, 0x2a] : Bytes)) := by
    decide +kernel
  rw [he, Option.some_inj] at ht
  subst ht
  exact absurd hh (by decide)

end LogReplaceFunctor

end Icq.Wim
