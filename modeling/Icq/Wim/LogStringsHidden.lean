import Icq.Wim.LogStrings

/-! A string is hidden, and nothing else, exactly when its closing quote does not look escaped. -/

namespace Icq.Wim
open Icq.Lib

namespace JsonCode

variable {k : JsonCode} {before ahead value : Bytes} {n : Nat}

theorem closes_of_stops (h : k.stops before ahead = true) : k.closes before ahead = true := by
  rw [stops, Bool.and_eq_true] at h
  have hrun : countRun k.first.reverse 0 before.reverse = 0 := by
    rw [countRun_eq_zero (List.reverse_ne_nil_iff.mpr k.first_ne), List.reverse_prefix,
      ← List.isSuffixOf_iff_suffix, Bool.not_eq_true, ← Bool.not_eq_true']
    exact h.2
  rw [closes, Bool.and_eq_true, hrun]
  exact ⟨h.1, rfl⟩

theorem stops_of_closes (h : k.closes before ahead = true) :
    k.stops before ahead = true ↔ ¬ k.first <:+ before := by
  rw [closes, Bool.and_eq_true] at h
  rw [stops, h.1, Bool.true_and, Bool.not_eq_true', ← Bool.not_eq_true, List.isSuffixOf_iff_suffix]

/-- In front of the closing quote the masking does not stop. -/
theorem masks_of_closed (h : k.closingQuote value = some n) :
    (¬ k.first <:+ value.take n → k.masks [] value = n) ∧
      (k.first <:+ value.take n → n < k.masks [] value) := by
  obtain ⟨hn, hclose, hbefore⟩ := firstPlace_eq_some.mp h
  have hnot {i : Nat} (hi : i < n) : k.stops ([] ++ value.take i) (value.drop i) = false := by
    rw [← Bool.not_eq_true]
    intro hs
    have := closes_of_stops hs
    rw [hbefore i hi] at this
    cases this
  constructor
  · intro hb
    have hstop := firstPlace_eq_some.mpr ⟨hn, (stops_of_closes hclose).mpr hb, fun i hi => hnot hi⟩
    rw [masks, hstop]
    rfl
  · intro hb
    have hstop : k.stops ([] ++ value.take n) (value.drop n) = false := by
      rw [← Bool.not_eq_true, stops_of_closes hclose]
      exact fun hne => hne hb
    rw [masks]
    cases hp : firstPlace k.stops [] value with
    | none =>
      rw [closes, Bool.and_eq_true, List.isPrefixOf_iff_prefix] at hclose
      have hlen := hclose.1.length_le
      have := List.length_pos_iff.mpr k.second_ne
      rw [List.length_drop] at hlen
      rw [Option.getD_none]
      omega
    | some i =>
      obtain ⟨-, hi, -⟩ := firstPlace_eq_some.mp hp
      rw [Option.getD_some]
      rcases Nat.lt_trichotomy i n with hlt | rfl | hlt
      · rw [hnot hlt] at hi
        cases hi
      · rw [hstop] at hi
        cases hi
      · exact hlt

theorem masks_of_open (h : k.closingQuote value = none) :
    k.masks [] value = value.length - (k.second.length - 1) := by
  rw [masks, firstPlace_eq_none.mpr fun i hi => ?_]
  · rfl
  · rw [← Bool.not_eq_true]
    intro hs
    have := closes_of_stops hs
    rw [firstPlace_eq_none.mp h i hi] at this
    cases this

/-- Every character of a value is masked, up to its closing quote or the end of the buffer. -/
def HidesValue (k : JsonCode) (s : LogScan) (t : Bytes) : Prop :=
  ∀ p < (k.closingQuote s.ahead).getD s.ahead.length,
    t[s.before.length + p]? = s.ahead[p]?.map maskChar

/-- What is in front of a value stays as it is, and from its closing quote on up to the next one. -/
def KeepsRest (k : JsonCode) (s : LogScan) (t : Bytes) : Prop :=
  ∀ p, (p < s.before.length ∨ ∃ n, k.closingQuote s.ahead = some n ∧ s.before.length + n ≤ p ∧
      p < s.before.length + n + k.second.length +
        (findText (s.ahead.drop (n + k.second.length)) k.second).getD s.ahead.length) →
    t[p]? = s.text[p]?

theorem getElem?_masked (before ahead : Bytes) (n p : Nat) :
    (before ++ ((ahead.take n).map maskChar ++ ahead.drop n))[before.length + p]? =
      if p < n then ahead[p]?.map maskChar else ahead[p]? := by
  rw [List.getElem?_append_right (Nat.le_add_right _ _), Nat.add_sub_cancel_left]
  by_cases hp : p < ahead.length
  · by_cases hn : p < n
    · rw [if_pos hn, List.getElem?_append_left (by simpa using ⟨hn, hp⟩), List.getElem?_map,
        List.getElem?_take_of_lt hn]
    · have hle := Nat.not_lt.mp hn
      have hmin : (List.map maskChar (ahead.take n)).length = n := by
        rw [List.length_map, List.length_take]
        omega
      rw [if_neg hn, List.getElem?_append_right (by omega), hmin, List.getElem?_drop,
        Nat.add_sub_cancel' hle]
  · have hnone : ahead[p]? = none := List.getElem?_eq_none (Nat.not_lt.mp hp)
    rw [hnone, Option.map_none, ite_self]
    refine List.getElem?_eq_none ?_
    simp only [List.length_append, List.length_map, List.length_take, List.length_drop]
    omega

/-- The turn at a value hides it and keeps the rest exactly when the value is redactable. -/
theorem hides_iff (s : LogScan) :
    (k.HidesValue s (s.before ++ ((s.ahead.take (k.masks [] s.ahead)).map maskChar ++
        s.ahead.drop (k.masks [] s.ahead))) ∧
      k.KeepsRest s (s.before ++ ((s.ahead.take (k.masks [] s.ahead)).map maskChar ++
        s.ahead.drop (k.masks [] s.ahead)))) ↔ k.Redactable s.ahead := by
  obtain ⟨before, ahead⟩ := s
  have hfront {n p : Nat} (hp : p < before.length) :
      (before ++ ((ahead.take n).map maskChar ++ ahead.drop n))[p]? = (before ++ ahead)[p]? := by
    rw [List.getElem?_append_left hp, List.getElem?_append_left hp]
  have hbehind (p : Nat) : (before ++ ahead)[before.length + p]? = ahead[p]? := by
    rw [List.getElem?_append_right (Nat.le_add_right _ _), Nat.add_sub_cancel_left]
  unfold HidesValue KeepsRest Redactable LogScan.text
  dsimp only
  cases hc : k.closingQuote ahead with
  | some n =>
    obtain ⟨hplain, hescaped⟩ := masks_of_closed hc
    constructor
    · rintro ⟨-, hkeep⟩ hb
      have hlt := hescaped hb
      obtain ⟨-, hclose, -⟩ := firstPlace_eq_some.mp hc
      rw [closes, Bool.and_eq_true, List.isPrefixOf_iff_prefix] at hclose
      obtain ⟨c, q, hq⟩ := List.exists_cons_of_ne_nil k.second_ne
      have hchar : ahead[n]? = some c := by
        obtain ⟨r, hr⟩ := hclose.1
        rw [← List.head?_drop, ← hr, hq]
        rfl
      have h := hkeep (before.length + n) (.inr ⟨n, rfl, Nat.le_refl _, ?_⟩)
      · rw [getElem?_masked, if_pos hlt, hbehind, hchar, Option.map_some, Option.some_inj] at h
        exact k.shown c (by rw [hq]; rfl) h
      · have := List.length_pos_iff.mpr k.second_ne
        omega
    · intro hb
      rw [hplain hb]
      refine ⟨fun p hp => ?_, fun p hp => ?_⟩
      · rw [getElem?_masked, if_pos (show p < n from hp)]
      · rcases hp with hp | ⟨n', hn', hle, -⟩
        · exact hfront hp
        · cases hn'
          obtain ⟨i, rfl⟩ := Nat.exists_eq_add_of_le (Nat.le_trans (Nat.le_add_right _ n) hle)
          rw [getElem?_masked, if_neg (by omega), hbehind]
  | none =>
    have hmask := masks_of_open hc
    have hle : k.masks [] ahead ≤ ahead.length := hmask ▸ Nat.sub_le _ _
    rw [and_iff_left fun p hp => ?_, ← hmask]
    · constructor
      · intro h c hcm
        obtain ⟨i, hi⟩ := List.getElem?_of_mem hcm
        rw [List.getElem?_drop] at hi
        obtain ⟨hlt, -⟩ := List.getElem?_eq_some_iff.mp hi
        have := h (k.masks [] ahead + i) hlt
        rw [getElem?_masked, if_neg (by omega), hi, Option.map_some, Option.some_inj] at this
        exact this.symm
      · intro h p hp
        rw [getElem?_masked]
        split
        · rfl
        · rename_i hge
          have hp : p < ahead.length := hp
          obtain ⟨i, rfl⟩ := Nat.exists_eq_add_of_le (Nat.not_lt.mp hge)
          rw [List.getElem?_eq_getElem hp, Option.map_some, h]
          refine List.mem_of_getElem? (i := i) ?_
          rw [List.getElem?_drop, List.getElem?_eq_getElem hp]
    · rcases hp with hp | ⟨n, hn, -⟩
      · exact hfront hp
      · cases hn

end JsonCode

namespace LogReplaceFunctor

variable {f : LogReplaceFunctor} {s : LogScan} {m : Marker} {k : JsonCode} {buffer t : Bytes}

theorem step_string (hf : f.findMarker s.ahead = some (m, some k.valueEnd)) (hm : m.evaluator = none) :
    let v := s.forward m.pattern.length
    f.step s = some ⟨v.before ++ (v.ahead.take (k.masks [] v.ahead)).map maskChar,
      v.ahead.drop (k.masks [] v.ahead)⟩ := by
  intro v
  have hvalue : maskValue k.valueEnd { braceCounter := if k.valueEnd.valueEnd = [bracketClose] then 1
      else 0 } v.ahead = maskValue k.valueEnd (inString 0) v.ahead := by
    rw [if_neg (show k.valueEnd.valueEnd ≠ [bracketClose] from k.noBracket)]
    rfl
  rw [step, hf]
  simp only [hm]
  rw [hvalue, maskValue_masks (.start _)]
  rfl

/-- At the marker of a string one turn masks its characters and nothing else, exactly when the value
is redactable; then the scan goes on at the closing quote. What is hidden is so in the log. -/
theorem strings_hidden (hr : f.Reaches buffer s)
    (hf : f.findMarker s.ahead = some (m, some k.valueEnd)) (hm : m.evaluator = none) :
    let v := s.forward m.pattern.length
    ∃ s', f.step s = some s' ∧
      (k.HidesValue v s'.text ∧ k.KeepsRest v s'.text ↔ k.Redactable v.ahead) ∧
      (k.Redactable v.ahead → ∀ n, k.closingQuote v.ahead = some n → s'.ahead = v.ahead.drop n) ∧
      (k.HidesValue v s'.text → ∀ t, f.apply buffer = some t → k.HidesValue v t) := by
  intro v
  have hs := step_string hf hm
  refine ⟨_, hs, ?_, fun hred n hn => ?_, fun hh t ht p hp => ?_⟩
  · rw [LogScan.text, List.append_assoc]
    exact JsonCode.hides_iff v
  · rw [JsonCode.Redactable, hn] at hred
    rw [← (JsonCode.masks_of_closed hn).1 hred]
  · obtain ⟨-, hlt⟩ := findMarker_stands hf
    have hpos := List.length_pos_iff.mpr m.nonempty
    have hr' := Run.step () hr (by omega) hs
    have hmask := masked_of_reaches hr' ht
    have hp' := hh p hp
    cases hc : v.ahead[p]? with
    | none =>
      rw [hc, Option.map_none, List.getElem?_eq_none_iff] at hp'
      rw [Option.map_none, List.getElem?_eq_none_iff, hmask.length_eq]
      exact hp'
    | some c =>
      rw [hc, Option.map_some] at hp'
      exact hmask.get_mask hp'

/-- The string `a\"b` is masked. -/
theorem strings_hidden_escapedQuote :
    let f := addJsonMarker {} (ascii ['t'])
    let pattern := quote :: (ascii ['t'] ++ [quote, 0x3a, quote])
    let buffer := pattern ++ [0x61, backslash, quote, 0x62, quote, 0x2c]
    ∃ t, f.apply buffer = some t ∧ plainCode.HidesValue ((LogScan.start buffer).forward pattern.length) t := by
  intro f pattern buffer
  have hf : f.findMarker buffer =
      some (⟨pattern, none, List.cons_ne_nil _ _⟩, some plainCode.valueEnd) := rfl
  obtain ⟨s', -, hiff, -, hlog⟩ := strings_hidden (f := f) (s := .start buffer) .start hf rfl
  have happly : f.apply buffer =
      some (pattern ++ ([0x2a, 0x2a, 0x2a, 0x2a, quote, 0x2c] : Bytes)) := by decide
  exact ⟨_, happly, hlog (hiff.mpr (by decide)).1 _ happly⟩

/-- The last characters of an encoded string that is cut off are not masked. -/
theorem cut_off_string_shown :
    ¬ ∀ (f : LogReplaceFunctor) (buffer : Bytes) (s : LogScan) (m : Marker) (k : JsonCode),
      f.Reaches buffer s → f.findMarker s.ahead = some (m, some k.valueEnd) → m.evaluator = none →
        ∃ s' t, f.step s = some s' ∧ f.apply buffer = some t ∧
          k.HidesValue (s.forward m.pattern.length) t ∧
          k.KeepsRest (s.forward m.pattern.length) s'.text := by
  intro h
  let pattern := escapeSymbols [quote] ++ ascii ['t'] ++ escapeSymbols [quote, 0x3a, quote]
  let buffer := pattern ++ ascii ['a', 'b']
  let m : Marker := ⟨pattern, none, by decide⟩
  have hf : findMarker (addJsonMarker {} (ascii ['t'])) buffer = some (m, some encodedCode.valueEnd) := rfl
  obtain ⟨s', t, -, ht, hh, -⟩ := h (addJsonMarker {} (ascii ['t'])) buffer (.start buffer) m encodedCode
    .start hf rfl
  have happly : apply (addJsonMarker {} (ascii ['t'])) buffer = some buffer := by decide
  rw [happly, Option.some_inj] at ht
  subst ht
  exact absurd (hh 0 (by decide)) (by decide)

end LogReplaceFunctor

end Icq.Wim
