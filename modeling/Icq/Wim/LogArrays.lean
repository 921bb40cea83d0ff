import Icq.Wim.LogMasking

/-! Which arrays of strings the log hides. -/

namespace Icq.Wim
open Icq.Lib

/-- What may stand between the strings of an array: spaces and commas, objects and numbers too, but
no further array. -/
def isGap (c : UInt8) : Bool := !([quote, backslash, bracketOpen, bracketClose].contains c)

/-- What stands between the quotes of a json string: no quote but an escaped one. -/
def isJsonContent : Bytes → Bool
  | [] => true
  | c :: content =>
    if c = backslash then
      match content with
      | [] => false
      | _ :: content => isJsonContent content
    else decide (c ≠ quote) && isJsonContent content

/-- The characters of a string and what is in front of it; those between its quotes are private. -/
def stringMarks (s : Bytes × Bytes) : List (UInt8 × Bool) :=
  s.1.map (·, false) ++ (quote, false) :: (s.2.map (·, true) ++ [(quote, false)])

def arrayMarks (strings : List (Bytes × Bytes)) (lastGap : Bytes) : List (UInt8 × Bool) :=
  strings.flatMap stringMarks ++ (lastGap.map (·, false) ++ [(bracketClose, false)])

/-- What stands behind the opening bracket of an array of strings, the closing one included. -/
structure StringArray where
  /-- What is in front of each string, and what is between its quotes. -/
  strings : List (Bytes × Bytes)
  lastGap : Bytes := []
  gaps : ∀ s ∈ strings, ∀ c ∈ s.1, isGap c = true
  lastGaps : ∀ c ∈ lastGap, isGap c = true
  between : ∀ s ∈ strings.tail, s.1 ≠ []
  whole : ∀ s ∈ strings, isJsonContent s.2 = true

namespace StringArray

def marks (a : StringArray) : List (UInt8 × Bool) := arrayMarks a.strings a.lastGap

def text (a : StringArray) : Bytes := a.marks.map Prod.fst

def contents (a : StringArray) : List Bytes := a.strings.map Prod.snd

end StringArray

/-- A text that begins with these characters hides the private ones. -/
def Hides : List (UInt8 × Bool) → Bytes → Prop
  | [], _ => True
  | _ :: _, [] => False
  | (c, secret) :: marks, c' :: t => (secret = true → c' = maskChar c) ∧ Hides marks t

instance Hides.decidable : (marks : List (UInt8 × Bool)) → (t : Bytes) → Decidable (Hides marks t)
  | [], _ => inferInstanceAs (Decidable True)
  | _ :: _, [] => inferInstanceAs (Decidable False)
  | (_, _) :: marks, _ :: t =>
    have := Hides.decidable marks t
    inferInstanceAs (Decidable (_ ∧ _))

/-- A string whose characters the scan masks, in step with the quotes or out of step. In step it
takes a quote at the second place for the end of the string. Out of step it takes the string for
what is between two strings, so that nothing is masked. -/
def Passes : Bool → Bytes → Prop
  | false, content => ¬ [backslash, quote] <+: content
  | true, content => ∀ c ∈ content, maskChar c = c

/-- Whether the scan is out of step behind a string: an empty one changes this, and so does a
backslash that ends a string. -/
def outAfter : Bool → Bytes → Bool
  | false, content => decide (content = [] ∨ content.getLast? = some backslash)
  | true, content => decide (content ≠ [])

/-- The scan masks the strings and is in step at the end. -/
def InStep : Bool → List Bytes → Prop
  | out, [] => out = false
  | out, content :: contents => Passes out content ∧ InStep (outAfter out content) contents

instance Passes.decidable : (out : Bool) → (content : Bytes) → Decidable (Passes out content)
  | false, _ => inferInstanceAs (Decidable (¬ _))
  | true, content => inferInstanceAs (Decidable (∀ c ∈ content, maskChar c = c))

instance InStep.decidable : (out : Bool) → (contents : List Bytes) → Decidable (InStep out contents)
  | out, [] => inferInstanceAs (Decidable (out = false))
  | out, content :: contents =>
    have := InStep.decidable (outAfter out content) contents
    inferInstanceAs (Decidable (_ ∧ _))

section

variable {marks marks' : List (UInt8 × Bool)} {t t' : Bytes}

theorem hides_append (h : t.length = marks.length) :
    Hides (marks ++ marks') (t ++ t') ↔ Hides marks t ∧ Hides marks' t' := by
  induction marks generalizing t with
  | nil =>
    rw [List.length_nil, List.length_eq_zero_iff] at h
    subst h
    simp [Hides]
  | cons m marks ih =>
    cases t with
    | nil => cases h
    | cons c t =>
      simp only [List.cons_append, Hides, ih (Nat.succ.inj h), and_assoc]

theorem Hides.masked (h : Hides marks t) (hm : Masked t t') : Hides marks t' := by
  induction marks generalizing t t' with
  | nil => trivial
  | cons m marks ih =>
    cases hm with
    | nil => exact h
    | cons hc hm =>
      refine ⟨fun hsecret => ?_, ih h.2 hm⟩
      have := h.1 hsecret
      rcases hc with rfl | rfl
      · exact this
      · rw [this, maskChar_maskChar]

theorem hides_open {u : Bytes} (h : u.length = t.length) : Hides (t.map (·, false)) u := by
  induction t generalizing u with
  | nil => trivial
  | cons c t ih =>
    cases u with
    | nil => cases h
    | cons c' u => exact ⟨fun h => absurd h (by decide), ih (Nat.succ.inj h)⟩

theorem hides_map (t : Bytes) (secret : Bool) : Hides (t.map (·, secret)) (t.map maskChar) := by
  induction t with
  | nil => trivial
  | cons c t ih => exact ⟨fun _ => rfl, ih⟩

end

/-- The flags in an array of strings, behind the first turn. -/
def inArray (inQuotes ignoreNextQuote : Bool) : ValueScan :=
  { skipValueEnd := true, countToSkip := -1, braceCounter := 1, ignoreNextQuote, inQuotes }

def arrayText (inQuotes ignoreNextQuote : Bool) (t : Bytes) : Option Bytes :=
  valueText (maskValue arrayEnd (inArray inQuotes ignoreNextQuote) t)

/-- The turn behind a quote looks at the next character for brackets only. -/
def markText (inQuotes ignoreNextQuote : Bool) (c : UInt8) (rest : Bytes) : Option Bytes :=
  valueText ((inArray inQuotes ignoreNextQuote).mark c rest fun v => maskValue arrayEnd v rest)

section

variable {inQuotes ignore : Bool} {c d : UInt8} {rest t : Bytes}

theorem arrayText_cons (c : UInt8) (rest : Bytes) : arrayText inQuotes ignore (c :: rest) =
    if c = backslash then
      match rest with
      | [] => none
      | d :: rest => markText inQuotes (ignore || decide (d = quote)) c (d :: rest)
    else if c = quote then
      if ignore then markText inQuotes false c rest
      else match rest with
        | [] => none
        | d :: rest => (markText (!inQuotes) false d rest).map (c :: ·)
    else markText inQuotes ignore c rest := by
  have hexclude : (inArray inQuotes ignore).exclude arrayEnd (c :: rest) = inArray inQuotes ignore := by
    simp [ValueScan.exclude, inArray, arrayEnd]
  unfold arrayText
  rw [maskValue, if_neg (by simp [inArray, arrayEnd]), hexclude, if_neg (by simp [arrayEnd])]
  split
  · cases rest <;> rfl
  · split
    · cases ignore with
      | true => rfl
      | false =>
        cases rest with
        | nil => rfl
        | cons d rest => exact valueText_cons _
    · rfl

theorem markText_in : markText true ignore c rest = (arrayText true ignore rest).map (maskChar c :: ·) :=
  valueText_cons _

theorem markText_out (ho : c ≠ bracketOpen) (hc : c ≠ bracketClose) :
    markText false ignore c rest = (arrayText false ignore rest).map (c :: ·) := by
  simp only [markText, arrayText, ValueScan.mark, inArray, ho, hc, Bool.not_false, if_true, if_false]
  exact valueText_cons _

theorem markText_close : markText false ignore bracketClose rest = some (bracketClose :: rest) := rfl

theorem markText_head (h : markText false ignore c rest = some t) : t.head? = some c := mark_head rfl h

theorem arrayText_quote_head (h : arrayText inQuotes false (quote :: rest) = some t) :
    t.head? = some quote := by
  rw [arrayText_cons, if_neg (by decide), if_pos rfl] at h
  cases rest with
  | nil => cases h
  | cons d rest =>
    obtain ⟨u, -, rfl⟩ := Option.map_eq_some_iff.mp h
    rfl

theorem arrayText_head (h : arrayText false ignore (c :: rest) = some t) : t.head? = some c := by
  rw [arrayText_cons] at h
  split at h
  · cases rest with
    | nil => cases h
    | cons d rest => exact markText_head h
  · split at h
    · split at h
      · exact markText_head h
      · cases rest with
        | nil => cases h
        | cons d rest =>
          obtain ⟨u, -, rfl⟩ := Option.map_eq_some_iff.mp h
          rfl
    · exact markText_head h

theorem arrayText_plain (hq : c ≠ quote) (hb : c ≠ backslash) :
    arrayText inQuotes ignore (c :: rest) = markText inQuotes ignore c rest := by
  rw [arrayText_cons, if_neg hb, if_neg hq]

theorem arrayText_quote (hq : d ≠ quote) (hb : d ≠ backslash) :
    arrayText inQuotes false (quote :: d :: rest) =
      (arrayText (!inQuotes) false (d :: rest)).map (quote :: ·) := by
  rw [arrayText_cons, if_neg (by decide), if_pos rfl, arrayText_plain hq hb]
  rfl

/-- The first turn is as all others: a closing bracket ends the array there too. -/
theorem arrayText_first (t : Bytes) :
    valueText (maskValue arrayEnd { braceCounter := 1 } t) = arrayText false false t := by
  cases t with
  | nil => rfl
  | cons c rest =>
    by_cases hc : c = bracketClose
    · subst hc
      rw [arrayText_plain (by decide) (by decide), markText_close]
      simp [maskValue, arrayEnd, valueText]
    · unfold arrayText
      rw [maskValue, maskValue, if_neg (by simp [arrayEnd, Ne.symm hc]),
        if_neg (by simp [arrayEnd])]
      rfl

theorem isGap_plain (h : isGap c = true) :
    c ≠ quote ∧ c ≠ backslash ∧ c ≠ bracketOpen ∧ c ≠ bracketClose := by
  refine ⟨?_, ?_, ?_, ?_⟩ <;>
    (rintro rfl; exact absurd h (by decide))

/-- Between two strings nothing is masked in step, and everything out of step. -/
theorem arrayText_gap {gap : Bytes} (h : ∀ c ∈ gap, isGap c = true) :
    arrayText inQuotes ignore (gap ++ rest) = (arrayText inQuotes ignore rest).map
      ((if inQuotes then gap.map maskChar else gap) ++ ·) := by
  induction gap with
  | nil => simp
  | cons c gap ih =>
    obtain ⟨hc, h⟩ := List.forall_mem_cons.mp h
    obtain ⟨hq, hb, ho, hcl⟩ := isGap_plain hc
    rw [List.cons_append, arrayText_plain hq hb]
    cases inQuotes with
    | true =>
      rw [markText_in, ih h, Option.map_map]
      rfl
    | false =>
      rw [markText_out ho hcl, ih h, Option.map_map]
      rfl

end

end Icq.Wim
