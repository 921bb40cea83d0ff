import Icq.Lib.Places
import Icq.Lib.Words
import Icq.Wim.LogArrayRuns

/-! The json strings in a log are hidden up to their closing quotes. -/

namespace Icq.Wim
open Icq.Lib

/-- How the backslash, the first code, and the quote are written in a text. -/
structure JsonCode extends CodePair UInt8 where
  shown : ∀ c ∈ second.head?, maskChar c ≠ c
  noBracket : second ≠ [bracketClose]

def plainCode : JsonCode :=
  { first := [backslash]
    second := [quote]
    second_ne := by decide
    length_eq := by decide
    differ := by decide
    inner := by simp
    shown := fun c hc => by cases hc; decide
    noBracket := by decide }

def encodedCode : JsonCode :=
  { first := escapeSymbols [backslash]
    second := escapeSymbols [quote]
    second_ne := by decide
    length_eq := by decide
    differ := by decide
    inner := by
      rw [show escapeSymbols [backslash] = [0x25, 0x35, 0x43] by decide,
        show escapeSymbols [quote] = [0x25, 0x32, 0x32] by decide]
      simp
    shown := fun c hc => by cases hc; decide
    noBracket := by decide }

namespace JsonCode

variable (k : JsonCode)

def valueEnd : ValueEnd := ⟨k.second, k.first ++ k.second⟩

/-- A quote, unless it is behind an odd number of backslashes. -/
def closes (before ahead : Bytes) : Bool :=
  k.second.isPrefixOf ahead && decide (countRun k.first.reverse 0 before.reverse % 2 = 0)

/-- The first unescaped quote of a value. -/
def closingQuote (value : Bytes) : Option Nat := firstPlace k.closes [] value

/-- A quote that is not behind a backslash. -/
def stops (before ahead : Bytes) : Bool := k.second.isPrefixOf ahead && !k.first.isSuffixOf before

/-- How far a value is masked. -/
def masks (before ahead : Bytes) : Nat :=
  (firstPlace k.stops before ahead).getD (ahead.length - (k.second.length - 1))

/-- The closing quote is not behind a backslash. A value that is cut off has only spaces where a
quote would not fit any more. -/
def Redactable (value : Bytes) : Prop :=
  match k.closingQuote value with
  | some n => ¬ k.first <:+ value.take n
  | none => ∀ c ∈ value.drop (value.length - (k.second.length - 1)), maskChar c = c

instance Redactable.decidable (value : Bytes) : Decidable (k.Redactable value) :=
  match h : k.closingQuote value with
  | some n => decidable_of_iff (¬ k.first <:+ value.take n) (by rw [Redactable, h])
  | none =>
    have := List.decidableBAll (fun c => maskChar c = c) (value.drop (value.length - (k.second.length - 1)))
    decidable_of_iff _ (show _ ↔ k.Redactable value by rw [Redactable, h])

end JsonCode

example : plainCode.valueEnd = stringEnd ∧ encodedCode.valueEnd = stringEndEncoded := by decide

/-- The flags in a string, with the number of characters that are passed by. -/
def inString (count : Nat) : ValueScan :=
  { skipValueEnd := decide (0 < count), countToSkip := count, braceCounter := 0 }

section

variable {k : JsonCode} {before ahead rest t : Bytes} {c : UInt8} {count : Nat}

theorem exclude_pass : (inString (count + 1)).exclude k.valueEnd ahead = inString count := by
  have h : (0 : Int) < ((count + 1 : Nat) : Int) := by omega
  have hsub : ((count + 1 : Nat) : Int) - 1 = (count : Int) := by omega
  simp only [ValueScan.exclude, inString, h, if_true, hsub]
  congr 1
  simp

theorem exclude_code (h : k.first ++ k.second <+: ahead) :
    (inString 0).exclude k.valueEnd ahead = inString ((k.first ++ k.second).length - 1) := by
  have h1 := List.length_pos_iff.mpr k.first_ne
  have h2 := List.length_pos_iff.mpr k.second_ne
  have hsub : (((k.first ++ k.second).length : Nat) : Int) - 1 =
      (((k.first ++ k.second).length - 1 : Nat) : Int) := by
    rw [List.length_append]
    omega
  simp only [ValueScan.exclude, inString, JsonCode.valueEnd, List.isPrefixOf_iff_prefix.mpr h,
    Nat.cast_zero, lt_self_iff_false, if_false, if_true, hsub]
  congr 1
  simp
  omega

theorem exclude_none (h : ¬ k.first ++ k.second <+: ahead) :
    (inString 0).exclude k.valueEnd ahead = inString 0 := by
  simp [ValueScan.exclude, inString, JsonCode.valueEnd, h]

theorem maskValue_string (c : UInt8) (rest : Bytes) :
    maskValue k.valueEnd (inString count) (c :: rest) =
      if rest.length + 1 < k.second.length ∨ count = 0 ∧ k.second <+: c :: rest then some ([], c :: rest)
      else (maskValue k.valueEnd ((inString count).exclude k.valueEnd (c :: rest)) rest).map
        (Prod.map (maskChar c :: ·) id) := by
  rw [maskValue]
  simp only [k.noBracket, JsonCode.valueEnd, inString, ne_eq, not_false_eq_true, if_true,
    Bool.and_eq_true, Bool.not_eq_true', decide_eq_false_iff_not, Nat.not_lt, Nat.le_zero,
    List.isPrefixOf_iff_prefix]

/-- What the flags say of the text: an escaped quote is being passed by, or none reaches over the
place. -/
def Flagged (k : JsonCode) (count : Nat) (before ahead : Bytes) : Prop :=
  (count = 0 ∧ ∀ s, s <:+ before → s ≠ [] → s.length ≤ k.first.length →
    ¬ k.first ++ k.second <+: s ++ ahead) ∨
  ∃ x y, x ≠ [] ∧ y ≠ [] ∧ k.first ++ k.second = x ++ y ∧ x <:+ before ∧ y <+: ahead ∧ y.length = count

theorem Flagged.start (ahead : Bytes) : Flagged k 0 [] ahead :=
  .inl ⟨rfl, fun _ hs hne => absurd (List.suffix_nil.mp hs) hne⟩

/-- Within an escaped quote the value does not stop. -/
theorem stops_passing {x y : Bytes} (hx : x ≠ []) (hy : y ≠ []) (h : k.first ++ k.second = x ++ y)
    (hb : x <:+ before) (ha : y <+: ahead) : k.stops before ahead = false := by
  rw [JsonCode.stops, Bool.and_eq_false_iff]
  obtain ⟨r, rfl⟩ := ha
  rcases List.append_eq_append_iff.mp h with ⟨z, rfl, hz⟩ | ⟨z, hz, rfl⟩
  · cases z with
    | nil =>
      rw [List.append_nil] at hb
      right
      simpa using hb
    | cons d z =>
      left
      rw [← Bool.not_eq_true, List.isPrefixOf_iff_prefix]
      exact (k.not_prefix_within (List.cons_ne_nil d z) hy (.inr hz)).2
  · cases z with
    | nil =>
      right
      rw [List.append_nil] at hz
      rw [hz]
      simpa using hb
    | cons d z =>
      left
      rw [← Bool.not_eq_true, List.isPrefixOf_iff_prefix, List.append_assoc]
      exact (k.not_prefix_within hx (List.cons_ne_nil d z) (.inl hz)).2

theorem Flagged.pass (h : Flagged k (count + 1) before (c :: ahead)) :
    k.stops before (c :: ahead) = false ∧ Flagged k count (before ++ [c]) ahead := by
  rcases h with ⟨hz, -⟩ | ⟨x, y, hx, hy, he, hb, ha, hlen⟩
  · cases hz
  refine ⟨stops_passing hx hy he hb ha, ?_⟩
  obtain ⟨d, y, rfl⟩ := List.exists_cons_of_ne_nil hy
  obtain ⟨rfl, hy'⟩ := List.cons_prefix_cons.mp ha
  have hb : x ++ [d] <:+ before ++ [d] := by
    obtain ⟨u, rfl⟩ := hb
    exact ⟨u, by simp⟩
  cases y with
  | nil =>
    refine .inl ⟨(Nat.succ.inj hlen).symm, fun s hs hne hl => ?_⟩
    exact k.no_overlap (he ▸ hb) hs hne hl
  | cons e y =>
    exact .inr ⟨x ++ [d], e :: y, by simp, List.cons_ne_nil e y, by simpa using he, hb, hy',
      Nat.succ.inj hlen⟩

theorem Flagged.stops_zero (h : Flagged k 0 before ahead) (hq : k.second <+: ahead) :
    k.stops before ahead = true := by
  rcases h with ⟨-, h⟩ | ⟨x, y, -, hy, -, -, -, hlen⟩
  · rw [JsonCode.stops, Bool.and_eq_true, List.isPrefixOf_iff_prefix]
    refine ⟨hq, ?_⟩
    rw [Bool.not_eq_true', ← Bool.not_eq_true, List.isSuffixOf_iff_suffix]
    exact fun hb => h _ hb k.first_ne (Nat.le_refl _) ((List.prefix_append_right_inj _).mpr hq)
  · exact absurd (List.length_eq_zero_iff.mp hlen) hy

theorem Flagged.code (hp : k.first ++ k.second <+: c :: ahead) :
    Flagged k ((k.first ++ k.second).length - 1) (before ++ [c]) ahead := by
  have h1 := List.length_pos_iff.mpr k.first_ne
  have h2 := List.length_pos_iff.mpr k.second_ne
  obtain ⟨d, y, he⟩ := List.exists_cons_of_ne_nil (List.append_ne_nil_of_left_ne_nil k.first_ne k.second)
  rw [he] at hp
  obtain ⟨rfl, hy⟩ := List.cons_prefix_cons.mp hp
  have hlen := congrArg List.length he
  rw [List.length_append, List.length_cons] at hlen
  refine .inr ⟨[d], y, List.cons_ne_nil d [], ?_, he, List.suffix_append _ _, hy, ?_⟩
  · rintro rfl
    rw [List.length_nil] at hlen
    omega
  · rw [List.length_append]
    omega

theorem Flagged.plain (h : Flagged k 0 before (c :: ahead)) (hp : ¬ k.first ++ k.second <+: c :: ahead) :
    Flagged k 0 (before ++ [c]) ahead := by
  rcases h with ⟨-, h⟩ | ⟨x, y, -, hy, -, -, -, hlen⟩
  · refine .inl ⟨rfl, fun s hs hne hl hps => ?_⟩
    obtain ⟨u, hu⟩ := hs
    rcases List.eq_nil_or_concat s with rfl | ⟨s, d, rfl⟩
    · exact hne rfl
    · rw [List.concat_eq_append, ← List.append_assoc] at hu
      obtain ⟨hs, hd⟩ := List.append_inj' hu rfl
      cases hd
      rw [List.concat_eq_append, List.append_assoc] at hps
      cases s with
      | nil => exact hp hps
      | cons e s =>
        refine h (e :: s) ⟨u, hs⟩ (List.cons_ne_nil e s) ?_ hps
        rw [List.concat_eq_append, List.length_append] at hl
        exact Nat.le_of_succ_le hl
  · exact absurd (List.length_eq_zero_iff.mp hlen) hy

theorem masks_step (h : k.stops before (c :: ahead) = false) (hlen : k.second.length ≤ ahead.length + 1) :
    k.masks before (c :: ahead) = k.masks (before ++ [c]) ahead + 1 := by
  rw [JsonCode.masks, JsonCode.masks, firstPlace_step h]
  cases firstPlace k.stops (before ++ [c]) ahead with
  | none =>
    simp only [Option.map_none, Option.getD_none, List.length_cons]
    omega
  | some n => rfl

/-- A value is masked up to the first quote that is not behind a backslash. -/
theorem maskValue_masks (h : Flagged k count before ahead) :
    maskValue k.valueEnd (inString count) ahead =
      some ((ahead.take (k.masks before ahead)).map maskChar, ahead.drop (k.masks before ahead)) := by
  induction ahead generalizing count before with
  | nil => simp [maskValue]
  | cons c ahead ih =>
    rw [maskValue_string]
    by_cases hlen : ahead.length + 1 < k.second.length
    · have hzero : k.masks before (c :: ahead) = 0 := by
        rw [JsonCode.masks, firstPlace_eq_none.mpr fun n _ => ?_]
        · simp only [Option.getD_none, List.length_cons]
          omega
        · rw [JsonCode.stops, Bool.and_eq_false_iff]
          left
          rw [← Bool.not_eq_true, List.isPrefixOf_iff_prefix]
          intro hp
          have := hp.length_le
          rw [List.length_drop, List.length_cons] at this
          omega
      rw [if_pos (.inl hlen), hzero]
      rfl
    have hgo {count' : Nat} (hs : k.stops before (c :: ahead) = false)
        (hf : Flagged k count' (before ++ [c]) ahead) :
        (maskValue k.valueEnd (inString count') ahead).map (Prod.map (maskChar c :: ·) id) =
          some (((c :: ahead).take (k.masks before (c :: ahead))).map maskChar,
            (c :: ahead).drop (k.masks before (c :: ahead))) := by
      rw [ih hf, masks_step hs (Nat.not_lt.mp hlen)]
      rfl
    cases count with
    | succ count =>
      rw [if_neg (by simp [hlen]), exclude_pass]
      exact hgo h.pass.1 h.pass.2
    | zero =>
      by_cases hq : k.second <+: c :: ahead
      · have hzero : k.masks before (c :: ahead) = 0 := by
          rw [JsonCode.masks, firstPlace, if_pos (h.stops_zero hq)]
          rfl
        rw [if_pos (.inr ⟨rfl, hq⟩), hzero]
        rfl
      · have hs : k.stops before (c :: ahead) = false := by
          rw [JsonCode.stops, Bool.and_eq_false_iff]
          left
          rw [← Bool.not_eq_true, List.isPrefixOf_iff_prefix]
          exact hq
        rw [if_neg (by simp [hlen, hq])]
        by_cases hp : k.first ++ k.second <+: c :: ahead
        · rw [exclude_code hp]
          exact hgo hs (.code hp)
        · rw [exclude_none hp]
          exact hgo hs (h.plain hp)

end

end Icq.Wim
