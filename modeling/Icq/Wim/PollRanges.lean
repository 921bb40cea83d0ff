import Mathlib.Data.List.ModifyLast
import Icq.Wim.LogReplaceFunctor

/-! The answers of a poll in a percent-encoded array, and the ranges of them that the log hides. -/

namespace Icq.Wim
open Icq.Lib

def percent : UInt8 := 0x25

inductive PollState where
  | lookForArrayCloseBracket
  | lookForStringCloseQuote
  | lookForWhatIsEscaped
deriving DecidableEq

/-- A percent sign comes with two more characters. -/
def symbolStep (ahead : Bytes) : Nat := if ahead.head? = some percent then 3 else 1

theorem symbolStep_pos (ahead : Bytes) : 0 < symbolStep ahead := by
  unfold symbolStep
  split <;> decide

/-- The next symbol and what is behind it; nothing if the symbol ends behind the text. -/
def readSymbol (ahead : Bytes) : Option (Bytes × Bytes) :=
  if ahead.length < symbolStep ahead then none
  else some (ahead.take (symbolStep ahead), ahead.drop (symbolStep ahead))

theorem readSymbol_shorter {ahead symbol rest : Bytes}
    (h : readSymbol ahead = some (symbol, rest)) : rest.length < ahead.length := by
  unfold readSymbol at h
  split at h
  · cases h
  · cases h
    have := symbolStep_pos ahead
    simp only [List.length_drop]
    omega

/-- What the scan waits for, the ranges it has found and where it stands. -/
structure PollScan where
  state : PollState := .lookForArrayCloseBracket
  result : List (Int × Int) := []
  place : Nat := 0

def invalidOffset : Int := 0

namespace PollScan

/-- One turn of the loop with its symbol; nothing if the loop ends. -/
def turn (g : PollScan) (symbol : Bytes) : Option PollScan :=
  let it := g.place + symbol.length
  match g.state with
  | .lookForArrayCloseBracket =>
    if symbol = escapeSymbols [bracketClose] then none
    else if symbol = escapeSymbols [quote] then
      some ⟨.lookForStringCloseQuote, g.result ++ [((it : Int), invalidOffset)], it⟩
    else some { g with place := it }
  | .lookForStringCloseQuote =>
    if symbol = escapeSymbols [quote] then
      if g.result = [] then none
      else some ⟨.lookForArrayCloseBracket,
        g.result.modifyLast fun r => (r.1, (g.place : Int) - 1), it⟩
    else if symbol = escapeSymbols [backslash] then
      some { g with state := .lookForWhatIsEscaped, place := it }
    else some { g with place := it }
  | .lookForWhatIsEscaped => some { g with state := .lookForStringCloseQuote, place := it }

/-- The ranges at the end of the loop; nothing if a symbol ends behind the text. -/
def scan (g : PollScan) (ahead : Bytes) : Option (List (Int × Int)) :=
  if ahead = [] then some g.result
  else
    match _h : readSymbol ahead with
    | none => none
    | some (symbol, rest) =>
      match g.turn symbol with
      | none => some g.result
      | some g' => g'.scan rest
termination_by ahead.length
decreasing_by exact readSymbol_shorter _h

end PollScan

def pollResponsesRanges (s : Bytes) : Option (List (Int × Int)) := PollScan.scan {} s

/-- What stands between the quotes of a string. -/
inductive Content : Bytes → Prop where
  | nil : Content []
  | plain {content : Bytes} {c : UInt8} : Content content → c ≠ quote → c ≠ backslash →
      Content (content ++ [c])
  | escape {content : Bytes} (c : UInt8) : Content content → Content (content ++ [backslash, c])

/-- An array of strings up to a place that is in none of them. -/
inductive Elements : Bytes → Prop where
  | nil : Elements []
  | other {front : Bytes} {c : UInt8} : Elements front → c ≠ quote → c ≠ bracketClose →
      Elements (front ++ [c])
  | string {front content : Bytes} : Elements front → Content content →
      Elements (front ++ quote :: content ++ [quote])

/-- An array up to a place in one of its strings. -/
def Inside (front : Bytes) : Prop :=
  ∃ before content, Elements before ∧ Content content ∧ front = before ++ quote :: content

def Escaped (front : Bytes) : Prop := ∃ before, Inside before ∧ front = before ++ [backslash]

/-- Behind that front, this is a character of a string. -/
def Answers (front : Bytes) (c : UInt8) : Prop := Inside front ∧ c ≠ quote ∨ Escaped front

/-- Behind that front, this is the quote that ends a string. -/
def Closes (front : Bytes) (c : UInt8) : Prop := Inside front ∧ c = quote

/-- The places of a character in the percent-encoded text. -/
def At (front : Bytes) (c : UInt8) (p : Nat) : Prop :=
  (escapeSymbols front).length ≤ p ∧ p < (escapeSymbols (front ++ [c])).length

def InRanges (ranges : List (Int × Int)) (p : Nat) : Prop := ∃ r ∈ ranges, r.1 ≤ p ∧ (p : Int) ≤ r.2

/-- Of the first places of a text, the ranges hide the characters of the strings and leave out the
quotes that end them. -/
structure Covers (text : Bytes) (n : Nat) (ranges : List (Int × Int)) : Prop where
  answers : ∀ {front c back}, text = front ++ c :: back → Answers front c →
    ∀ {p}, At front c p → p < n → InRanges ranges p
  quotes : ∀ {front c back}, text = front ++ c :: back → Closes front c →
    ∀ {p}, At front c p → p < n → ¬ InRanges ranges p

/-- No symbol of the cut text is taken past its end, and the ranges are right. -/
def RangesRight (text : Bytes) (n : Nat) : Prop :=
  ∃ ranges, pollResponsesRanges ((escapeSymbols text).take n) = some ranges ∧ Covers text n ranges

/-- The cut text goes up to the end of the array; or it has whole characters only, and ends outside
of the strings or with the first quote of one. -/
def WellCut (text : Bytes) (n : Nat) : Prop :=
  (∃ front, Elements front ∧ front ++ [bracketClose] <+: text ∧
    (escapeSymbols (front ++ [bracketClose])).length ≤ n) ∨
  ∃ front, front <+: text ∧ (escapeSymbols text).take n = escapeSymbols front ∧
    (Elements front ∨ ∃ before, Elements before ∧ front = before ++ [quote])

theorem escapeSymbols_append (a b : Bytes) :
    escapeSymbols (a ++ b) = escapeSymbols a ++ escapeSymbols b := List.flatMap_append

@[simp] theorem length_escapeSymbols_append (a b : Bytes) :
    (escapeSymbols (a ++ b)).length = (escapeSymbols a).length + (escapeSymbols b).length := by
  rw [escapeSymbols_append, List.length_append]

theorem escapeSymbols_one (c : UInt8) : escapeSymbols [c] = [c] ∧ c ≠ percent ∨
    escapeSymbols [c] = [percent, hexDigit (c / 16), hexDigit (c % 16)] := by
  simp only [escapeSymbols, List.flatMap_cons, List.flatMap_nil, List.append_nil]
  split
  · rename_i hplain
    refine .inl ⟨rfl, ?_⟩
    intro he
    subst he
    exact absurd hplain (by decide)
  · exact .inr rfl

theorem length_escapeSymbols_pos (c : UInt8) : 0 < (escapeSymbols [c]).length := by
  rcases escapeSymbols_one c with ⟨he, -⟩ | he <;> simp [he]

theorem hexDigit_inj {a b : UInt8} (ha : a < 16) (hb : b < 16) (h : hexDigit a = hexDigit b) :
    a = b := by
  unfold hexDigit at h
  grind

theorem escapeSymbols_inj {a b : UInt8} (h : escapeSymbols [a] = escapeSymbols [b]) : a = b := by
  rcases escapeSymbols_one a with ⟨ha, -⟩ | ha <;> rcases escapeSymbols_one b with ⟨hb, -⟩ | hb <;>
    rw [ha, hb] at h
  · exact List.cons.inj h |>.1
  · simp at h
  · simp at h
  · simp only [List.cons.injEq, and_true, true_and] at h
    have hhigh : a / 16 = b / 16 := hexDigit_inj (by grind) (by grind) h.1
    have hlow : a % 16 = b % 16 := hexDigit_inj (by grind) (by grind) h.2
    grind

theorem readSymbol_escape (c : UInt8) (rest : Bytes) :
    readSymbol (escapeSymbols [c] ++ rest) = some (escapeSymbols [c], rest) := by
  rcases escapeSymbols_one c with ⟨he, hc⟩ | he <;> rw [he]
  · simp [readSymbol, symbolStep, hc]
  · simp [readSymbol, symbolStep]

/-- Where a reader of an array stands. -/
inductive Standing where
  | between
  | inside
  | escaped
  | closed
deriving DecidableEq

namespace Standing

def next : Standing → UInt8 → Standing
  | between, c => if c = bracketClose then closed else if c = quote then inside else between
  | inside, c => if c = quote then between else if c = backslash then escaped else inside
  | escaped, _ => inside
  | closed, _ => closed

def after (text : Bytes) : Standing := text.foldl next between

theorem after_snoc (front : Bytes) (c : UInt8) : after (front ++ [c]) = (after front).next c := by
  simp [after]

end Standing

open Standing

/-- The quotes in the content of a string are escaped. -/
theorem Content.fold {content : Bytes} (h : Content content) : content.foldl next .inside = .inside ∧
    ∀ front, front <+: content → front.foldl next .inside = .inside ∨
      front.foldl next .inside = .escaped := by
  induction h with
  | nil =>
    refine ⟨rfl, fun front hf => ?_⟩
    rw [List.prefix_nil.mp hf]
    exact .inl rfl
  | @plain content c h hq hb ih =>
    have hall : (content ++ [c]).foldl next .inside = .inside := by simp [ih.1, next, hq, hb]
    refine ⟨hall, fun front hf => ?_⟩
    rcases List.prefix_concat_iff.mp hf with rfl | hf
    · exact .inl hall
    · exact ih.2 front hf
  | @escape content c h ih =>
    have hslash : (content ++ [backslash]).foldl next .inside = .escaped := by
      rw [List.foldl_append, ih.1]
      decide
    have hall : (content ++ [backslash, c]).foldl next .inside = .inside := by
      rw [show content ++ [backslash, c] = content ++ [backslash] ++ [c] by simp,
        List.foldl_append, hslash]
      rfl
    refine ⟨hall, fun front hf => ?_⟩
    rw [show content ++ [backslash, c] = content ++ [backslash] ++ [c] by simp] at hf
    rcases List.prefix_concat_iff.mp hf with rfl | hf
    · left
      simpa using hall
    · rcases List.prefix_concat_iff.mp hf with rfl | hf
      · exact .inr hslash
      · exact ih.2 front hf

theorem Elements.after {front : Bytes} (h : Elements front) : Standing.after front = .between := by
  induction h with
  | nil => rfl
  | other h hq hb ih => rw [after_snoc, ih, next, if_neg hb, if_neg hq]
  | @string front content h hc ih =>
    rw [after_snoc, Standing.after, List.foldl_append, ← Standing.after, ih, List.foldl_cons]
    rw [show next .between quote = .inside by decide, hc.fold.1]
    decide

theorem after_string {before content : Bytes} (h : Elements before) :
    after (before ++ quote :: content) = content.foldl next .inside := by
  rw [after, List.foldl_append, ← after, h.after, List.foldl_cons]
  rfl

theorem Inside.after {front : Bytes} : Inside front → Standing.after front = .inside := by
  rintro ⟨before, content, hb, hc, rfl⟩
  exact (after_string hb).trans hc.fold.1

theorem Escaped.after {front : Bytes} : Escaped front → Standing.after front = .escaped := by
  rintro ⟨before, h, rfl⟩
  rw [after_snoc, h.after]
  decide

theorem after_closed {front : Bytes} (h : Elements front) (rest : Bytes) :
    after (front ++ bracketClose :: rest) = .closed := by
  have hstay : ∀ rest : Bytes, rest.foldl next .closed = .closed := by
    intro rest
    induction rest with
    | nil => rfl
    | cons c rest ih => exact ih
  rw [after, List.foldl_append, ← after, h.after, List.foldl_cons]
  exact hstay rest

theorem Answers.after {front : Bytes} {c : UInt8} (h : Answers front c) :
    Standing.after front = .inside ∧ c ≠ quote ∨ Standing.after front = .escaped := by
  rcases h with ⟨h, hc⟩ | h
  · exact .inl ⟨h.after, hc⟩
  · exact .inr h.after

theorem Closes.after {front : Bytes} {c : UInt8} (h : Closes front c) :
    Standing.after front = .inside ∧ c = quote := ⟨h.1.after, h.2⟩

/-- No character of the content ends its string. -/
theorem not_closes_content {before content front back : Bytes} {c : UInt8} (hb : Elements before)
    (hc : Content content) (he : content = front ++ c :: back) :
    ¬ Closes (before ++ quote :: front) c := by
  intro hcl
  have hend : after (before ++ quote :: (front ++ [c])) = .between := by
    rw [show before ++ quote :: (front ++ [c]) = before ++ quote :: front ++ [c] by simp, after_snoc,
      hcl.after.1, hcl.after.2]
    decide
  rw [after_string hb] at hend
  have hpre : front ++ [c] <+: content := ⟨back, by simp [he]⟩
  rcases hc.fold.2 _ hpre with h | h <;> rw [hend] at h <;> cases h

theorem not_answers {front : Bytes} {c : UInt8} (h : Elements front) : ¬ Answers front c := by
  intro ha
  have hafter := ha.after
  rw [h.after] at hafter
  simp at hafter

theorem not_closes {front : Bytes} {c : UInt8} (h : Elements front) : ¬ Closes front c := by
  intro hc
  have hafter := hc.after.1
  rw [h.after] at hafter
  cases hafter

/-- The quote that ends a string is no character of it. -/
theorem not_answers_quote {before content : Bytes} (hb : Elements before) (hc : Content content) :
    ¬ Answers (before ++ quote :: content) quote := by
  intro ha
  have hafter := ha.after
  rw [after_string hb, hc.fold.1] at hafter
  simp at hafter

/-- A character of two texts in a row is in one of them. -/
theorem split_append {a d front back : Bytes} {c : UInt8} (h : a ++ d = front ++ c :: back) :
    (∃ back', a = front ++ c :: back') ∨ ∃ front', front = a ++ front' ∧ d = front' ++ c :: back := by
  rcases List.append_eq_append_iff.mp h with ⟨as, hf, hd⟩ | ⟨bs, ha, hc⟩
  · exact .inr ⟨as, hf, hd⟩
  · cases bs with
    | nil => exact .inr ⟨[], by simpa using ha.symm, by simpa using hc.symm⟩
    | cons b bs =>
      simp only [List.cons_append, List.cons.injEq] at hc
      obtain ⟨rfl, -⟩ := hc
      exact .inl ⟨bs, ha⟩

theorem split_snoc {a front back : Bytes} {c d : UInt8} (h : a ++ [d] = front ++ c :: back) :
    (∃ back', a = front ++ c :: back') ∨ front = a ∧ d = c := by
  rcases split_append h with hb | ⟨front', rfl, hd⟩
  · exact .inl hb
  · cases front' with
    | nil => exact .inr ⟨by simp, by simpa using (List.cons.inj hd).1⟩
    | cons x front' => simp at hd

theorem At.lt {front : Bytes} {c : UInt8} {p : Nat} (h : At front c p) (back : Bytes) :
    p < (escapeSymbols (front ++ c :: back)).length := by
  have he : front ++ c :: back = front ++ [c] ++ back := by simp
  have := h.2
  rw [he, length_escapeSymbols_append]
  omega

/-- The ranges for an array up to a place that is in none of its strings. -/
structure Recorded (front : Bytes) (ranges : List (Int × Int)) : Prop where
  answers : ∀ {f c back}, front = f ++ c :: back → Answers f c → ∀ {p}, At f c p → InRanges ranges p
  quotes : ∀ {f c back}, front = f ++ c :: back → Closes f c → ∀ {p}, At f c p → ¬ InRanges ranges p
  ends : ∀ r ∈ ranges, r.2 < (escapeSymbols front).length

/-- The range of a string without its end hides nothing. -/
theorem not_inRanges_open {start p : Nat} (h : 0 < start) : ¬ InRanges [((start : Int), invalidOffset)] p := by
  rintro ⟨r, hr, hle, hge⟩
  rw [List.mem_singleton.mp hr] at hle hge
  simp only [invalidOffset] at hle hge
  omega

theorem inRanges_append {a b : List (Int × Int)} {p : Nat} :
    InRanges (a ++ b) p ↔ InRanges a p ∨ InRanges b p := by
  simp [InRanges, or_and_right, exists_or]

namespace Recorded

variable {front content : Bytes} {ranges : List (Int × Int)} {c : UInt8}

theorem nil : Recorded [] [] where
  answers h := by simp at h
  quotes h := by simp at h
  ends := by simp

theorem not_inRanges (h : Recorded front ranges) {p : Nat} (hp : (escapeSymbols front).length ≤ p) :
    ¬ InRanges ranges p := by
  rintro ⟨r, hr, -, hle⟩
  have := h.ends r hr
  omega

theorem other (h : Recorded front ranges) (hf : Elements front) : Recorded (front ++ [c]) ranges where
  answers he ha p hp := by
    rcases split_snoc he with ⟨back', hb⟩ | ⟨rfl, -⟩
    · exact h.answers hb ha hp
    · exact absurd ha (not_answers hf)
  quotes he ha p hp := by
    rcases split_snoc he with ⟨back', hb⟩ | ⟨rfl, -⟩
    · exact h.quotes hb ha hp
    · exact absurd ha (not_closes hf)
  ends r hr := by
    have := h.ends r hr
    simp only [length_escapeSymbols_append]
    omega

/-- A character in front of the end of a string. -/
theorem split_string {f back : Bytes} (he : front ++ quote :: content = f ++ c :: back) :
    (∃ back', front = f ++ c :: back') ∨ f = front ∧ c = quote ∨
      ∃ f', f = front ++ quote :: f' ∧ content = f' ++ c :: back := by
  rcases split_append he with hb | ⟨f', rfl, hd⟩
  · exact .inl hb
  · cases f' with
    | nil => exact .inr (.inl ⟨by simp, by simpa using (List.cons.inj hd).1.symm⟩)
    | cons x f' =>
      simp only [List.cons_append, List.cons.injEq] at hd
      obtain ⟨rfl, hc⟩ := hd
      exact .inr (.inr ⟨f', rfl, hc⟩)

/-- Before the end of a string is known, its characters are not hidden. -/
theorem opened_quotes (h : Recorded front ranges) (hf : Elements front) (hc : Content content)
    {f back : Bytes} (he : front ++ quote :: content = f ++ c :: back) (ha : Closes f c) {p : Nat}
    (hp : At f c p) : ¬ InRanges ranges p ∧ p < (escapeSymbols front).length := by
  rcases split_string he with ⟨back', hb⟩ | ⟨rfl, -⟩ | ⟨f', rfl, hb⟩
  · refine ⟨h.quotes hb ha hp, ?_⟩
    rw [hb]
    exact hp.lt _
  · exact absurd ha (not_closes hf)
  · exact absurd ha (not_closes_content hf hc hb)

theorem string (h : Recorded front ranges) (hf : Elements front) (hc : Content content) :
    Recorded (front ++ quote :: content ++ [quote]) (ranges ++
      [(((escapeSymbols (front ++ [quote])).length : Int),
        ((escapeSymbols (front ++ quote :: content)).length : Int) - 1)]) where
  answers he ha p hp := by
    rw [inRanges_append]
    rcases split_snoc he with ⟨back, hb⟩ | ⟨rfl, rfl⟩
    · rcases split_string hb with ⟨back', hb'⟩ | ⟨rfl, -⟩ | ⟨f', rfl, hb'⟩
      · exact .inl (h.answers hb' ha hp)
      · exact absurd ha (not_answers hf)
      · -- from behind the first quote up to the end of the content
        refine .inr ⟨_, List.mem_singleton_self _, ?_⟩
        have hlt := hp.lt back
        have hge := hp.1
        rw [← hb] at hlt
        rw [show front ++ quote :: f' = front ++ [quote] ++ f' by simp,
          length_escapeSymbols_append] at hge
        exact ⟨by simp only []; omega, by simp only []; omega⟩
    · exact absurd ha (not_answers_quote hf hc)
  quotes he ha p hp := by
    rw [inRanges_append]
    rintro (hr | ⟨r, hr, hle, hge⟩)
    · rcases split_snoc he with ⟨back, hb⟩ | ⟨rfl, rfl⟩
      · exact (h.opened_quotes hf hc hb ha hp).1 hr
      · refine h.not_inRanges ?_ hr
        have := hp.1
        rw [length_escapeSymbols_append] at this
        omega
    · rw [List.mem_singleton.mp hr] at hle hge
      rcases split_snoc he with ⟨back, hb⟩ | ⟨rfl, rfl⟩
      · have := (h.opened_quotes hf hc hb ha hp).2
        simp only [length_escapeSymbols_append] at hle
        omega
      · have := hp.1
        simp only [] at hge
        omega
  ends r hr := by
    rcases List.mem_append.mp hr with hr | hr
    · have := h.ends r hr
      simp only [length_escapeSymbols_append]
      omega
    · rw [List.mem_singleton.mp hr]
      simp only [length_escapeSymbols_append]
      omega

end Recorded

/-- The range that a string begins with. -/
def opened (before : Bytes) : Int × Int :=
  ((escapeSymbols (before ++ [quote])).length, invalidOffset)

/-- The scan behind the symbols of a text. -/
inductive Scanned : Bytes → PollScan → Prop where
  | between {front : Bytes} {ranges : List (Int × Int)} : Elements front → Recorded front ranges →
      Scanned front ⟨.lookForArrayCloseBracket, ranges, (escapeSymbols front).length⟩
  | inside {before content : Bytes} {ranges : List (Int × Int)} : Elements before →
      Recorded before ranges → Content content →
      Scanned (before ++ quote :: content) ⟨.lookForStringCloseQuote, ranges ++ [opened before],
        (escapeSymbols (before ++ quote :: content)).length⟩
  | escaped {before content : Bytes} {ranges : List (Int × Int)} : Elements before →
      Recorded before ranges → Content content →
      Scanned (before ++ quote :: (content ++ [backslash])) ⟨.lookForWhatIsEscaped,
        ranges ++ [opened before],
        (escapeSymbols (before ++ quote :: (content ++ [backslash]))).length⟩

theorem escapeSymbols_eq_iff {a b : UInt8} : escapeSymbols [a] = escapeSymbols [b] ↔ a = b :=
  ⟨escapeSymbols_inj, fun h => by rw [h]⟩

/-- With the symbol of a character the scan ends at the bracket of the array, or goes on. -/
theorem Scanned.turn {front : Bytes} {g : PollScan} (h : Scanned front g) (c : UInt8) :
    (g.turn (escapeSymbols [c]) = none ∧ c = bracketClose ∧ Elements front ∧
      Recorded front g.result) ∨
    ∃ g', g.turn (escapeSymbols [c]) = some g' ∧ Scanned (front ++ [c]) g' := by
  cases h with
  | @between front ranges hf hr =>
    by_cases hb : c = bracketClose
    · exact .inl ⟨by simp [PollScan.turn, hb], hb, hf, hr⟩
    · by_cases hq : c = quote
      · subst hq
        refine .inr ⟨_, ?_, .inside hf hr .nil⟩
        simp [PollScan.turn, escapeSymbols_eq_iff, hb, opened]
      · have hnext := Scanned.between (hf.other hq hb) (hr.other (c := c) hf)
        refine .inr ⟨_, ?_, hnext⟩
        simp [PollScan.turn, escapeSymbols_eq_iff, hb, hq]
  | @inside before content ranges hb hr hc =>
    right
    by_cases hq : c = quote
    · subst hq
      refine ⟨_, ?_, .between (hb.string hc) (hr.string hb hc)⟩
      simp [PollScan.turn, List.modifyLast_concat, opened, -List.append_assoc]
    · by_cases hs : c = backslash
      · subst hs
        have hnext := Scanned.escaped hb hr hc
        rw [show before ++ quote :: (content ++ [backslash]) =
          before ++ quote :: content ++ [backslash] by simp] at hnext
        refine ⟨_, ?_, hnext⟩
        simp [PollScan.turn, escapeSymbols_eq_iff, hq, -List.append_assoc]
      · have hnext := Scanned.inside hb hr (hc.plain hq hs)
        rw [show before ++ quote :: (content ++ [c]) = before ++ quote :: content ++ [c] by simp]
          at hnext
        refine ⟨_, ?_, hnext⟩
        simp [PollScan.turn, escapeSymbols_eq_iff, hq, hs, -List.append_assoc]
  | @escaped before content ranges hb hr hc =>
    have hnext := Scanned.inside hb hr (hc.escape c)
    rw [show before ++ quote :: (content ++ [backslash, c]) =
      before ++ quote :: (content ++ [backslash]) ++ [c] by simp] at hnext
    refine .inr ⟨_, ?_, hnext⟩
    simp [PollScan.turn, -List.append_assoc]

theorem scan_symbol (g : PollScan) (c : UInt8) (rest : Bytes) :
    g.scan (escapeSymbols [c] ++ rest) =
      match g.turn (escapeSymbols [c]) with
      | none => some g.result
      | some g' => g'.scan rest := by
  have hne : escapeSymbols [c] ++ rest ≠ [] := by
    intro h
    have := length_escapeSymbols_pos c
    simp_all
  rw [PollScan.scan, if_neg hne]
  split
  · rename_i h
    rw [readSymbol_escape] at h
    cases h
  · rename_i symbol rest' h
    rw [readSymbol_escape] at h
    cases h
    rfl

/-- The scan of whole symbols: it has ended at the bracket of the array, or it goes on with what is
behind them. -/
theorem scan_symbols {front : Bytes} {g : PollScan} (h : Scanned front g) (text tail : Bytes) :
    (∃ array ranges, Elements array ∧ Recorded array ranges ∧
      array ++ [bracketClose] <+: front ++ text ∧ g.scan (escapeSymbols text ++ tail) = some ranges) ∨
    ∃ g', Scanned (front ++ text) g' ∧ g.scan (escapeSymbols text ++ tail) = g'.scan tail := by
  induction text generalizing front g with
  | nil => exact .inr ⟨g, by simpa using h, rfl⟩
  | cons c text ih =>
    have hsplit : escapeSymbols (c :: text) ++ tail =
        escapeSymbols [c] ++ (escapeSymbols text ++ tail) := by
      rw [← List.append_assoc, ← escapeSymbols_append]
      rfl
    rw [hsplit, scan_symbol]
    rcases h.turn c with ⟨hstop, hc, hf, hr⟩ | ⟨g', hnext, hg'⟩
    · rw [hstop]
      exact .inl ⟨front, g.result, hf, hr, ⟨text, by simp [hc]⟩, rfl⟩
    · rw [hnext]
      have := ih hg'
      rwa [List.append_assoc, List.singleton_append] at this

theorem scan_nil (g : PollScan) : g.scan [] = some g.result := by
  rw [PollScan.scan, if_pos rfl]

theorem scan_cut {g : PollScan} {tail : Bytes} (hne : tail ≠ []) (h : readSymbol tail = none) :
    g.scan tail = none := by
  rw [PollScan.scan, if_neg hne]
  split
  · rfl
  · rename_i h'
    rw [h] at h'
    cases h'

/-- A cut text has whole symbols, and maybe a part of one. -/
theorem escapeSymbols_cut (text : Bytes) (n : Nat) : ∃ front tail, front <+: text ∧
    (escapeSymbols text).take n = escapeSymbols front ++ tail ∧
      (tail = [] ∨ readSymbol tail = none ∧ tail ≠ []) := by
  induction text generalizing n with
  | nil => exact ⟨[], [], List.prefix_rfl, by simp [escapeSymbols], .inl rfl⟩
  | cons c text ih =>
    have hsplit : escapeSymbols (c :: text) = escapeSymbols [c] ++ escapeSymbols text := by
      rw [← escapeSymbols_append]
      rfl
    by_cases hn : (escapeSymbols [c]).length ≤ n
    · obtain ⟨front, tail, ⟨back, hpre⟩, htake, htail⟩ := ih (n - (escapeSymbols [c]).length)
      refine ⟨c :: front, tail, ⟨back, by simp [← hpre]⟩, ?_, htail⟩
      have hfront : escapeSymbols (c :: front) = escapeSymbols [c] ++ escapeSymbols front := by
        rw [← escapeSymbols_append]
        rfl
      rw [hsplit, List.take_append, List.take_of_length_le hn, htake, hfront, List.append_assoc]
    · refine ⟨[], (escapeSymbols [c]).take n, List.nil_prefix, ?_, ?_⟩
      · rw [hsplit, List.take_append_of_le_length (by omega)]
        rfl
      · rcases escapeSymbols_one c with ⟨he, -⟩ | he <;> rw [he] at hn ⊢
        · simp only [List.length_singleton] at hn
          left
          rw [show n = 0 by omega]
          rfl
        · simp only [List.length_cons, List.length_nil] at hn
          obtain rfl | rfl | rfl : n = 0 ∨ n = 1 ∨ n = 2 := by omega
          · exact .inl rfl
          · exact .inr ⟨by simp [readSymbol, symbolStep], by simp⟩
          · exact .inr ⟨by simp [readSymbol, symbolStep], by simp⟩

theorem Scanned.start : Scanned [] {} := .between .nil .nil

theorem Scanned.after {front : Bytes} {g : PollScan} (h : Scanned front g) :
    Standing.after front ≠ .closed ∧
      (g.state = .lookForArrayCloseBracket → Standing.after front = .between) ∧
      (g.state = .lookForStringCloseQuote → Standing.after front = .inside) ∧
      (g.state = .lookForWhatIsEscaped → Standing.after front = .escaped) := by
  cases h with
  | between hf hr => simp [hf.after]
  | inside hb hr hc => simp [Inside.after ⟨_, _, hb, hc, rfl⟩]
  | @escaped before content ranges hb hr hc =>
    have := Escaped.after ⟨_, ⟨_, _, hb, hc, rfl⟩, rfl⟩
    rw [show before ++ quote :: content ++ [backslash] =
      before ++ quote :: (content ++ [backslash]) by simp] at this
    simp [this]

section

variable {text front array before : Bytes} {ranges : List (Int × Int)} {n : Nat}

/-- Behind the bracket there is no string of the array. -/
theorem Recorded.covers_closed (h : Recorded array ranges) (ha : Elements array)
    (hpre : array ++ [bracketClose] <+: text) : Covers text n ranges := by
  obtain ⟨rest, rfl⟩ := hpre
  have hin : ∀ {f back c}, array ++ [bracketClose] ++ rest = f ++ c :: back →
      Standing.after f = .inside ∨ Standing.after f = .escaped → ∃ back', array = f ++ c :: back' := by
    intro f back c he hf
    rw [List.append_assoc, List.singleton_append] at he
    rcases split_append he with hb | ⟨f', rfl, hd⟩
    · exact hb
    · cases f' with
      | nil => simp [ha.after] at hf
      | cons x f' =>
        simp only [List.cons_append, List.cons.injEq] at hd
        obtain ⟨rfl, -⟩ := hd
        simp [after_closed ha] at hf
  constructor
  · intro f c back he hans p hp _
    obtain ⟨back', hb⟩ := hin he (hans.after.imp_left And.left)
    exact h.answers hb hans hp
  · intro f c back he hcl p hp _
    obtain ⟨back', hb⟩ := hin he (.inl hcl.after.1)
    exact h.quotes hb hcl hp

/-- Only the characters that a cut text has count. -/
theorem covers_cut (hpre : front <+: text) (hcut : (escapeSymbols text).take n = escapeSymbols front)
    (ha : ∀ {f c back}, front = f ++ c :: back → Answers f c → ∀ {p}, At f c p → InRanges ranges p)
    (hq : ∀ {f c back}, front = f ++ c :: back → Closes f c → ∀ {p}, At f c p → ¬ InRanges ranges p) :
    Covers text n ranges := by
  obtain ⟨rest, rfl⟩ := hpre
  have hin : ∀ {f c back p}, front ++ rest = f ++ c :: back → At f c p → p < n →
      ∃ back', front = f ++ c :: back' := by
    intro f c back p he hp hn
    rcases split_append he with hb | ⟨f', rfl, -⟩
    · exact hb
    · have hlt := hp.lt back
      rw [← he] at hlt
      have hlen := congrArg List.length hcut
      rw [List.length_take] at hlen
      have hge := hp.1
      rw [length_escapeSymbols_append] at hge
      omega
  constructor
  · intro f c back he hans p hp hn
    obtain ⟨back', hb⟩ := hin he hp hn
    exact ha hb hans hp
  · intro f c back he hcl p hp hn
    obtain ⟨back', hb⟩ := hin he hp hn
    exact hq hb hcl hp

/-- The first character of a string that is not ended is left out. -/
theorem Recorded.not_covers (h : Recorded before ranges) (hb : Elements before) {c : UInt8}
    {rest : Bytes} (hc : c ≠ quote) (hpre : before ++ quote :: c :: rest <+: text)
    (hn : (escapeSymbols (before ++ quote :: c :: rest)).length ≤ n) :
    ¬ Covers text n (ranges ++ [opened before]) := by
  intro hcov
  obtain ⟨back, rfl⟩ := hpre
  have hat : At (before ++ [quote]) c (escapeSymbols (before ++ [quote])).length := by
    refine ⟨Nat.le_refl _, ?_⟩
    have := length_escapeSymbols_pos c
    rw [length_escapeSymbols_append (before ++ [quote])]
    omega
  have hlt := hat.lt rest
  rw [show before ++ [quote] ++ c :: rest = before ++ quote :: c :: rest by simp] at hlt
  have hsplit : before ++ quote :: c :: rest ++ back = before ++ [quote] ++ c :: (rest ++ back) := by
    simp
  have hin := hcov.answers hsplit (.inl ⟨⟨before, [], hb, .nil, rfl⟩, hc⟩) hat (by omega)
  have hquote := length_escapeSymbols_pos quote
  rcases inRanges_append.mp hin with hr | hr
  · refine h.not_inRanges ?_ hr
    simp only [length_escapeSymbols_append]
    omega
  · refine not_inRanges_open ?_ hr
    simp only [length_escapeSymbols_append]
    omega

end

/-- A string that is not ended and has a first character. -/
theorem Scanned.not_covers {text front : Bytes} {g : PollScan} {n : Nat} (h : Scanned front g)
    (hpre : front <+: text) (hn : (escapeSymbols front).length ≤ n)
    (hcov : Covers text n g.result) :
    Elements front ∨ ∃ before, Elements before ∧ front = before ++ [quote] := by
  cases h with
  | between hf hr => exact .inl hf
  | @inside before content ranges hb hr hc =>
    cases content with
    | nil => exact .inr ⟨before, hb, rfl⟩
    | cons c rest =>
      refine absurd hcov (hr.not_covers hb ?_ hpre hn)
      rintro rfl
      have := hc.fold.2 [quote] ⟨rest, rfl⟩
      revert this
      decide
  | @escaped before content ranges hb hr hc =>
    cases content with
    | nil => exact absurd hcov (hr.not_covers hb (by decide) hpre hn)
    | cons c rest =>
      refine absurd hcov (hr.not_covers hb ?_ hpre hn)
      rintro rfl
      have := hc.fold.2 [quote] ⟨rest, rfl⟩
      revert this
      decide

/-- Nothing is between the first quote and the place. -/
theorem content_nil {before before' content : Bytes} (hb : Elements before) (hb' : Elements before')
    (hc : Content content) (he : before ++ quote :: content = before' ++ [quote]) :
    content = [] ∧ before = before' := by
  rcases split_append he.symm with ⟨back, hf⟩ | ⟨f', rfl, hd⟩
  · -- the quote is a front of the other array
    exfalso
    rw [hf, List.append_assoc, List.append_cancel_left_eq, List.cons_append, List.cons.injEq] at he
    have hafter := hb'.after
    rw [hf, after_string hb] at hafter
    rcases hc.fold.2 back ⟨[quote], he.2.symm⟩ with h | h <;> rw [hafter] at h <;> cases h
  · cases f' with
    | nil => exact ⟨by simpa using (List.cons.inj hd).2.symm, by simp⟩
    | cons x f' => simp at hd

/-- The range of a string that has only its first quote hides nothing. -/
theorem Recorded.covers_opened {text before : Bytes} {ranges : List (Int × Int)} {n : Nat}
    (h : Recorded before ranges) (hb : Elements before) (hpre : before ++ [quote] <+: text)
    (hcut : (escapeSymbols text).take n = escapeSymbols (before ++ [quote])) :
    Covers text n (ranges ++ [opened before]) := by
  refine covers_cut hpre hcut ?_ ?_
  · intro f c back he ha p hp
    rcases split_snoc he with ⟨back', hf⟩ | ⟨rfl, -⟩
    · exact inRanges_append.mpr (.inl (h.answers hf ha hp))
    · exact absurd ha (not_answers hb)
  · intro f c back he hcl p hp
    rcases split_snoc he with ⟨back', hf⟩ | ⟨rfl, -⟩
    · rw [inRanges_append]
      rintro (hr | hr)
      · exact h.quotes hf hcl hp hr
      · refine not_inRanges_open ?_ hr
        rw [length_escapeSymbols_append]
        have := length_escapeSymbols_pos quote
        omega
    · exact absurd hcl (not_closes hb)

theorem Scanned.covers {text front : Bytes} {g : PollScan} {n : Nat} (h : Scanned front g)
    (hend : Elements front ∨ ∃ before, Elements before ∧ front = before ++ [quote])
    (hpre : front <+: text) (hcut : (escapeSymbols text).take n = escapeSymbols front) :
    Covers text n g.result := by
  have hafter : Standing.after front = .between ∨
      ∃ before, Elements before ∧ front = before ++ [quote] := hend.imp_left Elements.after
  cases h with
  | between hf hr => exact covers_cut hpre hcut hr.answers hr.quotes
  | @inside before content ranges hb hr hc =>
    rw [Inside.after ⟨before, content, hb, hc, rfl⟩] at hafter
    obtain ⟨before', hb', he⟩ := hafter.resolve_left (by decide)
    obtain ⟨rfl, -⟩ := content_nil hb hb' hc he
    exact hr.covers_opened hb hpre hcut
  | @escaped before content ranges hb hr hc =>
    have hesc : Standing.after (before ++ quote :: (content ++ [backslash])) = .escaped :=
      (Scanned.escaped hb hr hc).after.2.2.2 rfl
    rw [hesc] at hafter
    obtain ⟨before', hb', he⟩ := hafter.resolve_left (by decide)
    have hinside : Standing.after (before' ++ [quote]) = .inside :=
      Inside.after ⟨before', [], hb', .nil, rfl⟩
    rw [← he, hesc] at hinside
    cases hinside

/-- The ranges are right if and only if the text is not cut off in a character nor, except right
behind its first quote, in a string of the array. -/
theorem rangesRight_iff (text : Bytes) (n : Nat) : RangesRight text n ↔ WellCut text n := by
  constructor
  · rintro ⟨ranges, hscan, hcov⟩
    obtain ⟨front, tail, hpre, hcut, htail⟩ := escapeSymbols_cut text n
    rw [pollResponsesRanges, hcut] at hscan
    have hlen := List.length_take_le n (escapeSymbols text)
    rw [hcut, List.length_append] at hlen
    rcases scan_symbols .start front tail with ⟨array, ranges', ha, hr, harray, hend⟩ | ⟨g, hg, hgo⟩
    · rw [List.nil_append] at harray
      obtain ⟨rest, rfl⟩ := harray
      rw [length_escapeSymbols_append] at hlen
      exact .inl ⟨array, ha, (List.prefix_append _ _).trans hpre, by omega⟩
    · rw [hgo] at hscan
      rw [List.nil_append] at hg
      rcases htail with rfl | ⟨hread, hne⟩
      · rw [scan_nil] at hscan
        cases hscan
        rw [List.append_nil] at hcut
        exact .inr ⟨front, hpre, hcut, hg.not_covers hpre (by omega) hcov⟩
      · rw [scan_cut hne hread] at hscan
        cases hscan
  · rintro (⟨front, hf, hpre, hn⟩ | ⟨front, hpre, hcut, hend⟩)
    · obtain ⟨rest, rfl⟩ := hpre
      rw [RangesRight, escapeSymbols_append, List.take_append, List.take_of_length_le hn]
      rcases scan_symbols .start (front ++ [bracketClose])
        ((escapeSymbols rest).take (n - (escapeSymbols (front ++ [bracketClose])).length)) with
        ⟨array, ranges, ha, hr, harray, hscan⟩ | ⟨g, hg, -⟩
      · refine ⟨ranges, hscan, ?_⟩
        rw [List.nil_append] at harray
        exact hr.covers_closed ha (harray.trans (List.prefix_append _ _))
      · exact absurd (after_closed hf []) hg.after.1
    · rw [RangesRight, hcut]
      rcases scan_symbols .start front [] with ⟨array, ranges, ha, hr, harray, hscan⟩ | ⟨g, hg, hscan⟩
      · rw [List.append_nil] at hscan
        refine ⟨ranges, hscan, ?_⟩
        rw [List.nil_append] at harray
        exact hr.covers_closed ha (harray.trans hpre)
      · rw [List.append_nil, scan_nil] at hscan
        refine ⟨g.result, hscan, ?_⟩
        rw [List.nil_append] at hg
        exact hg.covers hend hpre hcut

/-- The characters of an answer whose end is cut off are left out. -/
theorem cut_answer_shown : ¬ RangesRight (ascii ['"', 'a', 'b', '"', ']']) 5 := by
  rintro ⟨ranges, hscan, hcov⟩
  have hcut : (escapeSymbols (ascii ['"', 'a', 'b', '"', ']'])).take 5 =
      escapeSymbols [quote] ++ (escapeSymbols [0x61] ++ (escapeSymbols [0x62] ++ [])) := by
    decide
  have hquote : ({} : PollScan).turn (escapeSymbols [quote]) =
      some ⟨.lookForStringCloseQuote, [opened []], 3⟩ := rfl
  have ha : PollScan.turn ⟨.lookForStringCloseQuote, [opened []], 3⟩ (escapeSymbols [0x61]) =
      some ⟨.lookForStringCloseQuote, [opened []], 4⟩ := rfl
  have hb : PollScan.turn ⟨.lookForStringCloseQuote, [opened []], 4⟩ (escapeSymbols [0x62]) =
      some ⟨.lookForStringCloseQuote, [opened []], 5⟩ := rfl
  simp only [pollResponsesRanges, hcut, scan_symbol, hquote, ha, hb, scan_nil] at hscan
  cases hscan
  have hpre : [quote, 0x61, 0x62] <+: ascii ['"', 'a', 'b', '"', ']'] := ⟨[quote, bracketClose], rfl⟩
  exact Recorded.nil.not_covers .nil (by decide) hpre (by decide) hcov

end Icq.Wim
