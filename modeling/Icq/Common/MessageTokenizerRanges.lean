import Icq.Common.MessageTokenizer
import Icq.Common.UriMatcherEnds
import Icq.Lib.Pieces

/-! What the tokens of a range cover. -/

namespace Icq.Common
open Icq.Lib Relation

/-- The place of a token in the message. -/
def MessageToken.start (token : MessageToken) : Nat := token.formattedSourceOffset.toNat

namespace TextRange

/-- A range of the message. -/
structure Inside (message : WString) (r : TextRange) : Prop where
  offset_nonneg : 0 ≤ r.offset
  size_nonneg : 0 ≤ r.size
  stop_le : r.stop ≤ message.length

/-- The place is one of the r. -/
def holds (k : Nat) (r : TextRange) : Bool :=
  decide (r.offset ≤ k) && decide (k < r.stop)

theorem holds_iff {k : Nat} {r : TextRange} :
    r.holds k = true ↔ r.offset ≤ k ∧ (k : Int) < r.stop := by
  rw [holds, Bool.and_eq_true, decide_eq_true_iff, decide_eq_true_iff]

end TextRange

namespace MessageTokenizer

variable {t : UriTraits} {tokenTextType : TokenType} {message sv : WString}

/-- The tokens are cut out of the message, and cover each place from `a` to `b` once. -/
structure Cuts (message : WString) (tokens : List MessageToken) (a b : Nat) : Prop where
  cut : ∀ token ∈ tokens, IsCut MessageToken.start MessageToken.text message token
  count : ∀ k, tokens.countP (covers MessageToken.start MessageToken.text k) =
    if a ≤ k ∧ k < b then 1 else 0

namespace Cuts

variable {tokens rest : List MessageToken} {a b c : Nat}

theorem nil (a : Nat) : Cuts message [] a a := by
  refine ⟨fun _ h => absurd h List.not_mem_nil, fun k => ?_⟩
  rw [if_neg (by omega)]
  rfl

theorem append (h : Cuts message tokens a b) (hrest : Cuts message rest b c) (hab : a ≤ b) (hbc : b ≤ c) :
    Cuts message (tokens ++ rest) a c := by
  refine ⟨fun token htoken => ?_, fun k => ?_⟩
  · rcases List.mem_append.mp htoken with htoken | htoken
    · exact h.cut token htoken
    · exact hrest.cut token htoken
  · rw [List.countP_append, h.count, hrest.count]
    split
    · rw [if_neg (by omega), if_pos (by omega)]
    · split
      · rw [if_pos (by omega)]
      · rw [if_neg (by omega)]

/-- A token that is not empty. -/
theorem single {type : TokenType} (hab : a ≤ b) (hb : b ≤ message.length) :
    Cuts message [{ text := slice message a b, type, formattedSourceOffset := a }] a b := by
  have hlength := @length_slice message a b hb
  refine ⟨fun token htoken => ?_, fun k => ?_⟩
  · obtain rfl := List.mem_singleton.mp htoken
    show (message.drop a).take (slice message a b).length = slice message a b
    rw [hlength, slice, List.drop_take]
  · rw [countP_covers_cons]
    show 0 + (if a ≤ k ∧ k < a + (slice message a b).length then 1 else 0) = _
    rw [hlength, Nat.zero_add, Nat.add_sub_cancel' hab]

theorem textToken (hab : a ≤ b) (hb : b ≤ message.length) :
    Cuts message (textToken tokenTextType message a b) a b := by
  rw [MessageTokenizer.textToken]
  split
  · exact single hab hb
  · obtain rfl : a = b := by omega
    exact nil a

end Cuts

/-- The view of a range. -/
structure Views (message sv : WString) (offset : Nat) : Prop where
  fits : offset + sv.length ≤ message.length
  eq : sv = slice message offset (offset + sv.length)

theorem Views.slice {offset a b : Nat} (h : Views message sv offset) (hb : b ≤ sv.length) :
    slice sv a b = slice message (offset + a) (offset + b) := by
  conv_lhs => rw [h.eq]
  rw [Common.slice, Common.slice, Common.slice, List.take_drop, List.take_take, List.drop_drop,
    Nat.min_eq_left (Nat.add_le_add_left hb offset)]

/-- What a search from `i` adds covers what it has passed. -/
theorem addSearch_cuts {offset i : Nat} {r : UriSearch} (hview : Views message sv offset)
    (hr : r.From sv i) :
    Cuts message (addSearch tokenTextType message offset (offset + i) r).1 (offset + i)
        (offset + r.place) ∧
      (addSearch tokenTextType message offset (offset + i) r).2 = offset + r.place := by
  have hfits := hr.fits
  have hle := hr.le
  have hview_fits := hview.fits
  have hstart : offset + (r.place - r.result.length) + r.result.length = offset + r.place := by omega
  rw [addSearch]
  refine ⟨?_, hstart⟩
  dsimp only
  refine (Cuts.textToken (b := offset + (r.place - r.result.length)) (by omega) (by omega)).append
    ?_ (by omega) (by omega)
  by_cases hempty : r.result.isEmpty = true
  · have hlength : r.result.length = 0 := by
      rw [List.isEmpty_iff.mp hempty]
      rfl
    rw [if_pos hempty, hlength, Nat.sub_zero]
    exact .nil _
  · rw [if_neg hempty]
    have htext : r.result = slice message (offset + (r.place - r.result.length)) (offset + r.place) := by
      rw [← hview.slice hle]
      exact hr.result
    have hsingle := @Cuts.single message (offset + (r.place - r.result.length)) (offset + r.place)
      (.url r.scheme) (by omega) (by omega)
    rwa [← htext] at hsingle

/-- A search in the view of a range. -/
structure SearchCall where
  matcher : UriMatcher
  place : Nat
  checkPunct : Bool

namespace SearchCall

def search (t : UriTraits) (sv : WString) (c : SearchCall) : Option UriSearch :=
  c.matcher.search t sv c.place [] c.checkPunct

def Overruns (t : UriTraits) (sv : WString) (c : SearchCall) : Prop :=
  UriMatcher.SearchOverruns t sv c.matcher c.place c.checkPunct

/-- A search is followed by the next one where it does not end with the range. -/
def Next (t : UriTraits) (sv : WString) (c c' : SearchCall) : Prop :=
  ∃ r, c.search t sv = some r ∧ r.place ≠ sv.length ∧
    c' = { matcher := r.matcher, place := r.place, checkPunct := true }

end SearchCall

open SearchCall

/-- The searches end, and run out of the text just where one of them does. -/
theorem parseLoop_cases {offset fuel : Nat} {c : SearchCall} {r : UriSearch}
    (hview : Views message sv offset) (hc : c.search t sv = some r) (hsafe : ¬ c.Overruns t sv)
    (hr : r.From sv c.place) (hfuel : sv.length - r.place < fuel) :
    (parseLoop t tokenTextType message sv offset sv.length r (offset + c.place) fuel = none ∧
      ∃ c', ReflTransGen (Next t sv) c c' ∧ c'.Overruns t sv) ∨
    ((∀ c', ReflTransGen (Next t sv) c c' → ¬ c'.Overruns t sv) ∧
      ∃ m tokens, parseLoop t tokenTextType message sv offset sv.length r (offset + c.place) fuel =
          some (m, tokens) ∧
        m.Ready ∧ Cuts message tokens (offset + c.place) (offset + sv.length)) := by
  induction fuel generalizing c r with
  | zero => exact absurd hfuel (Nat.not_lt_zero _)
  | succ fuel ih =>
    have hlt := hr.lt
    have hle := hr.le
    have hfits := hview.fits
    obtain ⟨hcuts, hpos⟩ := @addSearch_cuts tokenTextType message sv offset c.place r hview hr
    rw [parseLoop]
    by_cases hend : r.place ≠ sv.length
    · rw [if_pos hend]
      have hnext : Next t sv c { matcher := r.matcher, place := r.place, checkPunct := true } :=
        ⟨r, hc, hend, rfl⟩
      have honly : ∀ c', Next t sv c c' →
          c' = { matcher := r.matcher, place := r.place, checkPunct := true } := by
        rintro c' ⟨r', hr', -, rfl⟩
        obtain rfl := Option.some.inj (hc.symm.trans hr')
        rfl
      dsimp only
      rw [hpos]
      rcases @UriMatcher.search_cases t sv r.matcher r.place true hr.ready
        (Nat.lt_of_le_of_ne hle hend) with ⟨hnone, hover⟩ | ⟨hsafe', r', hsearch, hr'⟩
      · rw [hnone]
        exact .inl ⟨rfl, _, .single hnext, hover⟩
      rw [hsearch]
      dsimp only [Option.bind_some]
      have hlt' := hr'.lt
      rcases @ih { matcher := r.matcher, place := r.place, checkPunct := true } r' hsearch hsafe' hr'
        (by omega) with ⟨hnone, c', hc', hover⟩ | ⟨hall, m, tokens, htokens, hready, hrest⟩
      · rw [hnone]
        exact .inl ⟨rfl, c', .head hnext hc', hover⟩
      · rw [htokens]
        refine .inr ⟨fun c' hc' => ?_, m, _, rfl, hready, hcuts.append hrest (by omega) ?_⟩
        · rcases ReflTransGen.cases_head hc' with rfl | ⟨c'', hc'', hafter⟩
          · exact hsafe
          · obtain rfl := honly c'' hc''
            exact hall c' hafter
        · exact Nat.add_le_add_left hle offset
    · have heq : r.place = sv.length := Decidable.not_not.mp hend
      have hall : ∀ c', ReflTransGen (Next t sv) c c' → ¬ c'.Overruns t sv := by
        intro c' hc'
        rcases ReflTransGen.cases_head hc' with rfl | ⟨c'', ⟨r', hr', hne, -⟩, -⟩
        · exact hsafe
        · obtain rfl := Option.some.inj (hc.symm.trans hr')
          exact absurd heq hne
      rw [if_neg hend]
      by_cases hempty : r.result.isEmpty = true
      · rw [if_pos hempty]
        exact .inr ⟨hall, r.matcher, _, rfl, hr.ready, Cuts.textToken (by omega) hfits⟩
      · rw [if_neg hempty]
        dsimp only
        rw [hpos, heq]
        rw [heq] at hcuts
        exact .inr ⟨hall, r.matcher, _, rfl, hr.ready,
          hcuts.append (Cuts.textToken (Nat.le_refl _) hfits) (by omega) (Nat.le_refl _)⟩

/-- A search of the range runs out of the text. -/
def RangeOverruns (t : UriTraits) (sv : WString) (m : UriMatcher) : Prop :=
  ∃ c, ReflTransGen (Next t sv) { matcher := m, place := 0, checkPunct := checkPunctUrl sv } c ∧
    c.Overruns t sv

theorem substr_inside {range : TextRange} (h : TextRange.Inside message range) :
    ∃ sv, substr message range.offset range.size = some sv ∧
      Views message sv range.offset.toNat ∧ sv.length = range.size.toNat := by
  have hoffset := h.offset_nonneg
  have hsize := h.size_nonneg
  have hstop := h.stop_le
  rw [TextRange.stop] at hstop
  have hlength : ((message.drop range.offset.toNat).take range.size.toNat).length =
      range.size.toNat := by
    rw [List.length_take, List.length_drop]
    omega
  refine ⟨_, ?_, ⟨?_, ?_⟩, hlength⟩
  · rw [substr, if_neg (by omega), if_neg (by omega)]
  · rw [hlength]
    omega
  · rw [hlength, slice, List.drop_take, Nat.add_sub_cancel_left]

theorem search_empty {m : UriMatcher} (checkPunct : Bool) :
    m.search t [] 0 [] checkPunct = some { matcher := m, place := 0, result := [], scheme := .undefined } :=
  rfl

/-- There is nothing to run out of. -/
theorem empty_safe {m : UriMatcher} (checkPunct : Bool) :
    ¬ UriMatcher.SearchOverruns t [] m 0 checkPunct := by
  rintro ⟨s, ⟨hsearched, -⟩, -⟩
  cases checkPunct <;> exact absurd hsearched (by decide)

theorem parseRange_cases {range : TextRange} {m : UriMatcher} (hready : m.Ready)
    (h : TextRange.Inside message range) :
    (parseRange t tokenTextType message range m = none ∧
      ∃ sv, substr message range.offset range.size = some sv ∧ RangeOverruns t sv m) ∨
    ((∀ sv, substr message range.offset range.size = some sv → ¬ RangeOverruns t sv m) ∧
      ∃ m' tokens, parseRange t tokenTextType message range m = some (m', tokens) ∧ m'.Ready ∧
        Cuts message tokens range.offset.toNat (range.offset.toNat + range.size.toNat)) := by
  obtain ⟨sv, hsv, hview, hlength⟩ := substr_inside h
  rw [parseRange, hsv, ← hlength]
  dsimp only [Option.bind_some]
  by_cases hempty : sv = []
  · subst hempty
    rw [search_empty]
    refine .inr ⟨?_, m, _, rfl, hready, Cuts.textToken (Nat.le_add_right _ _) hview.fits⟩
    rintro sv' hsv' ⟨c, hc, hover⟩
    obtain rfl := Option.some.inj hsv'
    rcases ReflTransGen.cases_head hc with rfl | ⟨c', ⟨r, hr, hplace, -⟩, -⟩
    · exact empty_safe _ hover
    · obtain rfl := Option.some.inj (search_empty (m := m) _ |>.symm.trans hr)
      exact hplace rfl
  have hpos : 0 < sv.length := List.length_pos_iff.mpr hempty
  rcases @UriMatcher.search_cases t sv m 0 (checkPunctUrl sv) hready hpos with
    ⟨hnone, hover⟩ | ⟨hsafe, r, hr, hfrom⟩
  · rw [hnone]
    exact .inl ⟨rfl, sv, rfl, _, .refl, hover⟩
  rw [hr]
  rcases @parseLoop_cases t tokenTextType message sv range.offset.toNat (sv.length + 1)
    { matcher := m, place := 0, checkPunct := checkPunctUrl sv } r hview hr hsafe hfrom (by omega) with
    ⟨hnone, c, hc, hover⟩ | ⟨hall, m', tokens, htokens, hready', hcuts⟩
  · exact .inl ⟨hnone, sv, rfl, c, hc, hover⟩
  · refine .inr ⟨?_, m', tokens, htokens, hready', hcuts⟩
    rintro sv' hsv' ⟨c, hc, hover⟩
    obtain rfl := Option.some.inj hsv'
    exact hall c hc hover

/-- A search of one of the ranges runs out of the text. -/
def RangesOverrun (t : UriTraits) (tokenTextType : TokenType) (message : WString) :
    List TextRange → UriMatcher → Prop
  | [], _ => False
  | range :: ranges, m =>
    (∃ sv, substr message range.offset range.size = some sv ∧ RangeOverruns t sv m) ∨
      ∃ r, parseRange t tokenTextType message range m = some r ∧
        RangesOverrun t tokenTextType message ranges r.1

/-- The tokens are cut out of the message, and cover each place as often as the ranges do. -/
structure CutsRanges (message : WString) (tokens : List MessageToken) (ranges : List TextRange) :
    Prop where
  cut : ∀ token ∈ tokens, IsCut MessageToken.start MessageToken.text message token
  count : ∀ k, tokens.countP (covers MessageToken.start MessageToken.text k) =
    ranges.countP (TextRange.holds k)

namespace CutsRanges

variable {tokens rest : List MessageToken} {ranges others : List TextRange} {range : TextRange}

theorem nil : CutsRanges message [] [] := ⟨fun _ h => absurd h List.not_mem_nil, fun _ => rfl⟩

theorem append (h : CutsRanges message tokens ranges) (hrest : CutsRanges message rest others) :
    CutsRanges message (tokens ++ rest) (ranges ++ others) := by
  refine ⟨fun token htoken => ?_, fun k => ?_⟩
  · rcases List.mem_append.mp htoken with htoken | htoken
    · exact h.cut token htoken
    · exact hrest.cut token htoken
  · rw [List.countP_append, List.countP_append, h.count, hrest.count]

theorem single (hinside : TextRange.Inside message range)
    (h : Cuts message tokens range.offset.toNat (range.offset.toNat + range.size.toNat)) :
    CutsRanges message tokens [range] := by
  refine ⟨h.cut, fun k => (h.count k).trans ?_⟩
  have hoffset := hinside.offset_nonneg
  have hsize := hinside.size_nonneg
  rw [List.countP_singleton]
  simp only [TextRange.holds_iff, TextRange.stop]
  refine if_congr ?_ rfl rfl
  omega

end CutsRanges

theorem parseRanges_cases {ranges : List TextRange} {m : UriMatcher} (hready : m.Ready)
    (h : ∀ range ∈ ranges, TextRange.Inside message range) :
    (parseRanges t tokenTextType message ranges m = none ∧
      RangesOverrun t tokenTextType message ranges m) ∨
    (¬ RangesOverrun t tokenTextType message ranges m ∧
      ∃ m' tokens, parseRanges t tokenTextType message ranges m = some (m', tokens) ∧
        CutsRanges message tokens ranges) := by
  induction ranges generalizing m with
  | nil => exact .inr ⟨fun h => h, m, [], rfl, .nil⟩
  | cons range ranges ih =>
    obtain ⟨hrange, hranges⟩ := List.forall_mem_cons.mp h
    rw [parseRanges, RangesOverrun]
    rcases @parseRange_cases t tokenTextType message range m hready hrange with
      ⟨hnone, hover⟩ | ⟨hsafe, m', tokens, htokens, hready', hcuts⟩
    · rw [hnone]
      exact .inl ⟨rfl, .inl hover⟩
    rw [htokens]
    dsimp only [Option.bind_some]
    rcases ih hready' hranges with ⟨hnone, hover⟩ | ⟨hsafe', m'', rest, hrest, hcuts'⟩
    · rw [hnone]
      exact .inl ⟨rfl, .inr ⟨_, rfl, hover⟩⟩
    · rw [hrest]
      refine .inr ⟨?_, m'', _, rfl, (CutsRanges.single hrange hcuts).append hcuts'⟩
      rintro (⟨sv, hsv, hover⟩ | ⟨r, hr, hover⟩)
      · exact hsafe sv hsv hover
      · obtain rfl := Option.some.inj hr
        exact hsafe' hover

end MessageTokenizer

end Icq.Common
