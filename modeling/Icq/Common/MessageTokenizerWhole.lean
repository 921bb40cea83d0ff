import Icq.Archive.FormatsSorted
import Icq.Common.MessageTokenizerRanges
import Icq.Common.RkSearcherFiled

/-! The tokens of a message are the whole of it, where no search runs out of the text. -/

namespace Icq.Common
open Icq.Archive Icq.Lib

namespace TextRange

variable {victim r : TextRange} {ranges : List TextRange} {e n : Int}

/-- What is left begins at `e`, and the ranges in front of it end there. -/
structure Left (n e : Int) (ranges : List TextRange) : Prop where
  nonneg : 0 ≤ e
  le : e ≤ n
  inside : ∀ r ∈ ranges, 0 ≤ r.offset ∧ 0 ≤ r.size ∧ r.stop ≤ n
  last : e < n → ∃ front, ranges = front ++ [{ offset := e, size := n - e }]

/-- The place from which on the text is left behind a victim. -/
def after (e : Int) (victim : TextRange) : Int := if victim.size = 0 then e else victim.stop

theorem countP_nonemptyRange (offset size : Int) (k : Nat) :
    (nonemptyRange offset size).countP (holds k) =
      if offset ≤ k ∧ (k : Int) < offset + size then 1 else 0 := by
  rw [nonemptyRange]
  split
  · rw [List.countP_singleton]
    exact if_congr holds_iff rfl rfl
  · rw [if_neg (by omega)]
    rfl

theorem inside_nonemptyRange {offset size : Int} (hoffset : 0 ≤ offset) (hsize : 0 ≤ size)
    (hstop : offset + size ≤ n) :
    ∀ r ∈ nonemptyRange offset size, 0 ≤ r.offset ∧ 0 ≤ r.size ∧ r.stop ≤ n := by
  intro r hr
  rw [nonemptyRange] at hr
  split at hr
  · obtain rfl := List.mem_singleton.mp hr
    exact ⟨hoffset, hsize, hstop⟩
  · cases hr

/-- A victim that is cut out of the last range leaves its places to the others. -/
theorem Left.excludeRange (h : Left n e ranges) (hsize : 0 ≤ victim.size)
    (hvictim : victim.size = 0 ∨ e ≤ victim.offset) (hstop : victim.stop ≤ n) :
    Left n (after e victim) (excludeRange ranges victim) ∧ ∀ k : Nat,
      (Common.excludeRange ranges victim).countP (holds k) + [victim].countP (holds k) =
        ranges.countP (holds k) := by
  rw [after]
  by_cases hempty : victim.size = 0
  · have hkept : Common.excludeRange ranges victim = ranges := by
      rw [Common.excludeRange]
      split
      · rfl
      · rw [if_pos (.inl hempty)]
    rw [if_pos hempty, hkept]
    refine ⟨h, fun k => ?_⟩
    rw [List.countP_singleton, if_neg, Nat.add_zero]
    rw [holds_iff, stop]
    omega
  have hoffset := hvictim.resolve_left hempty
  have hnonneg := h.nonneg
  rw [stop] at hstop
  obtain ⟨front, rfl⟩ := h.last (by omega)
  have hfront := fun r hr => h.inside r (List.mem_append_left _ hr)
  rw [if_neg hempty, Common.excludeRange, List.getLast?_concat, List.dropLast_concat]
  have hinside : ¬ (victim.size = 0 ∨ victim.offset < (TextRange.mk e (n - e)).offset ∨
      (TextRange.mk e (n - e)).stop < victim.stop) := by
    dsimp only [stop]
    omega
  dsimp only
  have hend : (TextRange.mk e (n - e)).stop = n := by
    dsimp only [stop]
    omega
  rw [if_neg hinside, hend, stop]
  split
  · rename_i heq
    subst heq
    refine ⟨⟨by omega, hstop, ?_, fun hlt => ⟨front, ?_⟩⟩, fun k => ?_⟩
    · refine List.forall_mem_append.mpr ⟨hfront, inside_nonemptyRange ?_ ?_ ?_⟩
      all_goals omega
    · rw [nonemptyRange, if_pos (by omega), Int.sub_sub]
    · rw [List.countP_append, List.countP_append, countP_nonemptyRange, List.countP_singleton,
        List.countP_singleton]
      simp only [holds_iff, stop]
      rw [Nat.add_assoc]
      refine congrArg (List.countP (holds k) front + ·) ?_
      split <;> split <;> split <;> omega
  · refine ⟨⟨by omega, hstop, ?_, fun hlt => ⟨front ++ nonemptyRange e (victim.offset - e), ?_⟩⟩,
      fun k => ?_⟩
    · refine List.forall_mem_append.mpr ⟨List.forall_mem_append.mpr ⟨hfront, inside_nonemptyRange ?_ ?_ ?_⟩,
        inside_nonemptyRange ?_ ?_ ?_⟩
      all_goals omega
    · rw [nonemptyRange, nonemptyRange, if_pos (by omega), if_pos (by omega)]
    · rw [List.countP_append, List.countP_append, List.countP_append, countP_nonemptyRange,
        countP_nonemptyRange, List.countP_singleton, List.countP_singleton]
      simp only [holds_iff, stop]
      rw [Nat.add_assoc, Nat.add_assoc]
      refine congrArg (List.countP (holds k) front + ·) ?_
      split <;> split <;> split <;> split <;> omega

/-- A range that comes before another one, unless one of them is empty. -/
def Before (u v : TextRange) : Prop := u.size = 0 ∨ v.size = 0 ∨ u.stop ≤ v.offset

theorem Left.foldl {victims : List TextRange} (h : Left n e ranges)
    (hsize : ∀ v ∈ victims, 0 ≤ v.size) (hstop : ∀ v ∈ victims, v.stop ≤ n)
    (hstart : ∀ v ∈ victims, v.size = 0 ∨ e ≤ v.offset) (hbefore : victims.Pairwise Before) :
    (∃ e', Left n e' (victims.foldl Common.excludeRange ranges)) ∧ ∀ k : Nat,
      (victims.foldl Common.excludeRange ranges).countP (holds k) + victims.countP (holds k) =
        ranges.countP (holds k) := by
  induction victims generalizing e ranges with
  | nil => exact ⟨⟨e, h⟩, fun _ => rfl⟩
  | cons v victims ih =>
    obtain ⟨hv, hsize⟩ := List.forall_mem_cons.mp hsize
    obtain ⟨hvstop, hstop⟩ := List.forall_mem_cons.mp hstop
    obtain ⟨hvstart, hstart⟩ := List.forall_mem_cons.mp hstart
    obtain ⟨hvbefore, hbefore⟩ := List.pairwise_cons.mp hbefore
    obtain ⟨hleft, hcount⟩ := h.excludeRange hv hvstart hvstop
    have hstart' : ∀ w ∈ victims, w.size = 0 ∨ after e v ≤ w.offset := by
      intro w hw
      rw [after]
      split
      · exact hstart w hw
      · rename_i hne
        exact (hvbefore w hw).resolve_left hne
    obtain ⟨hexists, hall⟩ := ih hleft hsize hstop hstart' hbefore
    refine ⟨hexists, fun k => ?_⟩
    have hsplit : (v :: victims).countP (holds k) =
        [v].countP (holds k) + victims.countP (holds k) := @List.countP_append _ (holds k) [v] victims
    rw [List.foldl_cons, hsplit, ← hcount k, ← hall k]
    omega

end TextRange

namespace MessageTokenizer

variable {t : UriTraits} {tokenTextType : TokenType} {message : WString} {formats : Format Int32}
  {m : UriMatcher}

/-- The formats that are kept as they are lie inside the text, and no two of them share a place. -/
structure Excludes (message : WString) (formats : Format Int32) : Prop where
  sorted : FormatData.Sorted formats
  inside : ∀ f ∈ formats.filter isExcluded, TextRange.Inside message (.ofFormat f)
  apart : (formats.filter isExcluded).Pairwise fun f g => ∀ k : Nat,
    ¬ ((TextRange.ofFormat f).holds k = true ∧ (TextRange.ofFormat g).holds k = true)

theorem Excludes.before (h : Excludes message formats) :
    ((formats.filter isExcluded).map TextRange.ofFormat).Pairwise TextRange.Before := by
  refine List.pairwise_map.mpr ?_
  refine List.Pairwise.imp_of_mem ?_ ((h.sorted.filter isExcluded).and h.apart)
  rintro f g hf hg ⟨hle, hapart⟩
  have hoffset : f.range.offset.toInt ≤ g.range.offset.toInt := by
    rw [FormatData.not_lessThan_iff, RangeFormat.place, RangeFormat.place] at hle
    rcases Prod.Lex.toLex_le_toLex.mp hle with hlt | ⟨heq, -⟩
    · exact Int.le_of_lt hlt
    · exact Int.le_of_eq heq
  have hin := h.inside f hf
  have hin' := h.inside g hg
  have hsize := hin'.size_nonneg
  have hnonneg := hin'.offset_nonneg
  by_cases hf : (TextRange.ofFormat f).size = 0
  · exact .inl hf
  by_cases hg : (TextRange.ofFormat g).size = 0
  · exact .inr (.inl hg)
  refine .inr (.inr ?_)
  by_contra hover
  refine hapart (TextRange.ofFormat g).offset.toNat ?_
  rw [TextRange.holds_iff, TextRange.holds_iff, Int.toNat_of_nonneg hnonneg]
  refine ⟨⟨hoffset, Int.not_le.mp hover⟩, Int.le_refl _, ?_⟩
  rw [TextRange.stop]
  omega

theorem messageRange_size (h : message.length < 2 ^ 31) :
    messageRange message = { offset := 0, size := message.length } := by
  rw [messageRange, Int32.toInt_ofNat_of_lt h]

/-- What the ranges that are left and the formats that are kept hold is each place once. -/
theorem Excludes.unformatted (h : Excludes message formats) (hlength : message.length < 2 ^ 31) :
    (∀ r ∈ unformattedRanges message formats, TextRange.Inside message r) ∧
      ∀ k < message.length,
        (unformattedRanges message formats).countP (TextRange.holds k) +
          ((formats.filter isExcluded).map TextRange.ofFormat).countP (TextRange.holds k) = 1 := by
  have hleft : TextRange.Left message.length 0 [messageRange message] := by
    rw [messageRange_size hlength]
    refine ⟨Int.le_refl 0, Int.natCast_nonneg _, ?_, fun _ => ⟨[], ?_⟩⟩
    · intro r hr
      obtain rfl := List.mem_singleton.mp hr
      exact ⟨Int.le_refl 0, Int.natCast_nonneg _, Int.le_of_eq (Int.zero_add _)⟩
    · rw [Int.sub_zero, List.nil_append]
  have hin : ∀ v ∈ (formats.filter isExcluded).map TextRange.ofFormat,
      TextRange.Inside message v := List.forall_mem_map.mpr h.inside
  obtain ⟨⟨e, hall⟩, hcount⟩ := hleft.foldl (fun v hv => (hin v hv).size_nonneg)
    (fun v hv => (hin v hv).stop_le) (fun v hv => .inr (hin v hv).offset_nonneg) h.before
  rw [List.foldl_map] at hall hcount
  refine ⟨fun r hr => ?_, fun k hk => (hcount k).trans ?_⟩
  · obtain ⟨hoffset, hsize, hstop⟩ := hall.inside r hr
    exact ⟨hoffset, hsize, hstop⟩
  · rw [List.countP_singleton, if_pos]
    rw [messageRange_size hlength, TextRange.holds_iff, TextRange.stop]
    dsimp only
    exact ⟨Int.natCast_nonneg k, by omega⟩

theorem formatToken_cuts {f : RangeFormat Int32} (h : TextRange.Inside message (.ofFormat f)) :
    ∃ token, formatToken tokenTextType message f = some token ∧
      CutsRanges message [token] [.ofFormat f] := by
  obtain ⟨sv, hsv, hview, hlength⟩ := substr_inside h
  have hfits := hview.fits
  have hsingle := @Cuts.single message _ _ tokenTextType (Nat.le_add_right _ _) hfits
  rw [← hview.eq, hlength, Int.toNat_of_nonneg h.offset_nonneg] at hsingle
  refine ⟨_, ?_, .single h hsingle⟩
  rw [formatToken, hsv]
  rfl

theorem mapM_formatToken {excluded : Format Int32}
    (h : ∀ f ∈ excluded, TextRange.Inside message (.ofFormat f)) :
    ∃ tokens, excluded.mapM (formatToken tokenTextType message) = some tokens ∧
      CutsRanges message tokens (excluded.map TextRange.ofFormat) := by
  induction excluded with
  | nil => exact ⟨[], rfl, .nil⟩
  | cons f excluded ih =>
    obtain ⟨hf, hrest⟩ := List.forall_mem_cons.mp h
    obtain ⟨token, htoken, hcuts⟩ := @formatToken_cuts tokenTextType message f hf
    obtain ⟨tokens, htokens, hcuts'⟩ := ih hrest
    refine ⟨token :: tokens, ?_, hcuts.append hcuts'⟩
    rw [List.mapM_cons, htoken, htokens]
    rfl

theorem parseMessage_cases (hready : m.Ready) (h : Excludes message formats)
    (hlength : message.length < 2 ^ 31) :
    (parseMessage t tokenTextType m message formats = none ∧
      RangesOverrun t tokenTextType message (unformattedRanges message formats) m) ∨
    (¬ RangesOverrun t tokenTextType message (unformattedRanges message formats) m ∧
      ∃ r, parseMessage t tokenTextType m message formats = some r ∧
        CutsRanges message r.2 ((formats.filter isExcluded).map TextRange.ofFormat ++
          unformattedRanges message formats)) := by
  have hparse : parseMessage t tokenTextType m message formats =
      ((formats.filter isExcluded).mapM (formatToken tokenTextType message)).bind fun tokens =>
        (parseRanges t tokenTextType message (unformattedRanges message formats) m).map
          fun r => (r.1, tokens ++ r.2) := by
    rw [parseMessage]
    split
    · rename_i hempty
      obtain rfl := List.isEmpty_iff.mp hempty
      show parseRange t tokenTextType message (messageRange message) m =
        (parseRanges t tokenTextType message [messageRange message] m).map fun r => (r.1, [] ++ r.2)
      rw [parseRanges]
      cases parseRange t tokenTextType message (messageRange message) m with
      | none => rfl
      | some r => simp [parseRanges]
    · rfl
  obtain ⟨tokens, htokens, hcuts⟩ := @mapM_formatToken tokenTextType message _ h.inside
  rw [hparse, htokens]
  dsimp only [Option.bind_some]
  rcases @parseRanges_cases t tokenTextType message _ m hready (h.unformatted hlength).1 with
    ⟨hnone, hover⟩ | ⟨hsafe, m', rest, hrest, hcuts'⟩
  · rw [hnone]
    exact .inl ⟨rfl, hover⟩
  · rw [hrest]
    exact .inr ⟨hsafe, _, rfl, hcuts.append hcuts'⟩

end MessageTokenizer

/-- The matchers of a thread, after the searches that it has made. -/
inductive UriMatcher.Reached (t : UriTraits) : UriMatcher → Prop where
  | fresh {m : UriMatcher} : ofTraits t = some m → Reached t m
  | search {m : UriMatcher} {text : WString} {i : Nat} {checkPunct : Bool} {r : UriSearch} :
      Reached t m → i ≤ text.length → m.search t text i [] checkPunct = some r → Reached t r.matcher

theorem SchemeType.signatures_distinct : (all.map signature).Nodup := by decide

theorem SchemeType.signatures_long : ∀ scheme ∈ all, 4 ≤ scheme.signature.length := by decide

namespace UriMatcher

variable {t : UriTraits} {m : UriMatcher}

theorem ofTraits_ready (h : ofTraits t = some m) : m.Ready := by
  obtain ⟨schemes, hschemes, h⟩ := Option.bind_eq_some_iff.mp h
  obtain ⟨domains, -, rfl⟩ := Option.map_eq_some_iff.mp h
  rcases @RkSearcherSset.ofList_spec _ _ t.schemeHashing SchemeType.signature _ SchemeType.all
    SchemeType.signatures_distinct SchemeType.signatures_long SchemeType.all.length with
    ⟨hnone, -⟩ | ⟨s, hs, hfiled, -⟩
  · cases hnone.symm.trans hschemes
  · obtain rfl := Option.some.inj (hs.symm.trans hschemes)
    exact fun scheme hscheme => hfiled.patterns.mem_iff.mp hscheme

theorem Reached.ready (h : Reached t m) : m.Ready := by
  induction h with
  | fresh h => exact ofTraits_ready h
  | @search m text i checkPunct r _ hi hsearch ih =>
    rcases Nat.lt_or_eq_of_le hi with hlt | rfl
    · rcases @search_cases t text m i checkPunct ih hlt with ⟨hnone, -⟩ | ⟨-, r', hr', hfrom⟩
      · cases hnone.symm.trans hsearch
      · obtain rfl := Option.some.inj (hr'.symm.trans hsearch)
        exact hfrom.ready
    · rw [UriMatcher.search, if_pos rfl] at hsearch
      obtain rfl := Option.some.inj hsearch
      exact ih

end UriMatcher

namespace MessageTokenizer
open UriMatcher

/-- The tokens are read to their end, and their texts are the message. -/
theorem tokenizes_whole (t : UriTraits) (tokenTextType : TokenType) (m : UriMatcher) (message : WString)
    (formats : Format Int32) (hm : Reached t m) (hlength : message.length < 2 ^ 31)
    (h : Excludes message formats) :
    ((∃ tokens, Tokenizes t tokenTextType m message formats tokens) ∧
      ∀ tokens, Tokenizes t tokenTextType m message formats tokens →
        tokens.flatMap MessageToken.text = message) ↔
      ¬ RangesOverrun t tokenTextType message (unformattedRanges message formats) m := by
  rcases @parseMessage_cases t tokenTextType message formats m hm.ready h hlength with
    ⟨hnone, hover⟩ | ⟨hsafe, r, hr, hcuts⟩
  · refine iff_of_false ?_ fun hsafe => hsafe hover
    rintro ⟨⟨tokens, r, hr, -⟩, -⟩
    cases hnone.symm.trans hr
  refine iff_of_true ⟨?_, ?_⟩ hsafe
  · have : Std.Total fun x y : MessageToken => x.formattedSourceOffset ≤ y.formattedSourceOffset :=
      ⟨fun x y => Int.le_total _ _⟩
    have : IsTrans MessageToken fun x y => x.formattedSourceOffset ≤ y.formattedSourceOffset :=
      ⟨fun _ _ _ => Int.le_trans⟩
    exact ⟨_, r, hr, List.perm_insertionSort _ _, List.pairwise_insertionSort
      (fun x y : MessageToken => x.formattedSourceOffset ≤ y.formattedSourceOffset) r.2⟩
  · rintro tokens ⟨r', hr', hperm, hsorted⟩
    obtain rfl := Option.some.inj (hr.symm.trans hr')
    refine flatMap_eq_of_covered hcuts.cut (fun k hk => (hcuts.count k).trans ?_) hperm ?_
    · rw [List.countP_append, Nat.add_comm]
      exact (h.unformatted hlength).2 k hk
    · exact hsorted.imp Int.toNat_le_toNat

/-- An expression that matches one text. -/
def onlyAt (text : WString) (position length : Nat) (h : position + length ≤ text.length) :
    UriExpression where
  search found := if found = text then some (position, length) else none
  inside hsearch := by
    split at hsearch
    · rename_i heq
      cases hsearch
      exact heq ▸ h
    · cases hsearch

/-- A client with `icq` registered, where a URL is found behind the dot. -/
def icqTraits : UriTraits where
  expressions :=
    { url := onlyAt (wide ".icq://x") 1 7 (by decide)
      email := onlyAt (wide "a@b.org") 0 7 (by decide)
      localhost := onlyAt (wide "localhost") 0 9 (by decide)
      literal := by
        intro text length hsearch
        dsimp only [onlyAt] at hsearch
        split at hsearch
        · rename_i heq
          cases hsearch
          rw [heq]
          decide
        · cases hsearch }
  settings := { registered := [.icq], urlFtpProtocolsAllowed := true }
  domains := [wide ".com", wide ".org"]
  schemeHash l := l.foldl (fun a b => a * 256 + b.toNat) 0
  domainHash l := l.foldl (fun a b => a * 65536 + b.toNat) 0

theorem tokenizes_icqBehindHttp : ∃ m, ofTraits icqTraits = some m ∧
    Excludes (wide "http://.icq://x") [] ∧
    ¬ ∃ tokens, Tokenizes icqTraits .text m (wide "http://.icq://x") [] tokens := by
  obtain ⟨m, hm⟩ : ∃ m, ofTraits icqTraits = some m :=
    Option.isSome_iff_exists.mp (by decide +kernel)
  refine ⟨m, hm, ⟨.nil, fun _ h => absurd h List.not_mem_nil, .nil⟩, ?_⟩
  rintro ⟨tokens, r, hr, -⟩
  have hnone : ((ofTraits icqTraits).bind fun m =>
      parseMessage icqTraits .text m (wide "http://.icq://x") []).isNone = true := by decide +kernel
  rw [hm, Option.bind_some, hr] at hnone
  cases hnone

/-- The same client, where the URL is a host. -/
def hostTraits : UriTraits :=
  { icqTraits with
    expressions := { icqTraits.expressions with url := onlyAt (wide "x.org") 0 5 (by decide) } }

/-- A bold letter, and a mention behind it. -/
def boldAndMention : Format Int32 :=
  [{ type := .bold, range := { size := 1 } }, { type := .mention, range := { offset := 2, size := 2 } }]

theorem tokenizes_whole_mention : ∃ m, ofTraits hostTraits = some m ∧
    (∃ tokens, Tokenizes hostTraits .text m (wide "a @b http://x.org") boldAndMention tokens) ∧
    ∀ tokens, Tokenizes hostTraits .text m (wide "a @b http://x.org") boldAndMention tokens →
      tokens.flatMap MessageToken.text = wide "a @b http://x.org" := by
  obtain ⟨m, hm⟩ : ∃ m, ofTraits hostTraits = some m :=
    Option.isSome_iff_exists.mp (by decide +kernel)
  have hsome : ((ofTraits hostTraits).bind fun m =>
      parseMessage hostTraits .text m (wide "a @b http://x.org") boldAndMention).isSome = true := by
    decide +kernel
  have hexcludes : Excludes (wide "a @b http://x.org") boldAndMention :=
    ⟨by decide, List.forall_mem_singleton.mpr ⟨by decide, by decide, by decide⟩,
      List.pairwise_singleton _ _⟩
  rw [hm, Option.bind_some] at hsome
  refine ⟨m, hm, (tokenizes_whole hostTraits .text m _ _ (.fresh hm) (by decide) hexcludes).mpr ?_⟩
  rcases parseMessage_cases (Reached.fresh hm).ready hexcludes (by decide) with ⟨hnone, -⟩ | ⟨hsafe, -⟩
  · rw [hnone] at hsome
    cases hsome
  · exact hsafe

end MessageTokenizer

end Icq.Common
