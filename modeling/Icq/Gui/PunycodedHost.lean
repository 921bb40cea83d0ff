import Icq.Gui.Punyencode
import Icq.Lib.Parser
import Icq.Lib.Piecewise

/-! An authority whose labels are encoded for a link. -/

namespace Icq.Gui
open Icq.Lib

def localBufferSize : Nat := 256

/-- In front of each label that is encoded. -/
def xnPrefix : List Nat := [0x78, 0x6E, 0x2D, 0x2D]

/-- What is written into the buffer counts only without an error. -/
def writtenCode (source : List Nat) : List Nat :=
  match punyencode source with
  | .error _ => []
  | .ok code => code

def appendPunycoded (letterOrDigit : Nat → Bool) (source encoded : List Nat) :
    Outcome (List Nat) :=
  if source.isEmpty then .ok encoded
  else if source.all letterOrDigit then .ok (encoded ++ source)
  else
    let code := writtenCode source
    -- As many units are read as were put out, also from behind the buffer.
    if code.length ≤ localBufferSize then .ok (encoded ++ xnPrefix ++ code) else .crashed

def isSeparator (c : Nat) : Bool := c == 0x2E || c == 0x3A || c == 0x40

def toPunycodedLoop (letterOrDigit : Nat → Bool) : Nat → List Nat → List Nat → Outcome (List Nat)
  | 0, _, result => .ok result
  | fuel + 1, source, result =>
    let label := source.takeWhile fun c => !isSeparator c
    match source.dropWhile fun c => !isSeparator c with
    | [] => appendPunycoded letterOrDigit label result
    | c :: rest => do
      let result ← appendPunycoded letterOrDigit label result
      toPunycodedLoop letterOrDigit fuel rest (result ++ [c])

def toPunycoded (letterOrDigit : Nat → Bool) (source : List Nat) : Outcome (List Nat) :=
  toPunycodedLoop letterOrDigit (source.length + 1) source []

def IsAscii (label : List Nat) : Prop := ∀ c ∈ label, c < 0x80

instance (label : List Nat) : Decidable (IsAscii label) :=
  inferInstanceAs (Decidable (∀ c ∈ label, c < 0x80))

/-- The label is in the host what it was in the text. -/
structure LabelKept (letterOrDigit : Nat → Bool) (label out : List Nat) : Prop where
  ascii : IsAscii label → out = label
  symbols : ¬IsAscii label → (∃ c ∈ label, letterOrDigit c = false) →
    ∃ code cps, out = xnPrefix ++ code ∧ codePoints label = some cps ∧
      Punycode.decode code = some (withoutHigh cps)

/-- All units are letters and digits; or the label is not of ASCII, has its surrogates paired, not
both a code point to be left out and one of two units, and its code fits into the buffer. -/
def LabelFits (letterOrDigit : Nat → Bool) (label : List Nat) : Prop :=
  (∀ c ∈ label, letterOrDigit c = true) ∨
    ¬IsAscii label ∧ ∃ cps, codePoints label = some cps ∧
      ¬((∃ c ∈ cps, isHigh c = true) ∧ ∃ c ∈ cps, 0x10000 ≤ c) ∧
      ∃ out, Punycode.encode maxDelta (withoutHigh cps) = some out ∧ out.length ≤ localBufferSize

section Label

variable {letterOrDigit : Nat → Bool} {label out encoded : List Nat}

theorem writtenCode_of_ok {code : List Nat} (h : punyencode label = .ok code) :
    writtenCode label = code := by
  rw [writtenCode, h]

theorem writtenCode_of_error {e : PunyError} (h : punyencode label = .error e) :
    writtenCode label = [] := by
  rw [writtenCode, h]

theorem appendPunycoded_eq (label encoded : List Nat) :
    appendPunycoded letterOrDigit label encoded =
      appendPunycoded letterOrDigit label [] >>= fun out => .ok (encoded ++ out) := by
  unfold appendPunycoded
  split
  · rw [Outcome.ok_bind, List.append_nil]
  · split
    · rw [Outcome.ok_bind, List.nil_append]
    · dsimp only
      split
      · rw [Outcome.ok_bind, List.nil_append, List.append_assoc]
      · rfl

theorem appendPunycoded_plain (h : ∀ c ∈ label, letterOrDigit c = true) :
    appendPunycoded letterOrDigit label [] = .ok label := by
  unfold appendPunycoded
  split
  · rename_i hempty
    rw [List.isEmpty_iff.mp hempty]
  · rw [if_pos (List.all_eq_true.mpr h)]
    rfl

theorem appendPunycoded_symbol (h : ∃ c ∈ label, letterOrDigit c = false) :
    appendPunycoded letterOrDigit label [] =
      if (writtenCode label).length ≤ localBufferSize then .ok (xnPrefix ++ writtenCode label)
      else .crashed := by
  obtain ⟨c, hc, hsymbol⟩ := h
  have hall : ¬label.all letterOrDigit = true := fun hall =>
    Bool.eq_false_iff.mp hsymbol (List.all_eq_true.mp hall c hc)
  unfold appendPunycoded
  rw [if_neg fun hempty => List.not_mem_nil (List.isEmpty_iff.mp hempty ▸ hc), if_neg hall]
  rfl

theorem codePoints_ascii (h : IsAscii label) : codePoints label = some label := by
  induction label with
  | nil => rfl
  | cons c label ih =>
    obtain ⟨hc, hrest⟩ := List.forall_mem_cons.mp h
    rw [codePoints_single (isSingle_of_lt hc), ih hrest, Option.map_some]

/-- A basic code point is a unit of the text. -/
theorem mem_of_basic {cps : List Nat} {c : Nat} (h : codePoints label = some cps) (hc : c ∈ cps)
    (hbasic : c < 0x80) : c ∈ label := by
  refine codePoints_induction (P := fun label cps => c ∈ cps → c ∈ label) id ?_ ?_ h hc
  · intro unit rest cps ih hc
    rcases List.mem_cons.mp hc with rfl | hc
    · exact List.mem_cons_self
    · exact List.mem_cons_of_mem _ (ih hc)
  · intro lead trail rest cps hpair ih hc
    have hlarge := (pair_bounds hpair).2.1
    refine List.mem_cons_of_mem _ (List.mem_cons_of_mem _ (ih ?_))
    exact (List.mem_cons.mp hc).resolve_left (by omega)

theorem digit_not_separator {c digit : Nat} (h : Punycode.decodeDigit c = some digit) :
    isSeparator c = false := by
  rw [isSeparator, Bool.or_eq_false_iff, Bool.or_eq_false_iff]
  refine ⟨⟨?_, ?_⟩, ?_⟩ <;>
  · rw [beq_eq_false_iff_ne]
    rintro rfl
    exact nomatch show none = some digit from h

/-- No separator comes into a label. -/
theorem appendPunycoded_piece (hunits : ∀ c ∈ label, c < 0x10000)
    (hlength : label.length ≤ maxCpCount) (hpiece : ∀ c ∈ label, isSeparator c = false)
    (h : appendPunycoded letterOrDigit label [] = .ok out) : ∀ c ∈ out, isSeparator c = false := by
  by_cases hplain : ∀ c ∈ label, letterOrDigit c = true
  · rw [appendPunycoded_plain hplain] at h
    cases h
    exact hpiece
  · simp only [not_forall, Bool.not_eq_true] at hplain
    obtain ⟨c, hc, hsymbol⟩ := hplain
    rw [appendPunycoded_symbol ⟨c, hc, hsymbol⟩] at h
    split at h
    · cases h
      refine List.forall_mem_append.mpr ⟨by decide, ?_⟩
      cases hcps : codePoints label with
      | none =>
        rw [writtenCode_of_error (punyencode_none hunits hlength hcps)]
        exact fun c hc => absurd hc List.not_mem_nil
      | some cps =>
        obtain ⟨code, hcode, -, hchars⟩ := punyencode_decodes hunits hlength hcps
        rw [writtenCode_of_ok hcode]
        intro c hc
        rcases hchars c hc with hbasic | rfl | ⟨digit, hdigit⟩
        · obtain ⟨hmem, hlt⟩ := Punycode.mem_below.mp hbasic
          exact hpiece c (mem_of_basic hcps hmem hlt)
        · rfl
        · exact digit_not_separator hdigit
    · exact nomatch h

theorem ascii_withoutHigh (h : IsAscii label) : withoutHigh label = label :=
  withoutHigh_of_none fun ⟨c, hc, hhigh⟩ => by
    have hlow := (isHigh_iff.mp hhigh).1
    have hbasic := h c hc
    omega

/-- A label of ASCII that is encoded is not the same any more. -/
theorem ascii_ne (hunits : ∀ c ∈ label, c < 0x10000) (hlength : label.length ≤ maxCpCount)
    (h : IsAscii label) : xnPrefix ++ writtenCode label ≠ label := by
  obtain ⟨code, hcode, hencode⟩ := punyencode_eq_encode hunits hlength (codePoints_ascii h)
    fun hboth => by
      obtain ⟨c, hc, hlarge⟩ := hboth.2
      have hbasic := h c hc
      omega
  rw [ascii_withoutHigh h, Punycode.encode] at hencode
  obtain ⟨s, -, rfl⟩ := Option.map_eq_some_iff.mp hencode
  have hbasics : Punycode.basics label = label :=
    List.filter_eq_self.mpr fun c hc => decide_eq_true (h c hc)
  have hlonger : label.length ≤ (Punycode.encodeBasics label).length := by
    rw [Punycode.encodeBasics, hbasics]
    split
    · rename_i hempty
      rw [List.isEmpty_iff.mp hempty]
    · rw [List.length_append]
      exact Nat.le_add_right _ _
  rw [writtenCode_of_ok hcode]
  intro heq
  have hsame := congrArg List.length heq
  simp only [xnPrefix, List.length_append, List.length_cons, List.length_nil] at hsame
  omega

/-- What is put in for a label is as it should be for exactly the labels that fit. -/
theorem label_iff (hunits : ∀ c ∈ label, c < 0x10000) (hlength : label.length ≤ maxCpCount) :
    (∃ out, appendPunycoded letterOrDigit label [] = .ok out ∧
      LabelKept letterOrDigit label out) ↔ LabelFits letterOrDigit label := by
  by_cases hplain : ∀ c ∈ label, letterOrDigit c = true
  · refine ⟨fun _ => .inl hplain, fun _ => ⟨label, appendPunycoded_plain hplain, fun _ => rfl, ?_⟩⟩
    rintro - ⟨c, hc, hsymbol⟩
    exact absurd (hplain c hc) (Bool.eq_false_iff.mp hsymbol)
  · have hsymbols : ∃ c ∈ label, letterOrDigit c = false := by
      simpa only [not_forall, Bool.not_eq_true, exists_prop] using hplain
    rw [appendPunycoded_symbol hsymbols, LabelFits, or_iff_right hplain]
    constructor
    · rintro ⟨out, hout, hkept⟩
      split at hout
      · rename_i hfits
        cases hout
        have hascii : ¬IsAscii label := fun h => ascii_ne hunits hlength h (hkept.ascii h)
        obtain ⟨code, cps, hcode, hcps, hdecode⟩ := hkept.symbols hascii hsymbols
        rw [← List.append_cancel_left hcode] at hdecode
        obtain ⟨written, hwritten, hread, -⟩ := punyencode_decodes hunits hlength hcps
        rw [writtenCode_of_ok hwritten] at hdecode hfits
        have hsmall := (codePoints_room hunits hlength hcps).1
        have hnot := (filter_isKept_iff hsmall).mp (Option.some.inj (hread.symm.trans hdecode))
        obtain ⟨same, hsame, hencode⟩ := punyencode_eq_encode hunits hlength hcps hnot
        obtain rfl := Except.ok.inj (hwritten.symm.trans hsame)
        exact ⟨hascii, cps, hcps, hnot, written, hencode, hfits⟩
      · exact nomatch hout
    · rintro ⟨hascii, cps, hcps, hnot, out, hencode, hfits⟩
      obtain ⟨written, hwritten, hsame⟩ := punyencode_eq_encode hunits hlength hcps hnot
      obtain rfl := Option.some.inj (hencode.symm.trans hsame)
      obtain ⟨same, hagain, hdecode, -⟩ := punyencode_decodes hunits hlength hcps
      obtain rfl := Except.ok.inj (hwritten.symm.trans hagain)
      rw [isKept_eq hnot] at hdecode
      rw [writtenCode_of_ok hwritten, if_pos hfits]
      exact ⟨_, rfl, fun h => absurd h hascii, fun _ _ => ⟨out, cps, rfl, hcps, hdecode⟩⟩

end Label

section Host

variable {letterOrDigit : Nat → Bool} {source result label rest : List Nat} {fuel c : Nat}

/-- What was put in before stays in front. -/
theorem toPunycodedLoop_eq (fuel : Nat) (source result : List Nat) :
    toPunycodedLoop letterOrDigit fuel source result =
      toPunycodedLoop letterOrDigit fuel source [] >>= fun out => .ok (result ++ out) := by
  induction fuel generalizing source result with
  | zero =>
    rw [toPunycodedLoop, toPunycodedLoop, Outcome.ok_bind, List.append_nil]
  | succ fuel ih =>
    rw [toPunycodedLoop, toPunycodedLoop]
    split
    · exact appendPunycoded_eq _ result
    · rename_i c rest hdrop
      rw [appendPunycoded_eq _ result]
      cases appendPunycoded letterOrDigit (source.takeWhile fun c => !isSeparator c) [] with
      | refused => rfl
      | crashed => rfl
      | ok out =>
        rw [Outcome.ok_bind, Outcome.ok_bind, Outcome.ok_bind, ih, ih rest (out ++ [c])]
        cases toPunycodedLoop letterOrDigit fuel rest [] with
        | refused => rfl
        | crashed => rfl
        | ok tail =>
          simp only [Outcome.ok_bind, List.append_assoc]

theorem toPunycodedLoop_last (h : ∀ c ∈ source, isSeparator c = false) :
    toPunycodedLoop letterOrDigit (fuel + 1) source [] =
      appendPunycoded letterOrDigit source [] := by
  have hall : ∀ c ∈ source, (!isSeparator c) = true := fun c hc =>
    (Bool.not_eq_true' _).mpr (h c hc)
  rw [toPunycodedLoop, List.dropWhile_eq_nil_iff.mpr hall, List.takeWhile_eq_self_iff.mpr hall]

/-- One label with the separator behind it, then the others. -/
theorem toPunycodedLoop_label (h : ∀ c ∈ label, isSeparator c = false) (hc : isSeparator c = true) :
    toPunycodedLoop letterOrDigit (fuel + 1) (label ++ c :: rest) [] =
      appendPunycoded letterOrDigit label [] >>= fun out =>
        toPunycodedLoop letterOrDigit fuel rest [] >>= fun tail => .ok (out ++ c :: tail) := by
  have hall : ∀ c ∈ label, (!isSeparator c) = true := fun c hc =>
    (Bool.not_eq_true' _).mpr (h c hc)
  have hstop : ¬(!isSeparator c) = true := by
    rw [hc]
    exact Bool.false_ne_true
  rw [toPunycodedLoop, List.takeWhile_append_of_pos hall, List.dropWhile_append_of_pos hall,
    List.takeWhile_cons_of_neg (p := fun c => !isSeparator c) hstop,
    List.dropWhile_cons_of_neg (p := fun c => !isSeparator c) hstop, List.append_nil]
  cases appendPunycoded letterOrDigit label [] with
  | refused => rfl
  | crashed => rfl
  | ok out =>
    dsimp only
    rw [Outcome.ok_bind, Outcome.ok_bind, toPunycodedLoop_eq]
    simp only [List.append_assoc, List.singleton_append]

theorem loop_iff (hunits : ∀ c ∈ source, c < 0x10000) (hlength : source.length ≤ maxCpCount)
    (hfuel : source.length < fuel) :
    (∃ out, toPunycodedLoop letterOrDigit fuel source [] = .ok out ∧
        Piecewise isSeparator (LabelKept letterOrDigit) source out) ↔
      ∀ label ∈ source.splitOnP isSeparator, LabelFits letterOrDigit label := by
  induction fuel generalizing source with
  | zero => exact absurd hfuel (Nat.not_lt_zero _)
  | succ fuel ih =>
    by_cases hlast : ∀ c ∈ source, isSeparator c = false
    · rw [toPunycodedLoop_last hlast, List.splitOnP_eq_singleton hlast, List.forall_mem_singleton,
        ← label_iff hunits hlength]
      refine exists_congr fun out => and_congr_right fun hout => ?_
      exact Piecewise.single_iff hlast (appendPunycoded_piece hunits hlength hlast hout)
    · obtain ⟨label, c, rest, rfl, hlabel, hc⟩ := Piecewise.exists_piece hlast
      obtain ⟨hlabelUnits, hrestUnits⟩ := List.forall_mem_append.mp hunits
      rw [List.length_append, List.length_cons] at hlength hfuel
      have hrest := ih (List.forall_mem_cons.mp hrestUnits).2 (by omega) (by omega)
      rw [toPunycodedLoop_label hlabel hc, List.splitOnP_append_cons_of_forall_mem hlabel c hc,
        List.forall_mem_cons, ← label_iff hlabelUnits (by omega), ← hrest]
      constructor
      · rintro ⟨out, hloop, hpieces⟩
        obtain ⟨first, hfirst, hloop⟩ := Outcome.bind_eq_ok hloop
        obtain ⟨tail, htail, hout⟩ := Outcome.bind_eq_ok hloop
        cases hout
        have hpiece := appendPunycoded_piece hlabelUnits (by omega) hlabel hfirst
        obtain ⟨hkept, hothers⟩ := (Piecewise.cons_iff hlabel hpiece hc).mp hpieces
        exact ⟨⟨first, hfirst, hkept⟩, tail, htail, hothers⟩
      · rintro ⟨⟨first, hfirst, hkept⟩, tail, htail, hothers⟩
        have hpiece := appendPunycoded_piece hlabelUnits (by omega) hlabel hfirst
        refine ⟨first ++ c :: tail, ?_, (Piecewise.cons_iff hlabel hpiece hc).mpr ⟨hkept, hothers⟩⟩
        rw [hfirst, htail]
        rfl

/-- A host is encoded as it should be for exactly the texts all of whose labels fit. -/
theorem toPunycoded_faithful_iff (letterOrDigit : Nat → Bool) (hunits : ∀ c ∈ source, c < 0x10000)
    (hlength : source.length ≤ 64) :
    (∃ out, toPunycoded letterOrDigit source = .ok out ∧
        Piecewise isSeparator (LabelKept letterOrDigit) source out) ↔
      ∀ label ∈ source.splitOnP isSeparator, LabelFits letterOrDigit label :=
  loop_iff hunits (le_trans hlength (by decide)) (Nat.lt_succ_self _)

/-- The letters and digits of ASCII. -/
def isLatinLetterOrDigit (c : Nat) : Bool :=
  decide (0x30 ≤ c ∧ c ≤ 0x39) || decide (0x41 ≤ c ∧ c ≤ 0x5A) || decide (0x61 ≤ c ∧ c ≤ 0x7A)

/-- The heart U+2764 in a domain of its own. -/
def heartHost : List Nat := [0x61, 0x62, 0x2E, 0x2764]

theorem toPunycoded_faithful_heart :
    ∃ out, toPunycoded isLatinLetterOrDigit heartHost = .ok out ∧
      Piecewise isSeparator (LabelKept isLatinLetterOrDigit) heartHost out := by
  refine (toPunycoded_faithful_iff isLatinLetterOrDigit (by decide) (by decide)).mpr ?_
  have hlabels : heartHost.splitOnP isSeparator = [[0x61, 0x62], [0x2764]] := by
    decide
  rw [hlabels, List.forall_mem_cons, List.forall_mem_singleton]
  refine ⟨.inl (by decide), .inr ⟨by decide, [0x2764], rfl, by decide, ?_⟩⟩
  exact ⟨[0x71, 0x65, 0x69], by decide +kernel, by decide⟩

/-- The host a-b in the domain of the heart, which becomes xn--a-b- there. -/
def hyphenHost : List Nat := [0x61, 0x2D, 0x62, 0x2E, 0x2764]

theorem toPunycoded_hyphen :
    toPunycoded isLatinLetterOrDigit hyphenHost = .ok ([0x78, 0x6E, 0x2D, 0x2D, 0x61, 0x2D, 0x62,
      0x2D, 0x2E, 0x78, 0x6E, 0x2D, 0x2D, 0x71, 0x65, 0x69]) ∧
    ¬∃ out, toPunycoded isLatinLetterOrDigit hyphenHost = .ok out ∧
      Piecewise isSeparator (LabelKept isLatinLetterOrDigit) hyphenHost out := by
  have hrun : toPunycoded isLatinLetterOrDigit hyphenHost = .ok ([0x78, 0x6E, 0x2D, 0x2D, 0x61,
      0x2D, 0x62, 0x2D] ++ 0x2E :: [0x78, 0x6E, 0x2D, 0x2D, 0x71, 0x65, 0x69]) := by
    decide +kernel
  refine ⟨hrun, fun ⟨out, hout, hpieces⟩ => ?_⟩
  cases hrun.symm.trans hout
  have hsplit : Piecewise isSeparator (LabelKept isLatinLetterOrDigit)
      ([0x61, 0x2D, 0x62] ++ 0x2E :: [0x2764]) _ := hpieces
  obtain ⟨hkept, -⟩ := (Piecewise.cons_iff (by decide) (by decide) rfl).mp hsplit
  exact absurd (hkept.ascii (by decide)) (by decide)

end Host

end Icq.Gui
