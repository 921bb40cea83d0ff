import Icq.Lib.Punycode

/-! The encoder for labels of hosts, which leaves variation selectors out. -/

namespace Icq.Gui
open Icq.Lib Icq.Lib.Punycode

inductive PunyError
  | indexOutOfBounds | invalidCharFound | internalError
deriving DecidableEq

def maxCpCount : Nat := 200

def isSurrogate (c : Nat) : Bool := decide (c / 0x800 = 0x1B)

def isSingle (c : Nat) : Bool := !isSurrogate c

def isLead (c : Nat) : Bool := decide (c / 0x400 = 0x36)

def isTrail (c : Nat) : Bool := decide (c / 0x400 = 0x37)

def getSupplementary (lead trail : Nat) : Nat := lead * 0x400 + trail - 0x35FDC00

/-- What is known of the source: its code points with 0 for the basic ones, these, and how many code
units from U+FE00 on it has. -/
structure PunySource where
  cpBuffer : List Nat := []
  dest : List Nat := []
  h : Nat := 0

def readSource : List Nat → PunySource → Except PunyError PunySource
  | [], s => .ok s
  | c :: rest, s =>
    if s.cpBuffer.length = maxCpCount then .error .indexOutOfBounds
    else if c < 0x80 then
      readSource rest { s with cpBuffer := s.cpBuffer ++ [0], dest := s.dest ++ [c] }
    else
      let h := s.h + if 0xFE00 ≤ c then 1 else 0
      if isSingle c then readSource rest { s with h, cpBuffer := s.cpBuffer ++ [c] }
      else
        match rest with
        | [] => .error .invalidCharFound
        | c2 :: rest =>
          if isLead c && isTrail c2 then
            readSource rest { s with h, cpBuffer := s.cpBuffer ++ [getSupplementary c c2] }
          else .error .invalidCharFound

/-- The room for a step in 32 bits. -/
def maxDelta : Nat := 0x7FFFFFFF - maxCpCount

/-- All that is put out; only so much of it is written as the buffer has room for. -/
def punyencode (src : List Nat) : Except PunyError (List Nat) :=
  match readSource src {} with
  | .error e => .error e
  | .ok s =>
    let basicLength := s.dest.length
    let basic := if 0 < basicLength then s.dest ++ [0x2D] else s.dest
    let count := s.cpBuffer.length
    match encodeLoop maxDelta basicLength (count - s.h) s.cpBuffer (count + 1)
        { handled := basicLength } with
    | none => .error .internalError
    | some e => .ok (basic ++ e.output)

/-- The code points of a text in UTF-16, if all its surrogates are paired. -/
def codePoints : List Nat → Option (List Nat)
  | [] => some []
  | c :: rest =>
    if isSingle c then (codePoints rest).map (c :: ·)
    else
      match rest with
      | [] => none
      | c2 :: rest =>
        if isLead c && isTrail c2 then (codePoints rest).map (getSupplementary c c2 :: ·) else none

/-- The code points from U+FE00 to U+FFFF. -/
def isHigh (c : Nat) : Bool := decide (0xFE00 ≤ c) && decide (c < 0x10000)

def withoutHigh (cps : List Nat) : List Nat := cps.filter fun c => !isHigh c

/-- What the encoder keeps of a code point. -/
def buffered (c : Nat) : Nat := if c < 0x80 then 0 else c

/-- A source with more code points read. -/
def PunySource.add (s : PunySource) (cps : List Nat) : PunySource :=
  { cpBuffer := s.cpBuffer ++ cps.map buffered, dest := s.dest ++ basics cps
    h := s.h + (cps.filter isHigh).length }

section Read

variable {src cps : List Nat} {s : PunySource} {c c2 : Nat}

theorem isSingle_of_lt (h : c < 0x80) : isSingle c = true := by
  rw [isSingle, isSurrogate, decide_eq_false (by omega)]
  rfl

theorem codePoints_single (h : isSingle c = true) (rest : List Nat) :
    codePoints (c :: rest) = (codePoints rest).map (c :: ·) := by
  rw [codePoints.eq_def]
  exact if_pos h

theorem pair_bounds (h : (isLead c && isTrail c2) = true) :
    c < 0xFE00 ∧ 0x10000 ≤ getSupplementary c c2 ∧ getSupplementary c c2 ≤ 0x10FFFF := by
  simp only [isLead, isTrail, Bool.and_eq_true, decide_eq_true_iff] at h
  unfold getSupplementary
  omega

theorem PunySource.add_basic (h : c < 0x80) (cps : List Nat) :
    ({ s with cpBuffer := s.cpBuffer ++ [0], dest := s.dest ++ [c] } : PunySource).add cps =
      s.add (c :: cps) := by
  have hhigh : isHigh c = false := by
    rw [isHigh, decide_eq_false (by omega)]
    rfl
  rw [add, add, List.map_cons, buffered, if_pos h, basics, basics, below_cons_of_lt h,
    List.filter_cons_of_neg (Bool.eq_false_iff.mp hhigh), List.append_assoc, List.append_assoc]
  rfl

theorem PunySource.add_other {x n : Nat} (hx : 0x80 ≤ x) (hn : n = if isHigh x then 1 else 0)
    (cps : List Nat) :
    ({ s with h := s.h + n, cpBuffer := s.cpBuffer ++ [x] } : PunySource).add cps =
      s.add (x :: cps) := by
  have hcount : s.h + n + (cps.filter isHigh).length =
      s.h + ((x :: cps).filter isHigh).length := by
    rw [List.filter_cons, hn]
    split
    · rw [List.length_cons]
      omega
    · rfl
  rw [add, add, hcount, List.map_cons, buffered, if_neg (not_lt.mpr hx), basics, basics,
    below_cons_of_le hx, List.append_assoc]
  rfl

/-- A source is read as its code points, or refused where a surrogate has no other one. -/
theorem readSource_eq (hsrc : ∀ c ∈ src, c < 0x10000)
    (hlength : s.cpBuffer.length + src.length ≤ maxCpCount) :
    readSource src s = (codePoints src).elim (.error .invalidCharFound) fun cps =>
      .ok (s.add cps) := by
  induction hn : src.length using Nat.strong_induction_on generalizing src s with
  | _ n ih =>
    cases src with
    | nil =>
      rw [readSource, codePoints, Option.elim_some, PunySource.add]
      simp only [List.map_nil, List.append_nil, basics, below, List.filter_nil, List.length_nil,
        Nat.add_zero]
    | cons c rest =>
      obtain ⟨hc, hrest⟩ := List.forall_mem_cons.mp hsrc
      rw [List.length_cons] at hn hlength
      have hmore : ∀ (s' : PunySource), s'.cpBuffer.length = s.cpBuffer.length + 1 →
          ∀ tail, tail.length ≤ rest.length → (∀ c ∈ tail, c < 0x10000) →
            readSource tail s' = (codePoints tail).elim (.error .invalidCharFound) fun cps =>
              .ok (s'.add cps) := fun s' hs' tail htail hsmall =>
        ih tail.length (by omega) hsmall (by omega) rfl
      rw [readSource.eq_def]
      dsimp only
      rw [if_neg (by omega)]
      by_cases hbasic : c < 0x80
      · rw [if_pos hbasic, codePoints_single (isSingle_of_lt hbasic), Option.elim_map,
          hmore _ List.length_append rest (le_refl _) hrest]
        simp only [PunySource.add_basic hbasic]
        rfl
      · rw [if_neg hbasic]
        by_cases hsingle : isSingle c = true
        · have hhigh : (if 0xFE00 ≤ c then 1 else 0) = if isHigh c then 1 else 0 := by
            rw [isHigh, decide_eq_true hc, Bool.and_true]
            simp only [decide_eq_true_iff]
          rw [if_pos hsingle, codePoints_single hsingle, Option.elim_map,
            hmore _ List.length_append rest (le_refl _) hrest]
          simp only [PunySource.add_other (not_lt.mp hbasic) hhigh]
          rfl
        · rw [if_neg hsingle, codePoints.eq_def]
          dsimp only
          rw [if_neg hsingle]
          cases rest with
          | nil => rfl
          | cons c2 rest =>
            dsimp only
            by_cases hpair : (isLead c && isTrail c2) = true
            · obtain ⟨hlead, hlow, -⟩ := pair_bounds hpair
              have hhigh : (if 0xFE00 ≤ c then 1 else 0) =
                  if isHigh (getSupplementary c c2) then 1 else 0 := by
                rw [isHigh, decide_eq_false (not_lt.mpr hlow), Bool.and_false,
                  if_neg (not_le.mpr hlead), if_neg Bool.false_ne_true]
              rw [if_pos hpair, if_pos hpair, Option.elim_map,
                hmore _ List.length_append rest (Nat.le_succ _) (List.forall_mem_cons.mp hrest).2]
              simp only [PunySource.add_other (show 0x80 ≤ getSupplementary c c2 by omega) hhigh]
              rfl
            · rw [if_neg hpair, if_neg hpair]
              rfl

/-- What holds of the code points of a text, for one unit more and for a pair more. -/
theorem codePoints_induction {P : List Nat → List Nat → Prop} (nil : P [] [])
    (single : ∀ c rest cps, P rest cps → P (c :: rest) (c :: cps))
    (pair : ∀ c c2 rest cps, (isLead c && isTrail c2) = true → P rest cps →
      P (c :: c2 :: rest) (getSupplementary c c2 :: cps))
    (h : codePoints src = some cps) : P src cps := by
  induction hn : src.length using Nat.strong_induction_on generalizing src cps with
  | _ n ih =>
    cases src with
    | nil =>
      cases h
      exact nil
    | cons c rest =>
      rw [List.length_cons] at hn
      by_cases hsingle : isSingle c = true
      · rw [codePoints_single hsingle] at h
        obtain ⟨tail, htail, heq⟩ := Option.map_eq_some_iff.mp h
        rw [← heq]
        exact single c rest tail (ih rest.length (by omega) htail rfl)
      · rw [codePoints.eq_def] at h
        dsimp only at h
        rw [if_neg hsingle] at h
        cases rest with
        | nil => cases h
        | cons c2 rest =>
          rw [List.length_cons] at hn
          dsimp only at h
          by_cases hpair : (isLead c && isTrail c2) = true
          · rw [if_pos hpair] at h
            obtain ⟨tail, htail, heq⟩ := Option.map_eq_some_iff.mp h
            rw [← heq]
            exact pair c c2 rest tail hpair (ih rest.length (by omega) htail rfl)
          · rw [if_neg hpair] at h
            cases h

theorem codePoints_le (hsrc : ∀ c ∈ src, c < 0x10000) (h : codePoints src = some cps) :
    (∀ c ∈ cps, c ≤ 0x10FFFF) ∧ cps.length ≤ src.length := by
  refine codePoints_induction (P := fun src cps => (∀ c ∈ src, c < 0x10000) →
    (∀ c ∈ cps, c ≤ 0x10FFFF) ∧ cps.length ≤ src.length) ?_ ?_ ?_ h hsrc
  · exact fun _ => ⟨fun c hc => absurd hc List.not_mem_nil, Nat.zero_le _⟩
  · intro c rest cps ih hsrc
    obtain ⟨hc, hrest⟩ := List.forall_mem_cons.mp hsrc
    obtain ⟨hle, hlength⟩ := ih hrest
    exact ⟨List.forall_mem_cons.mpr ⟨by omega, hle⟩, Nat.succ_le_succ hlength⟩
  · intro c c2 rest cps hpair ih hsrc
    obtain ⟨hle, hlength⟩ := ih (List.forall_mem_cons.mp (List.forall_mem_cons.mp hsrc).2).2
    refine ⟨List.forall_mem_cons.mpr ⟨(pair_bounds hpair).2.2, hle⟩, ?_⟩
    rw [List.length_cons, List.length_cons, List.length_cons]
    omega

/-- The encoder on the code points of a source. -/
theorem punyencode_some (hsrc : ∀ c ∈ src, c < 0x10000) (hlength : src.length ≤ maxCpCount)
    (h : codePoints src = some cps) : punyencode src =
      (encodeLoop maxDelta (basics cps).length (cps.length - (cps.filter isHigh).length) cps
        (cps.length + 1) { handled := (basics cps).length }).elim (.error .internalError)
          fun e => .ok (encodeBasics cps ++ e.output) := by
  have hread := readSource_eq (s := {}) hsrc (le_of_eq_of_le (Nat.zero_add _) hlength)
  rw [h, Option.elim_some, PunySource.add] at hread
  have hbuffered : ∀ q, buffered q = q ∨ buffered q < 128 ∧ q < 128 := by
    intro q
    rw [buffered]
    split
    · exact .inr ⟨by decide, by assumption⟩
    · exact .inl rfl
  have hbasic : (if 0 < (basics cps).length then basics cps ++ [0x2D] else basics cps) =
      encodeBasics cps := by
    rw [encodeBasics]
    cases basics cps <;> rfl
  rw [punyencode, hread]
  dsimp only [List.nil_append]
  rw [Nat.zero_add, List.length_map, encodeLoop_map hbuffered (le_refl 128), hbasic]
  cases encodeLoop maxDelta _ _ cps _ _ <;> rfl

theorem punyencode_none (hsrc : ∀ c ∈ src, c < 0x10000) (hlength : src.length ≤ maxCpCount)
    (h : codePoints src = none) : punyencode src = .error .invalidCharFound := by
  have hread := readSource_eq (s := {}) hsrc (le_of_eq_of_le (Nat.zero_add _) hlength)
  rw [h, Option.elim_none] at hread
  rw [punyencode, hread]

end Read

section Keep

variable {src cps : List Nat}

/-- What the encoder comes to: as many code points as are not left out, in ascending order. -/
def isKept (cps : List Nat) (q : Nat) : Bool :=
  decide (q < 128 ∨ (below q cps).length < (withoutHigh cps).length)

theorem length_sub_high (cps : List Nat) :
    cps.length - (cps.filter isHigh).length = (withoutHigh cps).length := by
  rw [List.length_eq_length_filter_add isHigh, Nat.add_sub_cancel_left]
  rfl

theorem isHigh_iff {c : Nat} : isHigh c = true ↔ 0xFE00 ≤ c ∧ c < 0x10000 := by
  rw [isHigh, Bool.and_eq_true, decide_eq_true_iff, decide_eq_true_iff]

theorem withoutHigh_of_none (h : ¬ ∃ c ∈ cps, isHigh c = true) : withoutHigh cps = cps :=
  List.filter_eq_self.mpr fun c hc => (Bool.not_eq_true' _).mpr
    (Bool.eq_false_iff.mpr fun hhigh => h ⟨c, hc, hhigh⟩)

theorem withoutHigh_of_bmp (h : ¬ ∃ c ∈ cps, 0x10000 ≤ c) : withoutHigh cps = below 0xFE00 cps := by
  refine List.filter_congr fun c hc => ?_
  have hbmp : c < 0x10000 := not_le.mp fun hle => h ⟨c, hc, hle⟩
  rw [isHigh, decide_eq_true hbmp, Bool.and_true, ← decide_not]
  exact decide_eq_decide.mpr not_le

theorem below_withoutHigh {n : Nat} (hn : n ≤ 0xFE00) (cps : List Nat) :
    below n (withoutHigh cps) = below n cps := by
  rw [below, below, withoutHigh, List.filter_filter]
  refine List.filter_congr fun c _ => ?_
  cases hhigh : isHigh c with
  | false => exact Bool.and_true _
  | true =>
    have hle := (isHigh_iff.mp hhigh).1
    rw [Bool.not_true, Bool.and_false, decide_eq_false (by omega)]

/-- The least of those to be left out is not, if there are greater ones that are not. -/
theorem isKept_least_high (hsmall : ∀ q ∈ cps, q < 0x7FFFFFFF) (hhigh : ∃ c ∈ cps, isHigh c = true)
    (hother : ∃ c ∈ cps, 0x10000 ≤ c) :
    ∃ c ∈ cps, isHigh c = true ∧ isKept cps c = true := by
  obtain ⟨x, hx, hxhigh⟩ := hhigh
  obtain ⟨y, hy, hylarge⟩ := hother
  obtain ⟨hxlow, hxup⟩ := isHigh_iff.mp hxhigh
  obtain ⟨hmem, hlow, hleast⟩ := nextAbove_spec hsmall ⟨x, hx, hxlow⟩
  refine ⟨_, hmem, isHigh_iff.mpr ⟨hlow, lt_of_le_of_lt (hleast x hx hxlow) hxup⟩,
    decide_eq_true (.inr ?_)⟩
  have hbelow := (below_length_le_iff hlow).mpr fun q hq hlt =>
    not_le.mp fun hle => not_lt.mpr (hleast q hq hle) hlt
  have hless : (below 0xFE00 (withoutHigh cps)).length < (withoutHigh cps).length := by
    refine List.length_filter_lt_length_iff_exists.mpr ⟨y, List.mem_filter.mpr ⟨hy, ?_⟩, ?_⟩
    · rw [isHigh, decide_eq_false (not_lt.mpr hylarge), Bool.and_false]
      rfl
    · rw [decide_eq_true_iff]
      omega
  rw [below_withoutHigh (le_refl _)] at hless
  exact lt_of_le_of_lt hbelow hless

theorem isKept_eq (h : ¬ ((∃ c ∈ cps, isHigh c = true) ∧ ∃ c ∈ cps, 0x10000 ≤ c)) :
    cps.filter (isKept cps) = withoutHigh cps := by
  by_cases hhigh : ∃ c ∈ cps, isHigh c = true
  · have hbmp := fun hother => h ⟨hhigh, hother⟩
    rw [withoutHigh_of_bmp hbmp]
    refine List.filter_congr fun q hq => ?_
    rw [isKept, withoutHigh_of_bmp hbmp]
    refine decide_eq_decide.mpr ⟨?_, fun hlt => .inr ?_⟩
    · rintro (hbasic | hcount)
      · omega
      · by_contra hle
        exact not_le.mpr hcount (below_mono (not_lt.mp hle) cps)
    · by_contra hle
      exact lt_irrefl q ((below_length_le_iff (le_of_lt hlt)).mp (not_lt.mp hle) q hq hlt)
  · rw [withoutHigh_of_none hhigh]
    refine List.filter_eq_self.mpr fun q hq => decide_eq_true (.inr ?_)
    rw [withoutHigh_of_none hhigh]
    refine List.length_filter_lt_length_iff_exists.mpr ⟨q, hq, ?_⟩
    rw [decide_eq_true_iff]
    exact lt_irrefl q

theorem filter_isKept_iff (hsmall : ∀ q ∈ cps, q < 0x7FFFFFFF) :
    cps.filter (isKept cps) = withoutHigh cps ↔
      ¬ ((∃ c ∈ cps, isHigh c = true) ∧ ∃ c ∈ cps, 0x10000 ≤ c) := by
  refine ⟨fun heq ⟨hhigh, hother⟩ => ?_, isKept_eq⟩
  obtain ⟨c, hc, hchigh, hkept⟩ := isKept_least_high hsmall hhigh hother
  have hmem := List.mem_filter.mpr ⟨hc, hkept⟩
  rw [heq] at hmem
  have hnot := (List.mem_filter.mp hmem).2
  rw [hchigh] at hnot
  exact Bool.false_ne_true hnot

end Keep

section Result

variable {src cps : List Nat}

/-- So many code points never need a step there is no room for. -/
theorem codePoints_room (hsrc : ∀ c ∈ src, c < 0x10000) (hlength : src.length ≤ maxCpCount)
    (h : codePoints src = some cps) :
    (∀ q ∈ cps, q < 0x7FFFFFFF) ∧ ∀ q ∈ cps, q * (cps.length + 1) ≤ maxDelta := by
  obtain ⟨hle, hcount⟩ := codePoints_le hsrc h
  refine ⟨fun q hq => lt_of_le_of_lt (hle q hq) (by decide), fun q hq => ?_⟩
  have hmul := Nat.mul_le_mul (hle q hq) (Nat.succ_le_succ (le_trans hcount hlength))
  exact le_trans hmul (by decide)

theorem punyencode_decodes (hsrc : ∀ c ∈ src, c < 0x10000) (hlength : src.length ≤ maxCpCount)
    (h : codePoints src = some cps) :
    ∃ out, punyencode src = .ok out ∧ decode out = some (cps.filter (isKept cps)) ∧
      ∀ c ∈ out, c ∈ basics cps ∨ c = 0x2D ∨ ∃ digit, decodeDigit c = some digit := by
  obtain ⟨hsmall, hroom⟩ := codePoints_room hsrc hlength h
  have hlimit : (withoutHigh cps).length ≤ cps.length := List.length_filter_le _ _
  obtain ⟨s, hloop, hdigits, hdecode⟩ := decode_encodeLoop hlimit hsmall hroom
  refine ⟨encodeBasics cps ++ s.output, ?_, hdecode, fun c hc => ?_⟩
  · rw [punyencode_some hsrc hlength h, length_sub_high, hloop]
    rfl
  · rcases List.mem_append.mp hc with hc | hc
    · rw [encodeBasics] at hc
      split at hc
      · exact absurd hc List.not_mem_nil
      · exact (List.mem_append.mp hc).imp_right fun h => .inl (List.mem_singleton.mp h)
    · exact .inr (.inr (hdigits c hc))

/-- Where nothing left out is in front of something that is not, the code is that of the rest. -/
theorem punyencode_eq_encode (hsrc : ∀ c ∈ src, c < 0x10000) (hlength : src.length ≤ maxCpCount)
    (h : codePoints src = some cps)
    (hnot : ¬ ((∃ c ∈ cps, isHigh c = true) ∧ ∃ c ∈ cps, 0x10000 ≤ c)) :
    ∃ out, punyencode src = .ok out ∧ encode maxDelta (withoutHigh cps) = some out := by
  obtain ⟨hsmall, hroom⟩ := codePoints_room hsrc hlength h
  have hsub : (withoutHigh cps).length ≤ cps.length := List.length_filter_le _ _
  have hmem : ∀ q ∈ withoutHigh cps, q ∈ cps := fun q hq => (List.mem_filter.mp hq).1
  have hbasics : basics (withoutHigh cps) = basics cps := below_withoutHigh (by decide) cps
  obtain ⟨s, hloop, -⟩ := decode_encodeLoop (le_refl _)
    (fun q hq => hsmall q (hmem q hq)) fun q hq => le_trans
      (Nat.mul_le_mul_left q (Nat.succ_le_succ hsub)) (hroom q (hmem q hq))
  rw [hbasics] at hloop
  have hwhole : encodeLoop maxDelta (basics cps).length (withoutHigh cps).length cps
      (cps.length + 1) { handled := (basics cps).length } = some s := by
    by_cases hhigh : ∃ c ∈ cps, isHigh c = true
    · have hbelow := withoutHigh_of_bmp fun hother => hnot ⟨hhigh, hother⟩
      have hmore := encodeLoop_mono hloop (cps.length - (withoutHigh cps).length)
      rw [show (withoutHigh cps).length + 1 + (cps.length - (withoutHigh cps).length) =
        cps.length + 1 by omega] at hmore
      rw [hbelow] at hmore ⊢
      rw [(synced_start cps).loop_below (show (128 : Nat) ≤ 0xFE00 by decide) hsmall]
      exact hmore
    · rw [withoutHigh_of_none hhigh] at hloop ⊢
      exact hloop
  refine ⟨encodeBasics cps ++ s.output, ?_, ?_⟩
  · rw [punyencode_some hsrc hlength h, length_sub_high, hwhole]
    rfl
  · rw [encode, hbasics, hloop, Option.map_some, encodeBasics, encodeBasics, hbasics]

end Result

end Icq.Gui
