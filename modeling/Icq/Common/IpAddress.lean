import Icq.Common.UriMatcher
import Mathlib.Algebra.Group.Nat.Defs

/-! What is taken for an IP address. -/

namespace Icq.Common
open UriTraits

namespace UriMatcher

/-- The leading digits and dots. -/
def addressPart (text : WString) : WString := text.takeWhile fun c => isDigit c || c = 0x2E

def octets (text : WString) : List WString := (addressPart text).splitOn 0x2E

def octetValue (octet : WString) : Nat :=
  octet.foldl (fun value c => value * 10 + (c - 0x30).toNat) 0

/-- Not too large, and no zero stands in front of other digits. -/
structure Octet (octet : WString) : Prop where
  le : octetValue octet ≤ 255
  plain : ∀ rest, octet = 0x30 :: rest → rest = []

section Octets

variable {octet rest text : WString} {c d : WChar}

theorem octetValue_concat (octet : WString) (c : WChar) :
    octetValue (octet ++ [c]) = octetValue octet * 10 + (c - 0x30).toNat := by
  rw [octetValue, List.foldl_append]
  rfl

theorem foldl_value_ge (octet : WString) (value : Nat) : value * 10 ^ octet.length ≤
    octet.foldl (fun value c => value * 10 + (c - 0x30).toNat) value := by
  induction octet generalizing value with
  | nil => simp
  | cons c octet ih =>
    refine le_trans ?_ (ih (value * 10 + (c - 0x30).toNat))
    rw [List.length_cons, Nat.pow_succ']
    have hle := Nat.mul_le_mul_right (10 ^ octet.length) (Nat.le_add_right (value * 10) (c - 0x30).toNat)
    rwa [Nat.mul_assoc] at hle

theorem digitValue_pos (h : c ≠ 0x30) : 0 < (c - 0x30).toNat := by
  apply Nat.pos_of_ne_zero
  intro hzero
  have hsub : c - 0x30 = 0 := UInt16.toNat_inj.mp hzero
  have hadd := congrArg (· + 0x30) hsub
  rw [UInt16.sub_add_cancel] at hadd
  exact h hadd

theorem octetValue_cons_ge (octet : WString) (h : c ≠ 0x30) :
    10 ^ octet.length ≤ octetValue (c :: octet) := by
  have hge := foldl_value_ge octet (0 * 10 + (c - 0x30).toNat)
  refine le_trans (Nat.le_mul_of_pos_left _ ?_) hge
  rw [Nat.zero_mul, Nat.zero_add]
  exact digitValue_pos h

/-- Only zeros have the value zero. -/
theorem head_zero (h : octetValue (c :: octet) = 0) : c = 0x30 := by
  by_contra hc
  have hge := octetValue_cons_ge octet hc
  rw [h] at hge
  exact absurd (Nat.pow_pos (show 0 < 10 by omega)) (Nat.not_lt.mpr hge)

/-- More than three digits are too large. -/
theorem Octet.length_le (h : Octet octet) : octet.length ≤ 3 := by
  cases octet with
  | nil => exact Nat.zero_le 3
  | cons c octet =>
    by_cases hc : c = 0x30
    · rw [h.plain octet (by rw [hc])]
      exact Nat.le_add_left 1 2
    · by_contra hlong
      have hge := le_trans (octetValue_cons_ge octet hc) h.le
      have hpow : 10 ^ 3 ≤ 10 ^ octet.length := by
        apply Nat.pow_le_pow_right (show 0 < 10 by omega)
        rw [List.length_cons] at hlong
        omega
      omega

theorem octets_nil : octets [] = [[]] := List.splitOn_nil 0x2E

theorem octets_digit (h : isDigit c = true) :
    octets (c :: text) = (octets text).modifyHead (c :: ·) := by
  have hdot : (c == 0x2E) = false := beq_eq_false_iff_ne.mpr fun hc => by
    rw [hc] at h
    exact absurd h (by decide)
  rw [octets, addressPart, List.takeWhile_cons_of_pos (by rw [h]; rfl),
    List.splitOn_cons_eq_if_modifyHead, hdot]
  rfl

theorem octets_dot (text : WString) : octets (0x2E :: text) = [] :: octets text := by
  rw [octets, addressPart, List.takeWhile_cons_of_pos (by decide),
    List.splitOn_cons_eq_if_modifyHead]
  rfl

theorem octets_stop (hdigit : ¬isDigit c = true) (hdot : c ≠ 0x2E) :
    octets (c :: text) = [[]] := by
  rw [octets, addressPart, List.takeWhile_cons_of_neg (by simp [hdigit, hdot])]
  exact List.splitOn_nil 0x2E

theorem octets_ne_nil (text : WString) : octets text ≠ [] := List.splitOn_ne_nil _ _

/-- An octet that goes on is not zero yet. -/
theorem plain_concat (hplain : ∀ rest, octet = 0x30 :: rest → rest = [])
    (hzero : ¬(0 < octet.length ∧ octetValue octet = 0)) :
    ∀ rest, octet ++ [c] = 0x30 :: rest → rest = [] := by
  intro rest h
  cases octet with
  | nil => exact (List.cons.inj h).2.symm
  | cons d octet =>
    obtain ⟨hd, -⟩ := List.cons.inj h
    refine absurd ⟨Nat.succ_pos _, ?_⟩ hzero
    rw [hplain octet (by rw [hd]), hd]
    rfl

/-- No more digits come behind a zero. -/
theorem not_octet_zero (hzero : 0 < octet.length ∧ octetValue octet = 0) :
    ¬Octet (octet ++ c :: rest) := by
  intro h
  cases octet with
  | nil => exact absurd hzero.1 (Nat.lt_irrefl 0)
  | cons d octet =>
    have hrest := h.plain (octet ++ c :: rest) (by rw [head_zero hzero.2]; rfl)
    exact List.append_ne_nil_of_right_ne_nil _ (List.cons_ne_nil c rest) hrest

/-- Behind the last digit or dot. -/
theorem hasIpAddrPart_end (sections : Nat) (hplain : ∀ rest, octet = 0x30 :: rest → rest = []) :
    (!decide (255 < octetValue octet) && !(decide (sections ≠ 4) && true)) = true ↔
      1 + sections = 5 ∧ ∀ x ∈ [octet], Octet x := by
  have hoctet : Octet octet ↔ octetValue octet ≤ 255 := ⟨Octet.le, fun h => ⟨h, hplain⟩⟩
  simp only [Bool.and_eq_true, Bool.not_eq_true', decide_eq_false_iff_not, Nat.not_lt,
    Bool.and_true, ne_eq, not_not, List.mem_singleton, forall_eq, hoctet]
  omega

/-- The scan stands behind the digits read for an octet. -/
theorem hasIpAddrPart_iff (sections : Nat) (hplain : ∀ rest, octet = 0x30 :: rest → rest = []) :
    hasIpAddrPart true ⟨octetValue octet, octet.length, sections⟩ text = true ↔
      (octets text).length + sections = 5 ∧
        ∀ x ∈ (octets text).modifyHead (octet ++ ·), Octet x := by
  induction text generalizing octet sections with
  | nil =>
    rw [octets_nil, List.modifyHead_cons, List.append_nil]
    exact hasIpAddrPart_end sections hplain
  | cons c text ih =>
    obtain ⟨x, xs, hxs⟩ := List.exists_cons_of_ne_nil (octets_ne_nil text)
    have hone := List.length_pos_of_ne_nil (octets_ne_nil (c :: text))
    rw [hasIpAddrPart]
    by_cases hmany : 4 < sections
    · rw [if_pos hmany]
      exact iff_of_false Bool.false_ne_true fun h => by omega
    rw [if_neg hmany]
    by_cases hdigit : isDigit c
    · rw [if_pos hdigit, octets_digit hdigit, hxs, List.modifyHead_cons, List.modifyHead_cons]
      by_cases hzero : 0 < octet.length ∧ octetValue octet = 0
      · rw [if_pos hzero]
        exact iff_of_false Bool.false_ne_true fun h =>
          not_octet_zero hzero (h.2 _ List.mem_cons_self)
      rw [if_neg hzero]
      by_cases hlong : 3 < octet.length
      · rw [if_pos hlong]
        refine iff_of_false Bool.false_ne_true fun h => ?_
        have hle := (h.2 _ List.mem_cons_self).length_le
        rw [List.length_append] at hle
        omega
      rw [if_neg hlong]
      have h := ih sections (plain_concat (c := c) hplain hzero)
      rw [octetValue_concat, List.length_append, List.length_singleton, hxs, List.modifyHead_cons,
        List.append_assoc] at h
      exact h
    rw [if_neg hdigit]
    by_cases hdot : c = 0x2E
    · rw [if_pos hdot, hdot, octets_dot, List.modifyHead_cons, List.append_nil]
      by_cases hlarge : 255 < octetValue octet
      · rw [if_pos hlarge]
        exact iff_of_false Bool.false_ne_true fun h =>
          Nat.not_le.mpr hlarge (h.2 _ List.mem_cons_self).le
      · have hoctet : Octet octet := ⟨Nat.not_lt.mp hlarge, hplain⟩
        have h := @ih [] (sections + 1) fun _ h => absurd h (List.cons_ne_nil _ _).symm
        rw [if_neg hlarge, List.length_cons, List.forall_mem_cons, and_iff_right hoctet,
          Nat.add_assoc, Nat.add_comm 1 sections]
        rwa [hxs, List.modifyHead_cons, List.nil_append, ← hxs] at h
    · rw [if_neg hdot, octets_stop hdigit hdot, List.modifyHead_cons, List.append_nil]
      exact hasIpAddrPart_end sections hplain

/-- The whole stretch of digits and dots counts. -/
theorem hasIpAddr_iff_octets (text : WString) (first last : Nat) :
    hasIpAddr text first last = true ↔
      (octets (slice text first last)).length = 4 ∧
        ∀ x ∈ octets (slice text first last), Octet x := by
  obtain ⟨x, xs, hxs⟩ := List.exists_cons_of_ne_nil (octets_ne_nil (slice text first last))
  have h := @hasIpAddrPart_iff [] (slice text first last) 1
    fun _ h => absurd h (List.cons_ne_nil _ _).symm
  rw [hxs, List.modifyHead_cons, List.nil_append, ← hxs] at h
  exact h.trans (and_congr_left' (Nat.add_right_cancel_iff (m := _) (n := 1) (k := 4)))

end Octets

/-- A number as it is written: some digits, and no zero in front of others. -/
structure OctetNumber (octet : WString) : Prop where
  some : octet ≠ []
  digits : ∀ c ∈ octet, isDigit c = true
  octet : Octet octet

/-- Four numbers, with dots between them. -/
def DottedQuad (text : WString) : Prop :=
  ∃ a b c d, text = a ++ 0x2E :: (b ++ 0x2E :: (c ++ 0x2E :: d)) ∧
    OctetNumber a ∧ OctetNumber b ∧ OctetNumber c ∧ OctetNumber d

section DottedQuad

variable {octet text : WString}

theorem OctetNumber.dot_notMem (h : OctetNumber octet) : (0x2E : WChar) ∉ octet := fun hmem =>
  absurd (h.digits _ hmem) (by decide)

theorem octets_digits (text : WString) :
    ∀ octet ∈ octets text, ∀ c ∈ octet, isDigit c = true := by
  induction text with
  | nil =>
    rw [octets_nil]
    simp
  | cons c text ih =>
    obtain ⟨x, xs, hxs⟩ := List.exists_cons_of_ne_nil (octets_ne_nil text)
    rw [hxs, List.forall_mem_cons] at ih
    by_cases hdigit : isDigit c = true
    · rw [octets_digit hdigit, hxs, List.modifyHead_cons, List.forall_mem_cons,
        List.forall_mem_cons]
      exact ⟨⟨hdigit, ih.1⟩, ih.2⟩
    · by_cases hdot : c = 0x2E
      · rw [hdot, octets_dot, hxs]
        simpa using ih
      · rw [octets_stop hdigit hdot]
        simp

/-- The numbers between the dots are the octets. -/
theorem DottedQuad.octets (h : DottedQuad (addressPart text)) :
    ∃ a b c d, octets text = [a, b, c, d] ∧
      OctetNumber a ∧ OctetNumber b ∧ OctetNumber c ∧ OctetNumber d := by
  obtain ⟨a, b, c, d, htext, ha, hb, hc, hd⟩ := h
  refine ⟨a, b, c, d, ?_, ha, hb, hc, hd⟩
  rw [UriMatcher.octets, htext, List.splitOn_append_cons_self_of_not_mem ha.dot_notMem,
    List.splitOn_append_cons_self_of_not_mem hb.dot_notMem,
    List.splitOn_append_cons_self_of_not_mem hc.dot_notMem,
    List.splitOn_eq_singleton hd.dot_notMem]

theorem dottedQuad_of_octets {a b c d : WString} (h : octets text = [a, b, c, d])
    (hnumber : ∀ x ∈ octets text, OctetNumber x) : DottedQuad (addressPart text) := by
  rw [h] at hnumber
  refine ⟨a, b, c, d, ?_, hnumber a (by simp), hnumber b (by simp), hnumber c (by simp),
    hnumber d (by simp)⟩
  have hjoin : List.intercalate [(0x2E : WChar)] ((addressPart text).splitOn 0x2E) =
      addressPart text := List.intercalate_splitOn 0x2E
  rw [← hjoin]
  change List.intercalate [0x2E] (octets text) = _
  rw [h]
  simp

/-- The numbers are none of them empty: `1..2.3` is taken for an address. -/
def NoEmptyOctet (text : WString) : Prop :=
  (octets text).length = 4 → ∀ x ∈ octets text, x ≠ []

/-- Nothing says where the address ends. -/
theorem hasIpAddr_iff_dottedQuad (text : WString) (first last : Nat)
    (hempty : NoEmptyOctet (slice text first last)) :
    hasIpAddr text first last = true ↔ DottedQuad (addressPart (slice text first last)) := by
  rw [hasIpAddr_iff_octets]
  constructor
  · rintro ⟨hfour, hoctet⟩
    have hnumber : ∀ x ∈ octets (slice text first last), OctetNumber x := fun x hx =>
      ⟨hempty hfour x hx, octets_digits _ x hx, hoctet x hx⟩
    obtain ⟨a, b, c, d, h⟩ := List.length_eq_four.mp hfour
    exact dottedQuad_of_octets h hnumber
  · intro h
    obtain ⟨a, b, c, d, hoctets, ha, hb, hc, hd⟩ := h.octets
    rw [hoctets]
    refine ⟨rfl, fun x hx => ?_⟩
    simp only [List.mem_cons, List.not_mem_nil, or_false] at hx
    obtain rfl | rfl | rfl | rfl := hx
    exacts [ha.octet, hb.octet, hc.octet, hd.octet]

theorem dottedQuad_192_168_0_1 :
    NoEmptyOctet (slice (wide "192.168.0.1/24") 0 14) ∧
      DottedQuad (addressPart (slice (wide "192.168.0.1/24") 0 14)) :=
  ⟨fun _ => by decide, (hasIpAddr_iff_dottedQuad (wide "192.168.0.1/24") 0 14
    fun _ => by decide).mp (by decide)⟩

/-- Four numbers that are not too large, whatever follows them. -/
def BeginsWithQuad (text : WString) : Prop :=
  ∃ a b c d, a ++ 0x2E :: (b ++ 0x2E :: (c ++ 0x2E :: d)) <+: text ∧
    ∀ x ∈ [a, b, c, d], x ≠ [] ∧ (∀ c ∈ x, isDigit c = true) ∧ octetValue x ≤ 255

theorem numbers_of_all {numbers : List WString}
    (h : numbers.all (fun x =>
      !x.isEmpty && x.all isDigit && decide (octetValue x ≤ 255)) = true) :
    ∀ x ∈ numbers, x ≠ [] ∧ (∀ c ∈ x, isDigit c = true) ∧ octetValue x ≤ 255 := by
  simpa [and_assoc] using h

/-- Another number behind the fourth, or a zero in front of one, and it is no address. -/
theorem fifth_number_refused :
    (¬(hasIpAddr (wide "1.2.3.4.5") 0 9 = true ↔
        BeginsWithQuad (slice (wide "1.2.3.4.5") 0 9))) ∧
      ¬(hasIpAddr (wide "1.2.3.04") 0 8 = true ↔
        BeginsWithQuad (slice (wide "1.2.3.04") 0 8)) := by
  constructor
  · intro h
    have hquad := h.mpr ⟨wide "1", wide "2", wide "3", wide "4", by decide,
      numbers_of_all (by decide)⟩
    exact absurd hquad (by decide)
  · intro h
    have hquad := h.mpr ⟨wide "1", wide "2", wide "3", wide "04", by decide,
      numbers_of_all (by decide)⟩
    exact absurd hquad (by decide)

end DottedQuad

end UriMatcher

end Icq.Common
