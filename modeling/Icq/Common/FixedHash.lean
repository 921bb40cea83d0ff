import Icq.Common.CaseFolding
import Icq.Common.RkSearcherComplete

/-! The hashes of the first characters of a string. -/

namespace Icq.Common

/-- A narrow character. -/
def tolowercaseChar (c : UInt8) : UInt8 := if 65 ≤ c ∧ c ≤ 90 then c ||| 0x20 else c

/-- Characters of strings, and how they are made lower case. -/
structure CharTraits (α : Type) where
  /-- How many bytes one takes. -/
  size : Nat
  toNat : α → Nat
  tolowercase : α → α
  lower_lower : ∀ c, tolowercase (tolowercase c) = tolowercase c
  /-- The low byte in lower case. -/
  asciiLower : α → UInt8

namespace CharTraits

def char : CharTraits UInt8 where
  size := 1
  toNat := UInt8.toNat
  tolowercase := tolowercaseChar
  lower_lower c := by
    have hall : ∀ b : Fin 256, tolowercaseChar (tolowercaseChar ⟨⟨b⟩⟩) = tolowercaseChar ⟨⟨b⟩⟩ := by
      decide +kernel
    exact hall c.toFin
  asciiLower := tolowercaseChar

def wchar : CharTraits WChar where
  size := 2
  toNat := UInt16.toNat
  tolowercase := Common.tolowercase
  lower_lower := tolowercase_tolowercase
  asciiLower := Common.asciiLower

end CharTraits

/-- A buffer that fits into a word is read as one, with zeros behind; a longer one is left to Boost. -/
def computeHash (hashRange : List Nat → Nat) (size width : Nat) (buf : List Nat) : Nat :=
  if size * width ≤ 8 then Nat.ofDigits (2 ^ (8 * size)) buf else hashRange buf

/-- In a block of three the second character is written a second time in place of the third. -/
def asciiBlock : List UInt8 → List UInt8
  | [a, b, _] => [a, b, b]
  | out => out

/-- The blocks for each width: those of two and of four copy all of their characters. -/
def transformAscii (width : Nat) (out : List UInt8) : List UInt8 :=
  match width with
  | 3 => asciiBlock out
  | 5 => out.take 2 ++ asciiBlock (out.drop 2)
  | 6 => asciiBlock (out.take 3) ++ asciiBlock (out.drop 3)
  | 7 => out.take 4 ++ asciiBlock (out.drop 4)
  | _ => out

/-- The hash of a container other than a string is Boost's. -/
inductive FixedHash (α : Type)
  | container (hashRange : List α → Nat)
  | string (chars : CharTraits α) (hashRange : List Nat → Nat)
  | ascii (chars : CharTraits α) (hashRange : List Nat → Nat)

namespace FixedHash

variable {α π : Type}

/-- Of a container or string the first `width` elements. -/
def hash (width : Nat) : FixedHash α → List α → Nat
  | container hashRange, s => hashRange (s.take width)
  | string chars hashRange, s =>
    computeHash hashRange chars.size width
      ((s.take width).map fun c => chars.toNat (chars.tolowercase c))
  | ascii chars hashRange, s =>
    computeHash hashRange 1 width
      ((transformAscii width ((s.take width).map chars.asciiLower)).map UInt8.toNat)

/-- What is done to a character of the text before it is compared. Only strings have a case. -/
def fold (caseFolding : Bool) : FixedHash α → α → α
  | container _ => id
  | string chars _ | ascii chars _ => if caseFolding then chars.tolowercase else id

def hashing [DecidableEq α] (h : FixedHash α) {width : Nat} (hwidth : 0 < width)
    (caseFolding : Bool) : Hashing α where
  width
  width_pos := hwidth
  equal x y := decide (h.fold caseFolding x = y)
  hash := h.hash width

/-- The pattern has the hash of everything that it is in lower case. -/
def HashesFolded (h : FixedHash α) (width : Nat) (caseFolding : Bool) (pattern : List α) : Prop :=
  match h, caseFolding with
  | ascii chars _, true => ∀ text, text.map chars.tolowercase = pattern →
      h.hash width text = h.hash width pattern
  | _, _ => True

@[simp] theorem hash_take (h : FixedHash α) (width : Nat) (s : List α) :
    h.hash width (s.take width) = h.hash width s := by
  cases h <;> simp [hash, List.take_take]

@[simp] theorem fold_exact (h : FixedHash α) : h.fold false = id := by
  cases h <;> rfl

theorem equal_iff [DecidableEq α] {h : FixedHash α} {width : Nat} {hwidth : 0 < width}
    {caseFolding : Bool} {found pattern : List α} :
    List.Forall₂ (fun x y => (h.hashing hwidth caseFolding).equal x y = true) found pattern ↔
      found.map (h.fold caseFolding) = pattern := by
  simp only [hashing, decide_eq_true_eq]
  rw [← List.forall₂_map_left_iff, List.forall₂_eq_eq_eq]

/-- What is in lower case is not changed by making it lower case. -/
theorem hash_fold {h : FixedHash α} {width : Nat} {caseFolding : Bool} {text pattern : List α}
    (hhash : h.HashesFolded width caseFolding pattern)
    (htext : text.map (h.fold caseFolding) = pattern) :
    h.hash width text = h.hash width pattern := by
  cases caseFolding with
  | false =>
    rw [fold_exact, List.map_id] at htext
    rw [htext]
  | true =>
    cases h with
    | container =>
      have htext : text.map id = pattern := htext
      rw [List.map_id] at htext
      rw [htext]
    | string chars =>
      subst htext
      simp [hash, fold, ← List.map_take, Function.comp_def, chars.lower_lower]
    | ascii => exact hhash text htext

/-- The patterns that a hash suits are those whose own hash it is in every case. -/
theorem suits_iff [DecidableEq α] {h : FixedHash α} {width : Nat} {hwidth : 0 < width}
    {caseFolding : Bool} {key : π → List α} {patterns : List π}
    (hlong : ∀ p ∈ patterns, width ≤ (key p).length) :
    (h.hashing hwidth caseFolding).Suits key patterns ↔
      ∀ p ∈ patterns, h.HashesFolded width caseFolding (key p) := by
  constructor
  · intro hsuits p hp
    match h, caseFolding with
    | ascii chars hashRange, true =>
      intro text htext
      have hcode := hsuits.agrees p hp text (equal_iff.mpr htext)
      simpa [Hashing.code, hashing] using hcode
    | container _, _ => trivial
    | string _ _, _ => trivial
    | ascii _ _, false => trivial
  · intro hhash
    refine ⟨hlong, fun p hp found hequal => ?_⟩
    simpa [Hashing.code, hashing] using hash_fold (hhash p hp) (equal_iff.mp hequal)

/-- It is enough that each hashed character is hashed as those that it is the lower case of. -/
theorem hashesFolded_of_chars {chars : CharTraits α} {hashRange : List Nat → Nat} {width : Nat}
    {pattern : List α} (hchars : ∀ x, chars.tolowercase x ∈ pattern.take width →
      chars.asciiLower (chars.tolowercase x) = chars.asciiLower x) (caseFolding : Bool) :
    (ascii chars hashRange).HashesFolded width caseFolding pattern := by
  cases caseFolding with
  | false => trivial
  | true =>
    intro text htext
    subst htext
    have hsame : ((text.map chars.tolowercase).take width).map chars.asciiLower =
        (text.take width).map chars.asciiLower := by
      rw [← List.map_take, List.map_map]
      refine List.map_congr_left fun x hx => hchars x ?_
      rw [← List.map_take]
      exact List.mem_map_of_mem hx
    simp only [hash, hsame]

theorem hashesFolded_char (hashRange : List Nat → Nat) (width : Nat) (pattern : List UInt8)
    (caseFolding : Bool) :
    (ascii .char hashRange).HashesFolded width caseFolding pattern :=
  hashesFolded_of_chars (fun x _ => CharTraits.char.lower_lower x) caseFolding

theorem hashesFolded_ascii {hashRange : List Nat → Nat} {width : Nat} {pattern : WString}
    (hascii : ∀ c ∈ pattern.take width, c < 128) (caseFolding : Bool) :
    (ascii .wchar hashRange).HashesFolded width caseFolding pattern :=
  hashesFolded_of_chars (fun _ hx => asciiLower_tolowercase (hascii _ hx)) caseFolding

end FixedHash

end Icq.Common
