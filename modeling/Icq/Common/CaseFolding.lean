import Mathlib.Data.Nat.Digits.Defs

/-! Wide characters and how they are made lower case. -/

namespace Icq.Common

/-- A code unit of UTF-16. -/
abbrev WChar := UInt16

abbrev WString := List WChar

def wide (s : String) : WString := s.toList.map fun c => UInt16.ofNat c.toNat

/-- Indices of sequences, indices of groups of eight, and what is added to the characters of each. -/
def casemapL2112 : List UInt16 := [
  0x0239, 0x01f6, 0x0215, 0x01bc, 0x013f, 0x0159, 0x025d, 0x025d, 0x025d, 0x025d, 0x025d, 0x025d,
  0x025d, 0x025d, 0x025d, 0x025d, 0x0165, 0x025d, 0x025d, 0x0269, 0x025d, 0x025d, 0x025d, 0x025d,
  0x025d, 0x025d, 0x025d, 0x025d, 0x0190, 0x025d, 0x01dc, 0x0288, 0x025d, 0x017f, 0x025d, 0x025d,
  0x021f, 0x025d, 0x025d, 0x025d, 0x025d, 0x025d, 0x025d, 0x025d, 0x0100, 0x025d, 0x025d, 0x025d,
  0x025d, 0x025d, 0x025d, 0x025d, 0x025d, 0x025d, 0x025d, 0x025d, 0x025d, 0x025d, 0x025d, 0x025d,
  0x025d, 0x025d, 0x025d, 0x025d, 0x025d, 0x025d, 0x025d, 0x025d, 0x025d, 0x025d, 0x025d, 0x025d,
  0x025d, 0x025d, 0x025d, 0x025d, 0x025d, 0x025d, 0x025d, 0x025d, 0x025d, 0x025d, 0x025d, 0x025d,
  0x025d, 0x025d, 0x025d, 0x025d, 0x025d, 0x025d, 0x025d, 0x025d, 0x025d, 0x025d, 0x025d, 0x025d,
  0x025d, 0x025d, 0x025d, 0x025d, 0x025d, 0x025d, 0x025d, 0x025d, 0x025d, 0x025d, 0x025d, 0x025d,
  0x025d, 0x025d, 0x025d, 0x025d, 0x025d, 0x025d, 0x025d, 0x025d, 0x025d, 0x025d, 0x025d, 0x025d,
  0x025d, 0x025d, 0x025d, 0x025d, 0x025d, 0x025d, 0x025d, 0x025d, 0x025d, 0x025d, 0x025d, 0x025d,
  0x025d, 0x025d, 0x025d, 0x025d, 0x025d, 0x025d, 0x025d, 0x025d, 0x025d, 0x025d, 0x025d, 0x025d,
  0x025d, 0x025d, 0x025d, 0x025d, 0x025d, 0x025d, 0x025d, 0x025d, 0x025d, 0x025d, 0x025d, 0x025d,
  0x025d, 0x025d, 0x025d, 0x025d, 0x025d, 0x025d, 0x025d, 0x025d, 0x025d, 0x025d, 0x01a8, 0x011f,
  0x025d, 0x025d, 0x025d, 0x025d, 0x025d, 0x025d, 0x025d, 0x025d, 0x025d, 0x025d, 0x025d, 0x025d,
  0x025d, 0x025d, 0x025d, 0x025d, 0x025d, 0x025d, 0x025d, 0x025d, 0x025d, 0x025d, 0x025d, 0x025d,
  0x025d, 0x025d, 0x025d, 0x025d, 0x025d, 0x025d, 0x025d, 0x025d, 0x025d, 0x025d, 0x025d, 0x025d,
  0x025d, 0x025d, 0x025d, 0x025d, 0x025d, 0x025d, 0x025d, 0x025d, 0x025d, 0x025d, 0x025d, 0x025d,
  0x025d, 0x025d, 0x025d, 0x025d, 0x025d, 0x025d, 0x025d, 0x025d, 0x025d, 0x025d, 0x025d, 0x025d,
  0x025d, 0x025d, 0x025d, 0x025d, 0x025d, 0x025d, 0x025d, 0x025d, 0x025d, 0x025d, 0x025d, 0x025d,
  0x025d, 0x025d, 0x025d, 0x025d, 0x025d, 0x025d, 0x025d, 0x025d, 0x025d, 0x025d, 0x025d, 0x025d,
  0x025d, 0x025d, 0x025d, 0x0255, 0x02ef, 0x02ef, 0x02ef, 0x02ef, 0x02ef, 0x02f1, 0x02ca, 0x02ca,
  0x02ca, 0x02ca, 0x02ca, 0x02ca, 0x02fe, 0x02de, 0x0385, 0x037d, 0x03bc, 0x03bc, 0x03bc, 0x03bc,
  0x03bc, 0x03bc, 0x03bc, 0x03bc, 0x03bc, 0x03bc, 0x03bc, 0x03bc, 0x031c, 0x039f, 0x0388, 0x02ca,
  0x02ca, 0x02ca, 0x02ca, 0x0303, 0x03bc, 0x0303, 0x03bc, 0x03bc, 0x03bc, 0x03bc, 0x03bc, 0x03bc,
  0x03bc, 0x02ca, 0x02f8, 0x03bc, 0x03d5, 0x0307, 0x03bc, 0x03bc, 0x03ac, 0x03fc, 0x03bc, 0x03a5,
  0x037b, 0x02ca, 0x02ca, 0x02ca, 0x02ca, 0x0377, 0x02ca, 0x03ec, 0x03ec, 0x0338, 0x0338, 0x0338,
  0x0338, 0x02ca, 0x02ca, 0x02ca, 0x02ca, 0x02ca, 0x02ca, 0x03bc, 0x03bc, 0x03bc, 0x03bc, 0x038a,
  0x0303, 0x03bc, 0x03bc, 0x03bc, 0x03bc, 0x03bc, 0x03bc, 0x0315, 0x0319, 0x03bc, 0x03bc, 0x03bc,
  0x03bc, 0x03bc, 0x03bc, 0x02ed, 0x02ef, 0x02ef, 0x02ef, 0x02f1, 0x02ca, 0x02ca, 0x02ca, 0x02ca,
  0x02ca, 0x02ca, 0x02ca, 0x02ca, 0x02ca, 0x02ca, 0x02ca, 0x02ca, 0x02ca, 0x02ca, 0x02ca, 0x02ca,
  0x02ca, 0x02ca, 0x02ca, 0x02ca, 0x02ca, 0x03c6, 0x03c6, 0x03c6, 0x03c6, 0x03c8, 0x031f, 0x02ca,
  0x02ca, 0x02ca, 0x02ca, 0x02ca, 0x02ca, 0x0358, 0x02ca, 0x02ca, 0x02ca, 0x02ca, 0x02ca, 0x0418,
  0x0418, 0x02ca, 0x02ca, 0x0379, 0x02ca, 0x02ca, 0x02ca, 0x02ca, 0x02ca, 0x02ca, 0x02ca, 0x02ca,
  0x02ca, 0x02ca, 0x02ca, 0x02ca, 0x02ca, 0x02ca, 0x02ca, 0x02ca, 0x02ca, 0x02ca, 0x02ad, 0x02ad,
  0x02ad, 0x02ad, 0x02ad, 0x02a8, 0x02ca, 0x02ca, 0x02ca, 0x02ca, 0x02ca, 0x02ca, 0x02ca, 0x02ca,
  0x03bc, 0x03bc, 0x03bc, 0x03bc, 0x03bc, 0x0305, 0x02ca, 0x02ca, 0x03bc, 0x03bc, 0x03bc, 0x031c,
  0x02ca, 0x02ca, 0x02ca, 0x02ca, 0x02ca, 0x02ca, 0x02ca, 0x02ca, 0x02ca, 0x02ca, 0x02ca, 0x02ca,
  0x02ca, 0x02ca, 0x0307, 0x02cc, 0x0341, 0x03f4, 0x0336, 0x0338, 0x0334, 0x033d, 0x02ca, 0x02ca,
  0x02ca, 0x035b, 0x02ca, 0x03bc, 0x03bc, 0x03bc, 0x0375, 0x03b3, 0x03bc, 0x03bc, 0x03bc, 0x03bc,
  0x03bc, 0x03bc, 0x03bc, 0x03bc, 0x03bc, 0x03bc, 0x03bc, 0x03bc, 0x03bc, 0x03bc, 0x03bc, 0x03bc,
  0x03bc, 0x03bc, 0x0305, 0x02ca, 0x03bc, 0x03bc, 0x03bc, 0x03bc, 0x03bc, 0x03bc, 0x03bc, 0x03bc,
  0x03bc, 0x03bc, 0x03bc, 0x03bc, 0x0303, 0x0317, 0x0317, 0x0303, 0x03bc, 0x03bc, 0x03bc, 0x03bc,
  0x03bc, 0x02e6, 0x0348, 0x03dc, 0x0410, 0x030d, 0x03be, 0x0408, 0x032c, 0x0309, 0x02b9, 0x02da,
  0x0317, 0x03a1, 0x03bc, 0x03bc, 0x02bf, 0x03bc, 0x03bc, 0x03bc, 0x03bc, 0x03ba, 0x03bc, 0x031c,
  0x0325, 0x0401, 0x03bc, 0x02ca, 0x02ca, 0x02ca, 0x02ca, 0x02ca, 0x02ca, 0x02ca, 0x02ca, 0x02ca,
  0x02ca, 0x02ca, 0x02ca, 0x02ca, 0x02ca, 0x02ca, 0x02ca, 0x02ca, 0x02ca, 0x02ca, 0x02ca, 0x02ca,
  0x02ca, 0x038c, 0x0392, 0x0392, 0x0392, 0x02ca, 0x02ca, 0x02ca, 0x02ca, 0x02ca, 0x02ca, 0x02ca,
  0x02ca, 0x0336, 0x0338, 0x0338, 0x02c7, 0x02ca, 0x02ca, 0x02ca, 0x02ca, 0x02ca, 0x02ca, 0x02ca,
  0x02ca, 0x02ca, 0x02ca, 0x02ca, 0x02ca, 0x0338, 0x0338, 0x033a, 0x033a, 0x02ca, 0x02ca, 0x02ca,
  0x02ca, 0x0336, 0x0338, 0x0338, 0x02c7, 0x02ca, 0x02ca, 0x02ca, 0x02ca, 0x02ca, 0x02ca, 0x02ca,
  0x02ca, 0x02ca, 0x02ca, 0x02ca, 0x02ca, 0x02ca, 0x02ca, 0x02ca, 0x02ca, 0x02ca, 0x02ca, 0x02ca,
  0x02ca, 0x02ca, 0x02ca, 0x02ca, 0x02ca, 0x02ca, 0x02ca, 0x02ca, 0x02ca, 0x02ca, 0x02ca, 0x02ca,
  0x02ca, 0x03e4, 0x03e4, 0x03e4, 0x03e4, 0x03e4, 0x03e4, 0x03e4, 0x03e4, 0x03e4, 0x03e4, 0x0362,
  0x02ca, 0x0350, 0x02ca, 0x0352, 0x02ca, 0x0350, 0x02ca, 0x0350, 0x02ca, 0x0352, 0x02ca, 0x0369,
  0x02ca, 0x0350, 0x02ca, 0x02ca, 0x02ca, 0x0350, 0x02ca, 0x0350, 0x02ca, 0x0350, 0x02ca, 0x0370,
  0x02ca, 0x039a, 0x02ca, 0x02b5, 0x02ca, 0x02d4, 0x02ca, 0x03d0, 0xf440, 0xf440, 0xf440, 0x0000,
  0x0000, 0xf440, 0xf440, 0xf440, 0xf440, 0xf440, 0xf440, 0xf440, 0xf440, 0xfff8, 0xfff8, 0xff9c,
  0xff9c, 0x0000, 0x0000, 0x0000, 0x0000, 0x0002, 0x0000, 0x0000, 0x0002, 0x0000, 0x0000, 0x0001,
  0x0000, 0xff9f, 0xffc8, 0x0020, 0x0020, 0x0020, 0x0000, 0x0000, 0x0000, 0x0000, 0x0000, 0x0000,
  0x0000, 0x0000, 0x0000, 0x0074, 0xfff8, 0xfff8, 0xff90, 0xff90, 0xfff9, 0x0000, 0x0000, 0x0000,
  0x0002, 0x0000, 0x0000, 0x0001, 0x0000, 0x0001, 0x0000, 0xd5e4, 0xd603, 0xd5e1, 0xff87, 0x0001,
  0x0000, 0x0001, 0x0000, 0x0001, 0x0000, 0x0000, 0x0030, 0x0030, 0x0030, 0x0030, 0x0030, 0x0030,
  0x0030, 0x0030, 0x0030, 0x0030, 0x0000, 0x0001, 0x0000, 0x0001, 0x0000, 0x75fc, 0x0001, 0x0000,
  0xd609, 0xf11a, 0xd619, 0x0000, 0x0000, 0x0001, 0x0000, 0x0001, 0x0000, 0x0001, 0x0000, 0x0000,
  0x0000, 0x0001, 0x0000, 0x0000, 0x0000, 0x00d3, 0x00d5, 0x0000, 0x00d6, 0x000f, 0x0001, 0x0000,
  0x0001, 0x0000, 0x0001, 0x0000, 0x0001, 0x0000, 0x0001, 0x0000, 0x0000, 0x0000, 0x0000, 0x0000,
  0x1c60, 0x0000, 0x0000, 0x2a2b, 0x0001, 0x0000, 0xff5d, 0x2a28, 0x0000, 0x00d9, 0x00d9, 0x0001,
  0x0000, 0x0001, 0x0000, 0x00db, 0x0020, 0x0020, 0x0000, 0x0020, 0x0020, 0x0020, 0x0020, 0x0020,
  0x0020, 0x0020, 0x0020, 0x0020, 0x0020, 0x0000, 0x0000, 0x0000, 0x0000, 0x0000, 0x0000, 0x0026,
  0x0000, 0x00d2, 0x0001, 0x0000, 0x0001, 0x0000, 0x00ce, 0x0001, 0xfff8, 0xfff8, 0xfff8, 0xfff8,
  0xfff8, 0xfff8, 0xfff8, 0xfff8, 0x0000, 0x0000, 0x001c, 0x0000, 0x0000, 0x0000, 0x0000, 0x0000,
  0x0000, 0x0000, 0x0008, 0x0008, 0x0008, 0x0008, 0x0008, 0x0008, 0x0000, 0x0000, 0xfff8, 0x0000,
  0xfff8, 0x0000, 0xfff8, 0x0000, 0xfff8, 0xfff8, 0xffb6, 0xffb6, 0xfff7, 0x0000, 0x0000, 0x0000,
  0x0000, 0x0000, 0x0000, 0x0000, 0x0001, 0x0000, 0x0000, 0x0000, 0x0000, 0x0000, 0x0000, 0xd5c1,
  0xd5c1, 0xd5e2, 0x0000, 0x0001, 0x0000, 0x0000, 0x0001, 0x0000, 0x0000, 0x0000, 0x0000, 0x0000,
  0x0000, 0x0000, 0x001a, 0x001a, 0x001a, 0x001a, 0x001a, 0x001a, 0x001a, 0x001a, 0xffaa, 0xffaa,
  0xffaa, 0xffaa, 0xfff7, 0x0000, 0x0000, 0x0000, 0x0001, 0x0000, 0x0001, 0x0000, 0x0000, 0x0001,
  0x0000, 0xffd0, 0x5abd, 0x75c8, 0x0001, 0x0000, 0x5abc, 0x5ab1, 0x5ab5, 0x5abf, 0x5abc, 0x0000,
  0xfff9, 0x0001, 0x0000, 0x0000, 0xff7e, 0xff7e, 0xff7e, 0x0000, 0x0001, 0x0000, 0x0001, 0x0000,
  0x0001, 0x0000, 0x0001, 0x0000, 0x00da, 0x0001, 0x1c60, 0x1c60, 0x1c60, 0x1c60, 0x1c60, 0x1c60,
  0x1c60, 0x1c60, 0x0000, 0x1c60, 0xff80, 0xff80, 0xff82, 0xff82, 0xfff7, 0x0000, 0x0000, 0x0000,
  0x0001, 0x0000, 0x5ad8, 0x0000, 0x0000, 0x00cd, 0x00cd, 0x0001, 0x0000, 0x0000, 0x004f, 0x00ca,
  0x97d0, 0x97d0, 0x97d0, 0x97d0, 0x97d0, 0x97d0, 0x97d0, 0x97d0, 0x0050, 0x0050, 0x0050, 0x0050,
  0x0050, 0x0050, 0x0050, 0x0050, 0x0025, 0x0025, 0x0025, 0x0000, 0x0040, 0x0000, 0x003f, 0x003f,
  0x5aee, 0x5ad6, 0x5aeb, 0x03a0, 0x0001, 0x0000, 0x0001, 0x0000, 0xff3d, 0x0045, 0x0047, 0x0001,
  0x0000, 0x00da, 0x0000, 0x0000, 0x0001, 0x0000, 0x00da, 0x0001, 0x00cb, 0x0001, 0x0000, 0x00cd,
  0x00cf, 0x0000, 0x00d3, 0x00d1, 0x0010, 0x0010, 0x0010, 0x0010, 0x0010, 0x0010, 0x0010, 0x0010]

def tolowercase (c : WChar) : WChar :=
  let entry i := casemapL2112.getD i 0
  let sequence := (entry (c >>> 8).toNat).toNat
  let group := (entry (sequence + ((c >>> 3) &&& 0x1f).toNat)).toNat
  c + entry (group + (c &&& 0x07).toNat)

/-- The low byte alone is made lower case. -/
def asciiLower (c : WChar) : UInt8 :=
  let b := UInt8.ofNat (c &&& 0xff).toNat
  if 65 ≤ b ∧ b ≤ 90 then b ||| 0x20 else b

/-- The table as one number, in which an entry is found by a shift. -/
def packed (table : List UInt16) : Nat := Nat.ofDigits 65536 (table.map UInt16.toNat)

def packedEntry (n i : Nat) : Nat := n >>> (16 * i) % 65536

theorem packedEntry_packed (table : List UInt16) (i : Nat) :
    packedEntry (packed table) i = (table.getD i 0).toNat := by
  induction table generalizing i with
  | nil => simp [packed, packedEntry]
  | cons x table ih =>
    have hx : x.toNat < 65536 := x.toNat_lt
    have hpacked : packed (x :: table) = x.toNat + 65536 * packed table := Nat.ofDigits_cons
    rw [hpacked]
    cases i with
    | zero => simp [packedEntry, Nat.add_mul_mod_self_left, Nat.mod_eq_of_lt hx]
    | succ i =>
      have hnext : (x.toNat + 65536 * packed table) >>> 16 = packed table := by
        rw [Nat.shiftRight_eq_div_pow]
        omega
      have hplace : 16 * (i + 1) = 16 + 16 * i := by omega
      rw [packedEntry, hplace, Nat.shiftRight_add, hnext, List.getD_cons_succ]
      exact ih i

/-- `tolowercase` on numbers. -/
def lowered (table c : Nat) : Nat :=
  (c + packedEntry table (packedEntry table (packedEntry table (c / 256) + c / 8 % 32) + c % 8)) % 65536

theorem toNat_tolowercase (c : WChar) :
    (tolowercase c).toNat = lowered (packed casemapL2112) c.toNat := by
  have hpage : (c >>> 8).toNat = c.toNat / 256 := by simp [Nat.shiftRight_eq_div_pow]
  have hgroup : ((c >>> 3) &&& 0x1f).toNat = c.toNat / 8 % 32 := by
    simp [Nat.shiftRight_eq_div_pow, Nat.and_two_pow_sub_one_eq_mod _ 5]
  have hlast : (c &&& 0x07).toNat = c.toNat % 8 := by
    simp [Nat.and_two_pow_sub_one_eq_mod _ 3]
  rw [tolowercase, lowered, UInt16.toNat_add, hpage, hgroup, hlast]
  simp only [packedEntry_packed]

/-- On most of the 256 pages every character is its own lower case. -/
def isPlainPage (table page : Nat) : Bool := packedEntry table page == 0x25d

theorem lowered_plain {c : Nat} (hc : c < 65536)
    (hpage : isPlainPage (packed casemapL2112) (c / 256) = true) :
    lowered (packed casemapL2112) c = c := by
  have hall : (List.range 256).all (fun low => packedEntry (packed casemapL2112)
      (packedEntry (packed casemapL2112) (0x25d + low / 8) + low % 8) == 0) = true := by
    decide +kernel
  have hlow := List.all_eq_true.mp hall (c % 256)
    (List.mem_range.mpr (Nat.mod_lt c (by omega)))
  have hgroup : c % 256 / 8 = c / 8 % 32 := by omega
  have hlast : c % 256 % 8 = c % 8 := by omega
  rw [hgroup, hlast] at hlow
  rw [lowered, eq_of_beq hpage, eq_of_beq hlow, Nat.add_zero, Nat.mod_eq_of_lt hc]

/-- What is true of every character and itself, and on the other pages of every character and its
lower case. -/
theorem forall_lowered {p : Nat → Nat → Bool} (hsame : ∀ c, p c c = true)
    (hpages : (List.range 256).all (fun page => isPlainPage (packed casemapL2112) page ||
      (List.range 256).all fun low => p (256 * page + low)
        (lowered (packed casemapL2112) (256 * page + low))) = true) (c : WChar) :
    p c.toNat (tolowercase c).toNat = true := by
  have hc : c.toNat < 65536 := c.toNat_lt
  have hpage := List.all_eq_true.mp hpages (c.toNat / 256) (List.mem_range.mpr (by omega))
  rw [toNat_tolowercase]
  rcases Bool.or_eq_true_iff.mp hpage with hplain | hpage
  · rw [lowered_plain hc hplain]
    exact hsame _
  · have hlow := List.all_eq_true.mp hpage (c.toNat % 256)
      (List.mem_range.mpr (Nat.mod_lt _ (by omega)))
    rwa [Nat.div_add_mod] at hlow

theorem tolowercase_tolowercase (c : WChar) : tolowercase (tolowercase c) = tolowercase c := by
  apply UInt16.toNat_inj.mp
  rw [toNat_tolowercase]
  have hall := forall_lowered (p := fun c d =>
    c == d || lowered (packed casemapL2112) d == d) (fun c => by simp) (by decide +kernel) c
  rcases Bool.or_eq_true_iff.mp hall with hsame | hfixed
  · have h := toNat_tolowercase c
    rw [← eq_of_beq hsame] at h ⊢
    exact h.symm
  · exact eq_of_beq hfixed

theorem asciiLower_tolowercase {c : WChar} (hc : tolowercase c < 128) :
    asciiLower (tolowercase c) = asciiLower c := by
  have hall := forall_lowered (p := fun c d => decide (128 ≤ d) ||
    asciiLower (UInt16.ofNat c) == asciiLower (UInt16.ofNat d)) (fun c => by simp)
    (by decide +kernel) c
  rcases Bool.or_eq_true_iff.mp hall with hbig | hsame
  · exact absurd (UInt16.lt_iff_toNat_lt.mp hc) (not_lt.mpr (of_decide_eq_true hbig))
  · rw [UInt16.ofNat_toNat, UInt16.ofNat_toNat] at hsame
    exact (eq_of_beq hsame).symm

end Icq.Common
