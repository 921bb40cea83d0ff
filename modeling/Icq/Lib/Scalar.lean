import Mathlib.Data.List.Basic
import Mathlib.Tactic.Ring

namespace Icq.Lib

abbrev Bytes := List UInt8

/-- The bytes of ASCII characters. -/
def ascii (text : List Char) : Bytes := text.map fun c => c.toNat.toUInt8

/-- The low `n` bytes of a word, least significant first. -/
def leBytes : Nat → Nat → Bytes
  | 0, _ => []
  | n + 1, v => UInt8.ofNat v :: leBytes n (v / 256)

def leNat : Bytes → Nat
  | [] => 0
  | b :: bs => b.toNat + 256 * leNat bs

@[simp] theorem length_leBytes (n v : Nat) : (leBytes n v).length = n := by
  induction n generalizing v with
  | zero => rfl
  | succ n ih => simp [leBytes, ih]

theorem leNat_leBytes (n v : Nat) : leNat (leBytes n v) = v % 256 ^ n := by
  induction n generalizing v with
  | zero => simp [leBytes, leNat, Nat.mod_one]
  | succ n ih =>
    have hb : (UInt8.ofNat v).toNat = v % 256 := by simp
    rw [leBytes, leNat, ih, hb, pow_succ', Nat.mod_mul]

theorem leNat_lt (bs : Bytes) : leNat bs < 256 ^ bs.length := by
  induction bs with
  | nil => exact Nat.one_pos
  | cons b bs ih =>
    have hb := b.toNat_lt
    rw [leNat, List.length_cons, pow_succ']
    omega

theorem leBytes_leNat (bs : Bytes) : leBytes bs.length (leNat bs) = bs := by
  induction bs with
  | nil => rfl
  | cons b bs ih =>
    have hb := b.toNat_lt
    have hdiv : (b.toNat + 256 * leNat bs) / 256 = leNat bs := by omega
    have hmod : UInt8.ofNat (b.toNat + 256 * leNat bs) = b := by
      apply UInt8.toNat_inj.mp
      rw [UInt8.toNat_ofNat']
      omega
    rw [leNat, List.length_cons, leBytes, hdiv, hmod, ih]

/-- A value copied to and from memory as a fixed number of raw bytes. -/
class Scalar (α : Type) where
  width : Nat
  width_pos : 0 < width
  toWord : α → Nat
  ofWord : Nat → α
  ofWord_toWord : ∀ a, ofWord (toWord a % 256 ^ width) = a

namespace Scalar

variable {α : Type} [Scalar α]

def encode (a : α) : Bytes := leBytes (width α) (toWord a)

def decode (bs : Bytes) : α := ofWord (leNat (bs.take (width α)))

/-- Take one value off the front; a short input leaves nothing to read. -/
def read (α : Type) [Scalar α] (bs : Bytes) : Option (α × Bytes) :=
  if bs.length < width α then none else some (decode bs, bs.drop (width α))

@[simp] theorem length_encode (a : α) : (encode a).length = width α := length_leBytes _ _

@[simp] theorem decode_encode_append (a : α) (rest : Bytes) : decode (encode a ++ rest) = a := by
  have ht : (encode a ++ rest).take (width α) = encode a := by
    rw [← length_encode a, List.take_left]
  rw [decode, ht, encode, leNat_leBytes, ofWord_toWord]

@[simp] theorem decode_encode (a : α) : decode (encode a) = a := by
  simpa using decode_encode_append a []

@[simp] theorem read_encode (a : α) (rest : Bytes) : read α (encode a ++ rest) = some (a, rest) := by
  have hl : ¬ (encode a ++ rest).length < width α := by simp
  have hd : (encode a ++ rest).drop (width α) = rest := by
    rw [← length_encode a, List.drop_left]
  rw [read, if_neg hl, decode_encode_append, hd]

theorem encode_injective {a b : α} (h : encode a = encode b) : a = b := by
  rw [← decode_encode a, h, decode_encode]

theorem read_isSome {bs : Bytes} (h : width α ≤ bs.length) :
    read α bs = some (decode bs, bs.drop (width α)) := by
  rw [read, if_neg (by omega)]

end Scalar

instance : Scalar UInt8 where
  width := 1
  width_pos := by decide
  toWord a := a.toNat
  ofWord := UInt8.ofNat
  ofWord_toWord a := by
    rw [Nat.mod_eq_of_lt (by simpa using a.toNat_lt)]
    simp

instance : Scalar UInt32 where
  width := 4
  width_pos := by decide
  toWord a := a.toNat
  ofWord := UInt32.ofNat
  ofWord_toWord a := by
    rw [Nat.mod_eq_of_lt (by simpa using a.toNat_lt)]
    simp

/-- Four bytes are those of the word they were read as. -/
theorem Scalar.encode_decode {bs : Bytes} (h : 4 ≤ bs.length) :
    Scalar.encode (Scalar.decode bs : UInt32) = bs.take 4 := by
  have hlen : (bs.take 4).length = 4 := List.length_take_of_le h
  have hlt : leNat (bs.take 4) < 2 ^ 32 := (leNat_lt (bs.take 4)).trans_eq (by rw [hlen]; rfl)
  show leBytes 4 (UInt32.ofNat (leNat (bs.take 4))).toNat = _
  rw [UInt32.toNat_ofNat', Nat.mod_eq_of_lt hlt]
  calc leBytes 4 (leNat (bs.take 4))
      = leBytes (bs.take 4).length (leNat (bs.take 4)) := by rw [hlen]
    _ = bs.take 4 := leBytes_leNat _

instance : Scalar UInt64 where
  width := 8
  width_pos := by decide
  toWord a := a.toNat
  ofWord := UInt64.ofNat
  ofWord_toWord a := by
    rw [Nat.mod_eq_of_lt (by simpa using a.toNat_lt)]
    simp

instance : Scalar Int32 where
  width := 4
  width_pos := by decide
  toWord a := a.toUInt32.toNat
  ofWord n := (UInt32.ofNat n).toInt32
  ofWord_toWord a := by
    rw [Nat.mod_eq_of_lt (by simpa using a.toUInt32.toNat_lt)]
    simp

instance : Scalar Int64 where
  width := 8
  width_pos := by decide
  toWord a := a.toUInt64.toNat
  ofWord n := (UInt64.ofNat n).toInt64
  ofWord_toWord a := by
    rw [Nat.mod_eq_of_lt (by simpa using a.toUInt64.toNat_lt)]
    simp

/-- One byte; every non-zero byte reads back as `true`. -/
instance : Scalar Bool where
  width := 1
  width_pos := by decide
  toWord b := b.toNat
  ofWord n := n != 0
  ofWord_toWord b := by cases b <;> rfl

end Icq.Lib
