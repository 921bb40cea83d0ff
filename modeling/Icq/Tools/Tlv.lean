import Icq.Lib.Parser

namespace Icq.Tools
open Icq.Lib

/-- A tagged value. -/
structure Tlv where
  type : UInt32 := 0
  value : Bytes := []
deriving DecidableEq, Repr

abbrev TlvPack := List Tlv

namespace Tlv

/-- The tag, the length in 32 bits, and then all of the value. -/
def serialize (t : Tlv) : Bytes :=
  Scalar.encode t.type ++ (Scalar.encode (UInt32.ofNat t.value.length) ++ t.value)

/-- Read one value. A rest too short for a tag and a length is dropped and counts as an empty
value. -/
def unserialize : Parser Tlv := fun bs =>
  if bs.length < 8 then .ok ({}, [])
  else
    (do
      let type ← Parser.take UInt32
      let length ← Parser.take UInt32
      if length = 0 then pure { type }
      else
        Parser.need length.toNat
        let value ← Parser.takeBytes length.toNat
        pure { type, value } : Parser Tlv) bs

/-- A scalar out of the value; a value too short for it counts as zero. -/
def getValue (α : Type) [Scalar α] (t : Tlv) : α :=
  match Scalar.read α t.value with
  | some (a, _) => a
  | none => Scalar.ofWord 0

/-- The value of a short enough text; one of `2 ^ 32` bytes or more is cut. -/
def textValue (text : Bytes) : Bytes := text.take (UInt32.ofNat text.length).toNat

def ofText (type : UInt32) (text : Bytes) : Tlv := { type, value := textValue text }

def ofScalar {α : Type} [Scalar α] (type : UInt32) (a : α) : Tlv := { type, value := Scalar.encode a }

theorem length_textValue (text : Bytes) : (textValue text).length < 2 ^ 32 := by
  have := (UInt32.ofNat text.length).toNat_lt
  rw [textValue, List.length_take]
  omega

theorem textValue_eq {text : Bytes} (h : text.length < 2 ^ 32) : textValue text = text := by
  rw [textValue, UInt32.toNat_ofNat', Nat.mod_eq_of_lt h, List.take_length]

@[simp] theorem getValue_ofScalar {α : Type} [Scalar α] (type : UInt32) (a : α) :
    getValue α (ofScalar type a) = a := by
  have hr := Scalar.read_encode a []
  rw [List.append_nil] at hr
  simp only [getValue, ofScalar, hr]

@[simp] theorem type_ofText (type : UInt32) (text : Bytes) : (ofText type text).type = type := rfl

@[simp] theorem value_ofText (type : UInt32) (text : Bytes) :
    (ofText type text).value = textValue text := rfl

@[simp] theorem type_ofScalar {α : Type} [Scalar α] (type : UInt32) (a : α) :
    (ofScalar type a).type = type := rfl

/-- Reading a written value gives it back, whatever follows. -/
theorem unserialize_serialize {t : Tlv} (h : t.value.length < 2 ^ 32) (rest : Bytes) :
    unserialize (t.serialize ++ rest) = .ok (t, rest) := by
  obtain ⟨type, value⟩ := t
  have hlen : (UInt32.ofNat value.length).toNat = value.length := by
    rw [UInt32.toNat_ofNat', Nat.mod_eq_of_lt h]
  have hlong : ¬ (serialize ⟨type, value⟩ ++ rest).length < 8 := by
    simp only [serialize, List.length_append, Scalar.length_encode, Scalar.width]
    omega
  unfold unserialize
  rw [if_neg hlong]
  simp only [serialize, List.append_assoc]
  rw [Parser.bind_ok (Parser.take_encode _ _), Parser.bind_ok (Parser.take_encode _ _)]
  by_cases hz : UInt32.ofNat value.length = 0
  · have hnil : value = [] := by
      rw [hz] at hlen
      exact List.length_eq_zero_iff.mp hlen.symm
    rw [if_pos hz, hnil]
    rfl
  · have hne : value.length ≠ 0 := by
      intro h0
      exact hz (by rw [h0]; rfl)
    rw [if_neg hz, hlen, Parser.bind_ok (Parser.need_ok (by simp)),
      Parser.bind_ok (Parser.takeBytes_append rfl hne)]
    rfl

end Tlv

namespace TlvPack

def serialize (pack : TlvPack) : Bytes := pack.flatMap Tlv.serialize

/-- What reading values off a byte string gives: whether all could be read, those that could, and
the bytes that are still there. -/
structure Taken where
  complete : Bool
  pack : TlvPack
  left : Bytes

/-- Read values until nothing is left; what was read before a failure stays. -/
def unserializeLoop : Nat → TlvPack → Bytes → Taken
  | 0, pack, bs => { complete := true, pack, left := bs }
  | fuel + 1, pack, bs =>
    if bs.length = 0 then { complete := true, pack, left := bs }
    else
      match Tlv.unserialize bs with
      | .ok (t, rest) => unserializeLoop fuel (pack ++ [t]) rest
      -- the tag and the length are read by now
      | _ => { complete := false, pack, left := bs.drop 8 }

def unserialize (bs : Bytes) : Taken := unserializeLoop (bs.length + 1) [] bs

def getItem (pack : TlvPack) (type : UInt32) : Option Tlv := pack.find? (fun t => t.type == type)

theorem unserializeLoop_serialize {pack read : TlvPack} {fuel : Nat}
    (h : ∀ t ∈ pack, t.value.length < 2 ^ 32) (hf : pack.length < fuel) :
    unserializeLoop fuel read pack.serialize = { complete := true, pack := read ++ pack, left := [] } := by
  induction pack generalizing read fuel with
  | nil =>
    obtain ⟨fuel, rfl⟩ := Nat.exists_eq_add_one_of_ne_zero (by omega : fuel ≠ 0)
    simp [unserializeLoop, serialize]
  | cons t pack ih =>
    obtain ⟨fuel, rfl⟩ := Nat.exists_eq_add_one_of_ne_zero (by omega : fuel ≠ 0)
    have hne : ¬ (serialize (t :: pack)).length = 0 := by
      simp [serialize, Tlv.serialize, Scalar.width]
    have hread : Tlv.unserialize (serialize (t :: pack)) = .ok (t, serialize pack) :=
      Tlv.unserialize_serialize (h t List.mem_cons_self) _
    rw [unserializeLoop, if_neg hne, hread]
    simp only
    rw [ih (fun x hx => h x (List.mem_cons_of_mem _ hx)) (by simpa using hf)]
    simp

theorem length_le_serialize (pack : TlvPack) : pack.length ≤ pack.serialize.length := by
  induction pack with
  | nil => exact Nat.le_refl _
  | cons t pack ih =>
    simp only [serialize, List.flatMap_cons, List.length_cons, List.length_append, Tlv.serialize,
      Scalar.length_encode, Scalar.width] at ih ⊢
    omega

theorem unserialize_serialize {pack : TlvPack} (h : ∀ t ∈ pack, t.value.length < 2 ^ 32) :
    unserialize pack.serialize = { complete := true, pack, left := [] } := by
  have hf := length_le_serialize pack
  rw [unserialize, unserializeLoop_serialize h (by omega), List.nil_append]

/-- Reading values off zeros gives values without a tag. -/
theorem unserializeLoop_zeros {read : TlvPack} {n fuel : Nat} (hf : n < fuel) :
    ∃ blanks : TlvPack, (∀ t ∈ blanks, t.type = 0) ∧
      unserializeLoop fuel read (List.replicate n 0) =
        { complete := true, pack := read ++ blanks, left := [] } := by
  induction n using Nat.strongRecOn generalizing read fuel with
  | ind n ih =>
    obtain ⟨fuel, rfl⟩ := Nat.exists_eq_add_one_of_ne_zero (by omega : fuel ≠ 0)
    rw [unserializeLoop, List.length_replicate]
    by_cases hz : n = 0
    · subst hz
      exact ⟨[], by simp, by simp⟩
    · have hread : Tlv.unserialize (List.replicate n 0) = .ok (⟨0, []⟩, List.replicate (n - 8) 0) := by
        by_cases hshort : n < 8
        · rw [Tlv.unserialize, List.length_replicate, if_pos hshort, Nat.sub_eq_zero_of_le (by omega)]
          rfl
        · have hsplit : List.replicate n 0 = (⟨0, []⟩ : Tlv).serialize ++ List.replicate (n - 8) 0 := by
            have hhead : (⟨0, []⟩ : Tlv).serialize = List.replicate 8 0 := rfl
            rw [hhead, ← List.replicate_add]
            congr 1
            omega
          rw [hsplit]
          exact Tlv.unserialize_serialize (by simp) _
      obtain ⟨blanks, hblanks, hloop⟩ := @ih (n - 8) (by omega) (read ++ [⟨0, []⟩]) fuel (by omega)
      rw [if_neg hz, hread]
      exact ⟨⟨0, []⟩ :: blanks, by simpa using hblanks, by simpa using hloop⟩

theorem unserializeLoop_append {pack read : TlvPack} {fuel : Nat} {rest : Bytes}
    (h : ∀ t ∈ pack, t.value.length < 2 ^ 32) :
    unserializeLoop (fuel + pack.length) read (pack.serialize ++ rest) =
      unserializeLoop fuel (read ++ pack) rest := by
  induction pack generalizing read with
  | nil => simp [serialize]
  | cons t pack ih =>
    have hne : ¬ (serialize (t :: pack) ++ rest).length = 0 := by
      simp [serialize, Tlv.serialize, Scalar.width]
    have hread : Tlv.unserialize (serialize (t :: pack) ++ rest) = .ok (t, serialize pack ++ rest) := by
      rw [serialize, List.flatMap_cons, List.append_assoc]
      exact Tlv.unserialize_serialize (h t List.mem_cons_self) _
    rw [List.length_cons, ← Nat.add_assoc, unserializeLoop, if_neg hne, hread]
    simp only
    rw [ih fun x hx => h x (List.mem_cons_of_mem _ hx)]
    simp

/-- Written values padded with zeros are read back, with values without a tag behind them. -/
theorem unserialize_padded {pack : TlvPack} (h : ∀ t ∈ pack, t.value.length < 2 ^ 32) (n : Nat) :
    ∃ blanks : TlvPack, (∀ t ∈ blanks, t.type = 0) ∧
      unserialize (pack.serialize ++ List.replicate n 0) =
        { complete := true, pack := pack ++ blanks, left := [] } := by
  have hlen := length_le_serialize pack
  obtain ⟨fuel, hfuel⟩ := Nat.exists_eq_add_of_le
    (show pack.length ≤ (pack.serialize ++ List.replicate n 0).length + 1 by
      rw [List.length_append]
      omega)
  have hn : n < fuel := by
    simp at hfuel
    omega
  obtain ⟨blanks, hblanks, hloop⟩ := @unserializeLoop_zeros ([] ++ pack) n fuel hn
  refine ⟨blanks, hblanks, ?_⟩
  rw [unserialize, hfuel, Nat.add_comm, unserializeLoop_append h, hloop, List.nil_append]

theorem length_value_le {pack : TlvPack} {t : Tlv} (h : t ∈ pack) :
    t.value.length ≤ pack.serialize.length := by
  obtain ⟨before, after, rfl⟩ := List.append_of_mem h
  simp only [serialize, List.flatMap_append, List.flatMap_cons, List.length_append, Tlv.serialize]
  omega

@[simp] theorem getItem_nil (type : UInt32) : getItem [] type = none := rfl

theorem getItem_cons (t : Tlv) (pack : TlvPack) (type : UInt32) :
    getItem (t :: pack) type = if t.type = type then some t else getItem pack type := by
  by_cases h : t.type = type <;> simp [getItem, h]

theorem getItem_append (pack more : TlvPack) (type : UInt32) :
    getItem (pack ++ more) type = (getItem pack type).or (getItem more type) := List.find?_append

end TlvPack

namespace Tlv

def ofPack (type : UInt32) (pack : TlvPack) : Tlv := { type, value := pack.serialize }

/-- The value as values of its own; what cannot be read is left out. -/
def getPack (t : Tlv) : TlvPack := (TlvPack.unserialize t.value).pack

/-- The value as a text when values of its own were read off it before. -/
def textAfterPack (t : Tlv) : Bytes := (TlvPack.unserialize t.value).left

@[simp] theorem type_ofPack (type : UInt32) (pack : TlvPack) : (ofPack type pack).type = type := rfl

section OfPack

variable {type : UInt32} {pack : TlvPack}

theorem unserialize_ofPack (h : (ofPack type pack).value.length < 2 ^ 32) :
    TlvPack.unserialize (ofPack type pack).value = { complete := true, pack, left := [] } :=
  TlvPack.unserialize_serialize (fun _ ht => Nat.lt_of_le_of_lt (TlvPack.length_value_le ht) h)

theorem getPack_ofPack (h : (ofPack type pack).value.length < 2 ^ 32) :
    (ofPack type pack).getPack = pack := by
  rw [getPack, unserialize_ofPack h]

theorem textAfterPack_ofPack (h : (ofPack type pack).value.length < 2 ^ 32) :
    (ofPack type pack).textAfterPack = [] := by
  rw [textAfterPack, unserialize_ofPack h]

end OfPack

end Tlv

end Icq.Tools
