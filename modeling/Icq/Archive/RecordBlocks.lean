import Icq.Archive.FrameFile
import Icq.Archive.RecordStorage

/-! The blocks of a data file, and what writing one record makes of them. -/

namespace Icq.Archive
open Icq.Lib Icq.Tools

/-- A kind whose records come back, padded with zeros or not, as far as they are kept. -/
structure KeptKind extends RecordKind where
  Readable : Record → Prop
  kept : Record → Record
  serialize_ne_nil : ∀ r, serialize r ≠ []
  unserialize_padded : ∀ {r}, Readable r → (serialize r).length < 2 ^ 32 → ∀ n,
    unserialize (serialize r ++ List.replicate n 0) = (some (kept r), [])

/-- The blocks of a file in their order, each by the message it is for and its size. -/
abbrev Allocation : Type := List (Int64 × Nat)

namespace Allocation

/-- The size of the newest block of a message. -/
def size? (a : Allocation) (id : Int64) : Option Nat :=
  (a.reverse.find? fun b => decide (b.1 = id)).map Prod.snd

/-- A record goes into the newest block of its message if that is large enough, and into a new one
else. -/
def put (a : Allocation) (id : Int64) (length : Nat) : Allocation :=
  match a.size? id with
  | none => a ++ [(id, reservedSize length)]
  | some n => if length ≤ n then a else a ++ [(id, reservedSize length)]

/-- The length of the file. -/
def extent (a : Allocation) : Nat := (a.map fun b => b.2 + 16).sum

/-- The message has no block, or its newest one is large enough or the last of all. -/
def Steady (a : Allocation) (id : Int64) (length : Nat) : Prop :=
  (a.size? id).all (fun n => decide (length ≤ n)) = true ∨ a.getLast?.map Prod.fst = some id

instance (a : Allocation) (id : Int64) (length : Nat) : Decidable (a.Steady id length) :=
  inferInstanceAs (Decidable (_ ∨ _))

variable {a : Allocation} {id : Int64} {length n : Nat}

theorem put_new (h : a.size? id = none) : a.put id length = a ++ [(id, reservedSize length)] := by
  rw [put, h]

theorem put_fits (h : a.size? id = some n) (hn : length ≤ n) : a.put id length = a := by
  rw [put, h]
  exact if_pos hn

theorem put_grows (h : a.size? id = some n) (hn : ¬ length ≤ n) :
    a.put id length = a ++ [(id, reservedSize length)] := by
  rw [put, h]
  exact if_neg hn

end Allocation

/-- A block of the data file: a record padded to a size. -/
structure RecordBlock (k : RecordKind) where
  record : k.Record
  size : Nat

namespace RecordBlock

variable {k : RecordKind}

def id (b : RecordBlock k) : Int64 := k.msgId b.record

def payload (b : RecordBlock k) : Bytes := resizeBytes (k.serialize b.record) b.size

@[simp] theorem length_payload (b : RecordBlock k) : b.payload.length = b.size :=
  length_resizeBytes ..

def slot (b : RecordBlock k) : Int64 × Nat := (b.id, b.size)

/-- The newest block of a message is the one of the number. -/
def Newest (bs : List (RecordBlock k)) (id : Int64) (i : Nat) : Prop :=
  ∃ h : i < bs.length, bs[i].id = id ∧ ∀ j (hj : j < bs.length), i < j → bs[j].id ≠ id

theorem newest_append {bs : List (RecordBlock k)} {b : RecordBlock k} {id : Int64} {i : Nat} :
    Newest (bs ++ [b]) id i ↔ (b.id = id ∧ i = bs.length) ∨ (b.id ≠ id ∧ Newest bs id i) := by
  constructor
  · rintro ⟨hi, he, hlater⟩
    by_cases hb : b.id = id
    · refine .inl ⟨hb, ?_⟩
      rw [List.length_append, List.length_singleton] at hi
      by_contra hne
      exact hlater bs.length (by simp) (by omega) (by simpa using hb)
    · have hlt : i < bs.length := by
        rw [List.length_append, List.length_singleton] at hi
        by_contra hge
        obtain rfl : i = bs.length := by omega
        exact hb (by simpa using he)
      refine .inr ⟨hb, hlt, by rwa [List.getElem_append_left hlt] at he, fun j hj hij => ?_⟩
      have := hlater j (by rw [List.length_append]; omega) hij
      rwa [List.getElem_append_left hj] at this
  · rintro (⟨hb, rfl⟩ | ⟨hb, hi, he, hlater⟩)
    · refine ⟨by simp, by simpa using hb, fun j hj hij => ?_⟩
      rw [List.length_append, List.length_singleton] at hj
      omega
    · refine ⟨by rw [List.length_append]; omega, by rwa [List.getElem_append_left hi], ?_⟩
      intro j hj hij
      by_cases hj' : j < bs.length
      · rw [List.getElem_append_left hj']
        exact hlater j hj' hij
      · rw [List.length_append, List.length_singleton] at hj
        obtain rfl : j = bs.length := by omega
        simpa using hb

theorem newest_set {bs : List (RecordBlock k)} {b : RecordBlock k} {id : Int64} {i j : Nat}
    (hi : i < bs.length) (hb : b.id = bs[i].id) : Newest (bs.set i b) id j ↔ Newest bs id j := by
  have hid (x : Nat) (hx : x < (bs.set i b).length) :
      (bs.set i b)[x].id = (getElem bs x (by simpa using hx)).id := by
    rw [List.getElem_set]
    split
    · rename_i he
      subst he
      exact hb
    · rfl
  unfold Newest
  simp only [hid, List.length_set]

theorem newest_unique {bs : List (RecordBlock k)} {id : Int64} {i j : Nat} (h : Newest bs id i)
    (h' : Newest bs id j) : i = j := by
  obtain ⟨hi, he, hlater⟩ := h
  obtain ⟨hj, he', hlater'⟩ := h'
  rcases Nat.lt_trichotomy i j with hlt | heq | hgt
  · exact absurd he' (hlater j hj hlt)
  · exact heq
  · exact absurd he (hlater' i hi hgt)

theorem size_of_newest {bs : List (RecordBlock k)} {id : Int64} {i : Nat} (h : Newest bs id i) :
    Allocation.size? (bs.map slot) id = some (getElem bs i h.1).size := by
  obtain ⟨hi, he, hlater⟩ := h
  have hsplit : bs = bs.take i ++ bs[i] :: bs.drop (i + 1) := by
    rw [← List.drop_eq_getElem_cons hi, List.take_append_drop]
  have hnone : ((bs.drop (i + 1)).map slot).reverse.find? (fun b => decide (b.1 = id)) = none := by
    rw [List.find?_eq_none]
    intro x hx
    obtain ⟨b, hb, rfl⟩ := List.mem_map.mp (List.mem_reverse.mp hx)
    obtain ⟨j, hj, rfl⟩ := List.mem_iff_getElem.mp hb
    rw [List.getElem_drop]
    rw [List.length_drop] at hj
    exact fun hd => hlater (i + 1 + j) (by omega) (by omega) (of_decide_eq_true hd)
  have hfind : (bs.map slot).reverse.find? (fun b => decide (b.1 = id)) = some bs[i].slot := by
    conv_lhs => rw [hsplit]
    rw [List.map_append, List.map_cons, List.reverse_append, List.reverse_cons, List.append_assoc,
      List.find?_append, hnone, Option.none_or, List.singleton_append, List.find?_cons]
    simp [slot, he]
  rw [Allocation.size?, hfind]
  rfl

theorem size_none {bs : List (RecordBlock k)} {id : Int64} (h : ∀ b ∈ bs, b.id ≠ id) :
    Allocation.size? (bs.map slot) id = none := by
  rw [Allocation.size?, Option.map_eq_none_iff, List.find?_eq_none]
  intro x hx
  obtain ⟨b, hb, rfl⟩ := List.mem_map.mp (List.mem_reverse.mp hx)
  exact fun hd => h b hb (of_decide_eq_true hd)

/-- The newest block of the message that has the last block is that. -/
theorem newest_last {bs : List (RecordBlock k)} {id : Int64} {i : Nat} (h : Newest bs id i)
    (hlast : (bs.map slot).getLast?.map Prod.fst = some id) : i + 1 = bs.length := by
  obtain ⟨hi, he, hlater⟩ := h
  by_contra hne
  have hlen : bs.length - 1 < bs.length := by omega
  have hget : (bs.map slot).getLast? = some bs[bs.length - 1].slot := by
    rw [List.getLast?_eq_getElem?, List.length_map, List.getElem?_map,
      List.getElem?_eq_getElem hlen]
    rfl
  rw [hget] at hlast
  exact hlater (bs.length - 1) hlen (by omega) (Option.some.inj hlast)

/-- The payloads in the file. -/
def payloads (bs : List (RecordBlock k)) : List Bytes := bs.map payload

theorem extent_eq (bs : List (RecordBlock k)) :
    (frames (payloads bs)).length = Allocation.extent (bs.map slot) := by
  induction bs with
  | nil => rfl
  | cons b bs ih =>
    have htail : (frames (b :: bs |> payloads)).length =
        (frame b.payload).length + (frames (payloads bs)).length := by
      rw [payloads, List.map_cons, frames_cons, List.length_append]
      rfl
    simp only [htail, Storage.frame_length, length_payload, ih, Allocation.extent, List.map_cons,
      List.sum_cons]
    rfl

/-- Every message with blocks is found at its newest one, and no other message is found. -/
def Indexed (bs : List (RecordBlock k)) (index : Offsets) : Prop :=
  ∀ id, match index.find? id with
    | none => ∀ b ∈ bs, b.id ≠ id
    | some (_, offset) => ∃ i, Newest bs id i ∧ offset = offsetOf (payloads bs) i

theorem indexed_append {bs : List (RecordBlock k)} {index : Offsets} (h : Indexed bs index)
    (b : RecordBlock k) :
    Indexed (bs ++ [b]) (index.put (b.id, offsetOf (payloads bs) (payloads bs).length)) := by
  intro id
  have hpay : payloads (bs ++ [b]) = payloads bs ++ [b.payload] := by simp [payloads]
  have hlen : (payloads bs).length = bs.length := List.length_map ..
  have hid := h id
  rw [KeyMap.find_put]
  by_cases hb : b.id = id
  · rw [if_pos hb]
    refine ⟨bs.length, newest_append.mpr (.inl ⟨hb, rfl⟩), ?_⟩
    rw [hpay, offsetOf_append (Nat.le_of_eq hlen.symm), hlen]
  · rw [if_neg hb]
    cases hf : index.find? id with
    | none =>
      rw [hf] at hid
      intro x hx
      rcases List.mem_append.mp hx with hx | hx
      · exact hid x hx
      · exact (List.mem_singleton.mp hx) ▸ hb
    | some o =>
      rw [hf] at hid
      obtain ⟨i, hi, ho⟩ := hid
      refine ⟨i, newest_append.mpr (.inr ⟨hb, hi⟩), ?_⟩
      have hlt := hi.1
      rw [hpay, offsetOf_append (by omega), ho]

theorem payloads_set (bs : List (RecordBlock k)) (i : Nat) (b : RecordBlock k) :
    payloads (bs.set i b) = (payloads bs).set i b.payload := by
  rw [payloads, payloads, List.map_set]

theorem indexed_set {bs : List (RecordBlock k)} {index : Offsets} (h : Indexed bs index)
    {b : RecordBlock k} {i : Nat} (hi : i < bs.length) (hid : b.id = bs[i].id)
    (hsize : b.size = bs[i].size) : Indexed (bs.set i b) index := by
  have hlen : (payloads (bs.set i b)).map List.length = (payloads bs).map List.length := by
    rw [payloads_set, List.map_set, length_payload, hsize]
    have hget : ((payloads bs).map List.length)[i]? = some bs[i].size := by
      simp [payloads, hi]
    exact List.ext_getElem? fun j => by
      rw [List.getElem?_set]
      split
      · rename_i he
        subst he
        rw [hget]
        simp [payloads, hi]
      · rfl
  intro id
  have hx := h id
  cases hf : index.find? id with
  | none =>
    rw [hf] at hx
    intro x hm
    rcases List.mem_or_eq_of_mem_set hm with hm | rfl
    · exact hx x hm
    · exact hid ▸ hx bs[i] (List.getElem_mem hi)
  | some o =>
    rw [hf] at hx
    obtain ⟨j, hj, ho⟩ := hx
    exact ⟨j, (newest_set hi hid).mpr hj, by rw [offsetOf_congr hlen, ho]⟩

end RecordBlock

end Icq.Archive
