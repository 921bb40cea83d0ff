import Icq.Lib.Scalar

namespace Icq.Lib

/-- A file opened for reading or writing at one position. Reaching the end or failing leaves a
mark, and a marked stream does nothing more. -/
structure FileStream where
  bytes : Bytes
  pos : Nat := 0
  /-- Writes go to the end of the file, wherever the position stands. -/
  append : Bool := false
  /-- How many bytes the device still takes; none when it never fills up. -/
  room : Option Nat := none
  eof : Bool := false
  failed : Bool := false

namespace FileStream

def good (f : FileStream) : Bool := !f.eof && !f.failed

def fail (f : FileStream) : FileStream := { f with failed := true }

/-- Look at the next byte. -/
def peek (f : FileStream) : Option UInt8 × FileStream :=
  if !f.good then (none, f.fail)
  else
    match f.bytes[f.pos]? with
    | none => (none, { f with eof := true })
    | some b => (some b, f)

/-- Take the next `n` bytes; a short file gives what there is and marks the stream. -/
def read (f : FileStream) (n : Nat) : Bytes × FileStream :=
  if !f.good then ([], f.fail)
  else
    let got := (f.bytes.drop f.pos).take n
    if got.length < n then
      (got, { f with pos := f.pos + got.length, eof := true, failed := true })
    else (got, { f with pos := f.pos + n })

def seekp (f : FileStream) (offset : Int) : FileStream :=
  if !f.good then f
  else if offset < 0 then f.fail
  else { f with pos := offset.toNat }

def seekEnd (f : FileStream) : FileStream :=
  if !f.good then f else { f with pos := f.bytes.length }

def tellp (f : FileStream) : Int := if f.failed then -1 else f.pos

/-- The part of a write the device takes. -/
def taken (f : FileStream) (data : Bytes) : Bytes :=
  match f.room with
  | none => data
  | some room => data.take room

/-- Put bytes at the position, or as many of them as the device takes. -/
def write (f : FileStream) (data : Bytes) : FileStream :=
  if !f.good then f.fail
  else
    let start := if f.append then f.bytes.length else f.pos
    let taken := f.taken data
    { f with
      bytes := f.bytes.take start ++ List.replicate (start - f.bytes.length) 0 ++ taken
        ++ f.bytes.drop (start + taken.length)
      pos := start + taken.length
      room := f.room.map (· - taken.length)
      failed := decide (taken.length < data.length) }

/-- What lies ahead of the position. -/
def ahead (f : FileStream) : Bytes := f.bytes.drop f.pos

def advance (f : FileStream) (n : Nat) : FileStream := { f with pos := f.pos + n }

/-- Ready to take the next byte at the end of what is there. -/
structure AtEnd (f : FileStream) : Prop where
  good : f.good = true
  pos : f.pos = f.bytes.length

@[simp] theorem good_mk {bytes : Bytes} {pos : Nat} {append : Bool} {room : Option Nat}
    {eof failed : Bool} : good ⟨bytes, pos, append, room, eof, failed⟩ = (!eof && !failed) := rfl

@[simp] theorem good_advance (f : FileStream) (n : Nat) : (f.advance n).good = f.good := rfl

@[simp] theorem bytes_advance (f : FileStream) (n : Nat) : (f.advance n).bytes = f.bytes := rfl

@[simp] theorem advance_advance (f : FileStream) (m n : Nat) :
    (f.advance m).advance n = f.advance (m + n) := by
  simp [advance, Nat.add_assoc]

theorem read_good {f : FileStream} {n : Nat} {data rest : Bytes} (hg : f.good = true)
    (hd : f.ahead = data ++ rest) (hn : data.length = n) : f.read n = (data, f.advance n) := by
  have ht : (f.bytes.drop f.pos).take n = data := by
    rw [← ahead, hd, ← hn, List.take_left]
  simp [read, hg, ht, hn, advance]

theorem ahead_advance {f : FileStream} {data rest : Bytes} {n : Nat}
    (hd : f.ahead = data ++ rest) (hn : data.length = n) : (f.advance n).ahead = rest := by
  simp only [ahead, advance] at hd ⊢
  rw [← List.drop_drop, hd, ← hn, List.drop_left]

theorem peek_good {f : FileStream} (hg : f.good = true) (hd : f.ahead ≠ []) :
    ∃ b, f.peek = (some b, f) := by
  cases hb : f.bytes[f.pos]? with
  | none =>
    rw [← List.head?_drop, List.head?_eq_none_iff] at hb
    exact absurd hb hd
  | some b => exact ⟨b, by simp [peek, hg, hb]⟩

theorem peek_end {f : FileStream} (hg : f.good = true) (hd : f.ahead = []) :
    f.peek = (none, { f with eof := true }) := by
  have hb : f.bytes[f.pos]? = none := by
    rw [← List.head?_drop, ← ahead, hd]
    rfl
  simp [peek, hg, hb]

theorem taken_all {f : FileStream} {data : Bytes} (h : ¬ (f.taken data).length < data.length) :
    f.taken data = data := by
  unfold taken at h ⊢
  cases hr : f.room with
  | none => rfl
  | some room =>
    simp only [hr, List.length_take] at h
    exact List.take_of_length_le (by omega)

/-- A successful write at the end appends the bytes. -/
theorem write_atEnd {f : FileStream} {data : Bytes} (h : AtEnd f)
    (hok : (f.write data).failed = false) :
    (f.write data).bytes = f.bytes ++ data ∧ AtEnd (f.write data) ∧
      (f.write data).append = f.append := by
  have hg := h.good
  have hp := h.pos
  have ht : f.taken data = data := by
    apply taken_all
    simpa [write, hg] using hok
  have heof : f.eof = false := by
    simp only [good, Bool.and_eq_true, Bool.not_eq_true'] at hg
    exact hg.1
  have hw : f.write data =
      { f with
        bytes := f.bytes ++ data, pos := f.bytes.length + data.length
        room := f.room.map (· - data.length), failed := false } := by
    simp [write, hg, hp, ht]
  rw [hw]
  exact ⟨rfl, ⟨by simp [good, heof], by simp⟩, rfl⟩

@[simp] theorem append_write (f : FileStream) (data : Bytes) : (f.write data).append = f.append := by
  unfold write
  split <;> rfl

/-- A write over as many bytes leaves those around them. -/
theorem write_over {f : FileStream} {before old after data : Bytes} (hg : f.good = true)
    (ha : f.append = false) (hr : f.room = none) (hb : f.bytes = before ++ (old ++ after))
    (hp : f.pos = before.length) (hl : data.length = old.length) :
    f.write data =
      { f with bytes := before ++ (data ++ after), pos := before.length + data.length } := by
  have hfail : f.failed = false := by
    simp only [good, Bool.and_eq_true, Bool.not_eq_true'] at hg
    exact hg.2
  have hdrop : f.bytes.drop (before.length + data.length) = after := by
    rw [hb, ← List.append_assoc, List.drop_left' (by rw [List.length_append, hl])]
  have htake : f.bytes.take before.length = before := by rw [hb, List.take_left]
  have hle : before.length - f.bytes.length = 0 := by
    rw [hb, List.length_append]
    omega
  simp [write, taken, hg, ha, hr, hp, hdrop, htake, hle, hfail]

/-- A device that never fills up takes every write. -/
theorem write_reliable {f : FileStream} (data : Bytes) (hg : f.good = true)
    (hr : f.room = none) :
    (f.write data).failed = false ∧ (f.write data).room = none := by
  simp [write, taken, hg, hr]

end FileStream

end Icq.Lib
