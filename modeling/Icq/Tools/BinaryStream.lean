import Icq.Lib.Scalar

namespace Icq.Tools
open Icq.Lib

/-- Grow with zeros or cut off. -/
def resizeBytes (buffer : Bytes) (size : Nat) : Bytes :=
  buffer.take size ++ List.replicate (size - buffer.length) 0

/-- Copy bytes over a buffer from a position on. -/
def copyInto (buffer : Bytes) (position : Nat) (data : Bytes) : Bytes :=
  buffer.take position ++ data ++ buffer.drop (position + data.length)

@[simp] theorem length_resizeBytes (buffer : Bytes) (size : Nat) :
    (resizeBytes buffer size).length = size := by
  simp only [resizeBytes, List.length_append, List.length_take, List.length_replicate]
  omega

theorem take_resizeBytes {buffer : Bytes} {i size : Nat} (hi : i ≤ buffer.length) (hs : i ≤ size) :
    (resizeBytes buffer size).take i = buffer.take i := by
  rw [resizeBytes, List.take_append_of_le_length (by simp; omega), List.take_take]
  congr 1
  omega

theorem take_copyInto {buffer data : Bytes} {i : Nat} (hi : i ≤ buffer.length) :
    (copyInto buffer i data).take (i + data.length) = buffer.take i ++ data := by
  apply List.take_left'
  simp [hi]

theorem length_copyInto {buffer data : Bytes} {i : Nat} (hi : i + data.length ≤ buffer.length) :
    (copyInto buffer i data).length = buffer.length := by
  simp only [copyInto, List.length_append, List.length_take, List.length_drop]
  omega

/-- A growing buffer that is filled at one cursor and drained at another. -/
structure BinaryStream where
  buffer : Bytes := []
  inputCursor : Nat := 0
  outputCursor : Nat := 0

namespace BinaryStream

def allSize (b : BinaryStream) : Nat := b.buffer.length

def available (b : BinaryStream) : Nat := b.inputCursor - b.outputCursor

/-- What is still to be drained. -/
def unread (b : BinaryStream) : Bytes := (b.buffer.take b.inputCursor).drop b.outputCursor

def reset (b : BinaryStream) : BinaryStream := { b with inputCursor := 0, outputCursor := 0 }

def setOutput (b : BinaryStream) (value : Nat) : BinaryStream := { b with outputCursor := value }

def setInput (b : BinaryStream) (value : Nat) : BinaryStream := { b with inputCursor := value }

/-- Room for `size` bytes at the input cursor, which moves behind them. -/
def allocBuffer (b : BinaryStream) (size : Nat) : BinaryStream :=
  let sizeNeed := b.inputCursor + size
  { b with
    buffer := if sizeNeed > b.buffer.length then resizeBytes b.buffer (sizeNeed * 2) else b.buffer
    inputCursor := sizeNeed }

/-- Room for `size` bytes, of which the first ones are then filled in. -/
def fill (b : BinaryStream) (size : Nat) (data : Bytes) : BinaryStream :=
  let room := b.allocBuffer size
  { room with buffer := copyInto room.buffer b.inputCursor data }

def write (b : BinaryStream) (data : Bytes) : BinaryStream :=
  if data.length = 0 then b
  else
    let sizeNeed := b.inputCursor + data.length
    let buffer :=
      if sizeNeed > b.buffer.length then resizeBytes b.buffer (sizeNeed + 1) else b.buffer
    { b with buffer := copyInto buffer b.inputCursor data, inputCursor := sizeNeed }

/-- The next `size` bytes, or the null pointer when they are not there. -/
def read (b : BinaryStream) (size : Nat) : Option Bytes × BinaryStream :=
  if size = 0 then (none, b)
  else if b.available < size then (none, b)
  else (some (b.unread.take size), { b with outputCursor := b.outputCursor + size })

/-- A stream that holds the given bytes and nothing else. -/
def ofBytes (data : Bytes) : BinaryStream := ({} : BinaryStream).write data

/-- The cursors stand in order inside the buffer. -/
structure Ordered (b : BinaryStream) : Prop where
  out_le : b.outputCursor ≤ b.inputCursor
  in_le : b.inputCursor ≤ b.buffer.length

theorem Ordered.empty : Ordered {} := ⟨Nat.le_refl _, Nat.le_refl _⟩

theorem Ordered.reset (b : BinaryStream) : Ordered b.reset := ⟨Nat.le_refl _, Nat.zero_le _⟩

@[simp] theorem unread_reset (b : BinaryStream) : b.reset.unread = [] := by
  simp [BinaryStream.reset, unread]

theorem Ordered.length_unread {b : BinaryStream} (h : Ordered b) :
    b.unread.length = b.available := by
  have := h.in_le
  simp only [unread, available, List.length_drop, List.length_take]
  omega

theorem Ordered.unread_extend {b : BinaryStream} {buffer data : Bytes} (h : Ordered b)
    (hl : b.inputCursor ≤ buffer.length) (ht : buffer.take b.inputCursor = b.buffer.take b.inputCursor) :
    unread { b with
      buffer := copyInto buffer b.inputCursor data
      inputCursor := b.inputCursor + data.length } = b.unread ++ data := by
  have hout : b.outputCursor ≤ (b.buffer.take b.inputCursor).length := by
    have := h.out_le
    have := h.in_le
    simp
    omega
  simp only [unread]
  rw [take_copyInto hl, ht, List.drop_append_of_le_length hout]

theorem Ordered.unread_fill {b : BinaryStream} (h : Ordered b) (data : Bytes) :
    (b.fill data.length data).unread = b.unread ++ data := by
  have hin := h.in_le
  unfold fill allocBuffer
  by_cases hs : b.inputCursor + data.length > b.buffer.length
  · simp only [hs, if_true]
    apply h.unread_extend
    · simp
      omega
    · exact take_resizeBytes hin (by omega)
  · simp only [hs, if_false]
    exact h.unread_extend hin rfl

theorem Ordered.fill {b : BinaryStream} (h : Ordered b) (data : Bytes) :
    Ordered (b.fill data.length data) := by
  have hin := h.in_le
  have hout := h.out_le
  unfold BinaryStream.fill allocBuffer
  by_cases hs : b.inputCursor + data.length > b.buffer.length
  · simp only [hs, if_true]
    refine ⟨Nat.le_trans hout (Nat.le_add_right _ _), ?_⟩
    simp only
    rw [length_copyInto (by rw [length_resizeBytes]; omega), length_resizeBytes]
    omega
  · simp only [hs, if_false]
    refine ⟨Nat.le_trans hout (Nat.le_add_right _ _), ?_⟩
    simp only
    rw [length_copyInto (by omega)]
    omega

theorem Ordered.unread_write {b : BinaryStream} (h : Ordered b) (data : Bytes) :
    (b.write data).unread = b.unread ++ data := by
  have hin := h.in_le
  unfold write
  by_cases hz : data.length = 0
  · simp [List.length_eq_zero_iff.mp hz]
  · by_cases hs : b.inputCursor + data.length > b.buffer.length
    · simp only [hz, hs, if_true, if_false]
      apply h.unread_extend
      · simp
        omega
      · exact take_resizeBytes hin (by omega)
    · simp only [hz, hs, if_false]
      exact h.unread_extend hin rfl

theorem Ordered.write {b : BinaryStream} (h : Ordered b) (data : Bytes) :
    Ordered (b.write data) := by
  have hin := h.in_le
  have hout := h.out_le
  unfold BinaryStream.write
  by_cases hz : data.length = 0
  · simpa [hz] using h
  · by_cases hs : b.inputCursor + data.length > b.buffer.length
    · simp only [hz, hs, if_true, if_false]
      refine ⟨Nat.le_trans hout (Nat.le_add_right _ _), ?_⟩
      simp only
      rw [length_copyInto (by rw [length_resizeBytes]; omega), length_resizeBytes]
      omega
    · simp only [hz, hs, if_false]
      refine ⟨Nat.le_trans hout (Nat.le_add_right _ _), ?_⟩
      simp only
      rw [length_copyInto (by omega)]
      omega

@[simp] theorem unread_ofBytes (data : Bytes) : (ofBytes data).unread = data := by
  rw [ofBytes, Ordered.empty.unread_write]
  rfl

theorem ordered_ofBytes (data : Bytes) : Ordered (ofBytes data) := Ordered.empty.write data

@[simp] theorem available_ofBytes (data : Bytes) : (ofBytes data).available = data.length := by
  rw [← (ordered_ofBytes data).length_unread, unread_ofBytes]

end BinaryStream

end Icq.Tools
