import Mathlib.Data.List.Basic
import Mathlib.Data.Nat.Basic

/-! A list cut into blocks of one size, and blocks that are written where they stand in it. -/

namespace Icq.Lib

section

variable {α : Type} {size i n k place : Nat} {source block : List α}

def blockAt (size : Nat) (source : List α) (i : Nat) : List α := (source.drop (size * i)).take size

/-- How many blocks there are, the last one being short perhaps. -/
def blockCount (size : Nat) (source : List α) : Nat := (source.length + size - 1) / size

def blocks (size : Nat) (source : List α) : List (List α) :=
  (List.range (blockCount size source)).map (blockAt size source)

theorem length_blockAt : (blockAt size source i).length = min size (source.length - size * i) := by
  simp [blockAt]

/-- Where a block ends the next one begins, if it is not the last. -/
theorem end_blockAt (h : size * i ≤ source.length) :
    size * i + (blockAt size source i).length = min (size * (i + 1)) source.length := by
  rw [length_blockAt, Nat.mul_add_one]
  omega

theorem flatten_blockAt (n : Nat) :
    ((List.range n).map (blockAt size source)).flatten = source.take (size * n) := by
  induction n with
  | zero => simp
  | succ n ih =>
    rw [List.range_succ, List.map_append, List.flatten_append, ih]
    simp [blockAt, Nat.mul_succ, List.take_add]

theorem blockCount_le_iff (h : 0 < size) : blockCount size source ≤ n ↔ source.length ≤ size * n := by
  rw [blockCount, Nat.div_le_iff_le_mul_add_pred h]
  omega

theorem lt_blockCount_iff (h : 0 < size) : n < blockCount size source ↔ size * n < source.length := by
  rw [← Nat.not_le, blockCount_le_iff h, Nat.not_le]

theorem flatten_blocks (h : 0 < size) : (blocks size source).flatten = source := by
  rw [blocks, flatten_blockAt]
  exact List.take_of_length_le ((blockCount_le_iff h).mp (Nat.le_refl _))

def writeAt (stored : List α) (place : Nat) (block : List α) : List α :=
  stored.take place ++ block ++ stored.drop (place + block.length)

/-- What is written a second time, or behind what is there, leaves a beginning of the source. -/
theorem writeAt_take (hle : place ≤ k) (hblock : block = (source.drop place).take n) :
    writeAt (source.take k) place block = source.take (max k (place + block.length)) := by
  have hfront : source.take place ++ block = source.take (place + block.length) := by
    have hlength : (source.drop place).take block.length = block := by
      rw [hblock, List.length_take, List.take_eq_take_min]
      simp
    rw [List.take_add, hlength]
  unfold writeAt
  rw [List.take_take, Nat.min_eq_left hle, hfront]
  by_cases hin : place + block.length ≤ k
  · rw [Nat.max_eq_left hin, List.drop_take]
    have hsum : k = (place + block.length) + (k - (place + block.length)) := by omega
    conv_rhs => rw [hsum, List.take_add]
  · rw [Nat.max_eq_right (by omega), List.drop_eq_nil_of_le, List.append_nil]
    rw [List.length_take]
    omega

end

end Icq.Lib
