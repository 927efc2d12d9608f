import Mathlib

/-!
# Ring buffers

A ring holds the cells from `tail` up to `head`, modulo its size. One cell always
stays unused, so `head = tail` means empty and never full.
-/

namespace Lib

/-- The cells of a ring buffer with its write and read positions. -/
structure RingBuffer (α : Type) where
  buf : Nat → α
  head : Nat
  tail : Nat

namespace RingBuffer

variable {α : Type} {size : Nat} {ring : RingBuffer α} {value : α}

/-- Both positions are cells of the buffer. -/
structure Valid (size : Nat) (ring : RingBuffer α) : Prop where
  head : ring.head < size
  tail : ring.tail < size

/-- The number of values held. -/
def count (size : Nat) (ring : RingBuffer α) : Nat := (ring.head + size - ring.tail) % size

/-- The values held, oldest first. -/
def contents (size : Nat) (ring : RingBuffer α) : List α :=
  (List.range (ring.count size)).map fun offset => ring.buf ((ring.tail + offset) % size)

/-- Write a value at the head and advance it. -/
def push (size : Nat) (ring : RingBuffer α) (value : α) : RingBuffer α :=
  { ring with buf := Function.update ring.buf ring.head value, head := (ring.head + 1) % size }

/-- Release the cell at the tail. -/
def release (size : Nat) (ring : RingBuffer α) : RingBuffer α :=
  { ring with tail := (ring.tail + 1) % size }

@[simp] theorem contents_length : (ring.contents size).length = ring.count size := by
  simp [contents]

/-- The count as a difference that wraps at most once. -/
theorem Valid.count_eq (valid : Valid size ring) :
    ring.count size =
      if ring.tail ≤ ring.head then ring.head - ring.tail else ring.head + size - ring.tail := by
  have head := valid.head
  have tail := valid.tail
  unfold count
  split
  · rw [show ring.head + size - ring.tail = (ring.head - ring.tail) + size by omega,
      Nat.add_mod_right, Nat.mod_eq_of_lt (by omega)]
  · rw [Nat.mod_eq_of_lt (by omega)]

/-- Advancing wraps at the last cell. -/
theorem next_eq {index : Nat} (inside : index < size) :
    (index + 1) % size = if index + 1 = size then 0 else index + 1 := by
  split
  next last => rw [last, Nat.mod_self]
  next within => exact Nat.mod_eq_of_lt (by omega)

theorem Valid.count_lt (valid : Valid size ring) : ring.count size < size :=
  Nat.mod_lt _ (by have := valid.head; omega)

/-- A ring is empty exactly when its positions meet. -/
theorem Valid.count_eq_zero (valid : Valid size ring) :
    ring.count size = 0 ↔ ring.head = ring.tail := by
  have head := valid.head
  have tail := valid.tail
  rw [valid.count_eq]
  split <;> omega

/-- The head would meet the tail exactly when one cell is left. -/
theorem Valid.full_iff (valid : Valid size ring) :
    (ring.head + 1) % size = ring.tail ↔ ring.count size + 1 = size := by
  have head := valid.head
  have tail := valid.tail
  rw [valid.count_eq, next_eq head]
  split <;> split <;> omega

theorem Valid.push (valid : Valid size ring) (value : α) : Valid size (ring.push size value) where
  head := Nat.mod_lt _ (by have := valid.head; omega)
  tail := valid.tail

theorem Valid.release (valid : Valid size ring) : Valid size (ring.release size) where
  head := valid.head
  tail := Nat.mod_lt _ (by have := valid.head; omega)

/-- The head is where the next value goes. -/
theorem Valid.head_eq (valid : Valid size ring) :
    ring.head = (ring.tail + ring.count size) % size := by
  have head := valid.head
  have tail := valid.tail
  rw [valid.count_eq]
  split
  · rw [show ring.tail + (ring.head - ring.tail) = ring.head by omega, Nat.mod_eq_of_lt head]
  · rw [show ring.tail + (ring.head + size - ring.tail) = ring.head + size by omega,
      Nat.add_mod_right, Nat.mod_eq_of_lt head]

/-- Distinct offsets below the size are distinct cells. -/
theorem cell_ne {start left right : Nat} (before : left < right) (within : right < size) :
    (start + left) % size ≠ (start + right) % size := by
  intro same
  have divides : (right - left) % size = 0 := by
    have := Nat.sub_mod_eq_zero_of_mod_eq same.symm
    rwa [Nat.add_sub_add_left] at this
  rw [Nat.mod_eq_of_lt (by omega)] at divides
  omega

/-- Pushing into a ring that is not full appends the value. -/
theorem Valid.contents_push (valid : Valid size ring)
    (room : (ring.head + 1) % size ≠ ring.tail) (value : α) :
    (ring.push size value).contents size = ring.contents size ++ [value] := by
  have fits : ring.count size + 1 < size := by
    have := valid.count_lt
    have := mt valid.full_iff.mpr room
    omega
  have counted : (ring.push size value).count size = ring.count size + 1 := by
    have head := valid.head
    have tail := valid.tail
    rw [(valid.push value).count_eq, valid.count_eq] at *
    simp only [RingBuffer.push, next_eq head] at *
    split_ifs at * <;> omega
  have place := valid.head_eq
  unfold contents
  rw [counted, List.range_succ, List.map_append, List.map_singleton]
  congr 1
  · refine List.map_congr_left fun offset member => ?_
    have within : offset < ring.count size := List.mem_range.mp member
    have other := @cell_ne size ring.tail offset (ring.count size) within (by omega)
    rw [← place] at other
    exact Function.update_of_ne other _ _
  · simp only [RingBuffer.push, ← place, Function.update_self]

/-- A nonempty ring holds the value at its tail and then what is left after its release. -/
theorem Valid.contents_release (valid : Valid size ring) (nonempty : ring.head ≠ ring.tail) :
    ring.contents size = ring.buf ring.tail :: (ring.release size).contents size := by
  have head := valid.head
  have tail := valid.tail
  have counted : ring.count size = (ring.release size).count size + 1 := by
    rw [valid.release.count_eq, valid.count_eq]
    simp only [RingBuffer.release, next_eq tail]
    split_ifs <;> omega
  unfold contents
  rw [counted, List.range_succ_eq_map, List.map_cons, List.map_map]
  congr 1
  · rw [Nat.add_zero, Nat.mod_eq_of_lt tail]
  · refine List.map_congr_left fun offset _ => ?_
    simp only [Function.comp_apply, RingBuffer.release, Nat.mod_add_mod]
    congr 2
    omega

end RingBuffer
end Lib
