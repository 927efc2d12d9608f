import Mathlib

/-!
# Byte-addressed memory

A memory gives one byte at every natural address. Multi-byte words are
little-endian: `Memory.load` reads a word, `Memory.store` writes one and is
described by what each byte of the new memory is. Words are natural numbers; a
store keeps the low bytes of its value, so the width of a machine word appears
only as the number of bytes.
-/

namespace Lib

/-- One byte at every address. -/
abbrev Memory := Nat → UInt8

namespace Memory

variable {memory other : Memory} {address start count width value : Nat}

/-- The little-endian word in `width` bytes from `address`. -/
def load (memory : Memory) (address : Nat) : Nat → Nat
  | 0 => 0
  | width + 1 => (memory address).toNat + 256 * load memory (address + 1) width

/-- Replace `width` bytes from `start` by the low bytes of `value`. -/
def store (memory : Memory) (start width value : Nat) : Memory := fun address =>
  if start ≤ address ∧ address < start + width then
    UInt8.ofNat (value / 256 ^ (address - start))
  else memory address

/-- Two memories agree on `count` bytes from `start`. -/
def SameOn (memory other : Memory) (start count : Nat) : Prop :=
  ∀ address, start ≤ address → address < start + count → other address = memory address

theorem SameOn.refl (memory : Memory) (start count : Nat) : SameOn memory memory start count :=
  fun _ _ _ => rfl

theorem SameOn.trans {last : Memory} (first : SameOn memory other start count)
    (second : SameOn other last start count) : SameOn memory last start count :=
  fun address lower upper => (second address lower upper).trans (first address lower upper)

/-- Agreement on a region is agreement on every part of it. -/
theorem SameOn.mono {inner length : Nat} (same : SameOn memory other start count)
    (lower : start ≤ inner) (upper : inner + length ≤ start + count) :
    SameOn memory other inner length :=
  fun address below above => same address (by omega) (by omega)

/-- A word fits its width. -/
theorem load_lt (memory : Memory) (address width : Nat) :
    memory.load address width < 256 ^ width := by
  induction width generalizing address with
  | zero => simp [load]
  | succ width ih =>
      have low := (memory address).toNat_lt
      have high := ih (address + 1)
      rw [load, pow_succ]
      omega

/-- A load depends only on the bytes it covers. -/
theorem load_congr (same : SameOn memory other address width) :
    other.load address width = memory.load address width := by
  induction width generalizing address with
  | zero => rfl
  | succ width ih =>
      rw [load, load, same address (Nat.le_refl _) (by omega),
        ih (same.mono (by omega) (by omega))]

/-- Bytes outside a store are unchanged. -/
theorem store_outside (outside : address < start ∨ start + width ≤ address) :
    memory.store start width value address = memory address := by
  rw [store, if_neg (by omega)]

/-- The byte of a store at one offset. -/
theorem store_inside {offset : Nat} (within : offset < width) :
    memory.store start width value (start + offset) = UInt8.ofNat (value / 256 ^ offset) := by
  rw [store, if_pos (by omega), Nat.add_sub_cancel_left]

/-- A store leaves every disjoint region alone. -/
theorem store_sameOn {region length : Nat}
    (disjoint : region + length ≤ start ∨ start + width ≤ region) :
    SameOn memory (memory.store start width value) region length :=
  fun _ lower upper => store_outside (by omega)

/-- A load from a disjoint region does not see the store. -/
theorem load_store_disjoint {region length : Nat}
    (disjoint : region + length ≤ start ∨ start + width ≤ region) :
    (memory.store start width value).load region length = memory.load region length :=
  load_congr (store_sameOn disjoint)

/-- The part of a stored word from byte `offset` on. -/
private theorem load_store_from (memory : Memory) (start width value : Nat) :
    ∀ count offset, offset + count = width →
      (memory.store start width value).load (start + offset) count =
        value / 256 ^ offset % 256 ^ count := by
  intro count
  induction count with
  | zero => intro offset _; simp [load, Nat.mod_one]
  | succ count ih =>
      intro offset total
      have low : (UInt8.ofNat (value / 256 ^ offset)).toNat = value / 256 ^ offset % 256 := by
        simp
      have high : value / 256 ^ (offset + 1) = value / 256 ^ offset / 256 := by
        rw [pow_succ, Nat.div_div_eq_div_mul]
      rw [load, store_inside (by omega), Nat.add_assoc, ih (offset + 1) (by omega), low, high,
        pow_succ', Nat.mod_mul]

/-- A load returns the word just stored there, cut to its width. -/
theorem load_store_same (memory : Memory) (start width value : Nat) :
    (memory.store start width value).load start width = value % 256 ^ width := by
  simpa using load_store_from memory start width value width 0 (Nat.zero_add width)

/-- A word of zero bytes is zero. -/
theorem load_zero (zero : ∀ offset, offset < width → memory (address + offset) = 0) :
    memory.load address width = 0 := by
  induction width generalizing address with
  | zero => rfl
  | succ width ih =>
      have head := zero 0 (by omega)
      have tail : memory.load (address + 1) width = 0 := by
        apply ih
        intro offset within
        have byte := zero (offset + 1) (by omega)
        simpa [Nat.add_assoc, Nat.add_comm 1] using byte
      simp only [Nat.add_zero] at head
      rw [load, head, tail]
      rfl

end Memory
end Lib
