import GodOs.Lib.Memory

/-!
# Byte strings in memory

`wordBytes` writes a number as little-endian bytes, and `Memory.Holds` says that
a memory has a byte string at an address. Strings are laid out one after the
other, so a load at a field's offset is the number that was written there.
-/

namespace Lib

/-- The low `width` bytes of a number, least significant first. -/
def wordBytes : Nat → Nat → List UInt8
  | 0, _ => []
  | width + 1, value => UInt8.ofNat value :: wordBytes width (value / 256)

@[simp] theorem wordBytes_length (width value : Nat) : (wordBytes width value).length = width := by
  induction width generalizing value with
  | zero => rfl
  | succ width ih => rw [wordBytes, List.length_cons, ih]

namespace Memory

variable {memory other : Memory} {start width value : Nat} {bytes rest : List UInt8}

/-- The memory has the byte string at `start`. -/
def Holds (memory : Memory) : Nat → List UInt8 → Prop
  | _, [] => True
  | start, byte :: bytes => memory start = byte ∧ Holds memory (start + 1) bytes

instance decidableHolds (memory : Memory) : (start : Nat) → (bytes : List UInt8) →
    Decidable (memory.Holds start bytes)
  | _, [] => .isTrue trivial
  | start, byte :: bytes =>
      have := decidableHolds memory (start + 1) bytes
      inferInstanceAs (Decidable (memory start = byte ∧ memory.Holds (start + 1) bytes))

@[simp] theorem holds_nil : memory.Holds start [] := trivial

/-- Concatenated strings lie one after the other. -/
theorem holds_append :
    memory.Holds start (bytes ++ rest) ↔
      memory.Holds start bytes ∧ memory.Holds (start + bytes.length) rest := by
  induction bytes generalizing start with
  | nil => simp
  | cons byte bytes ih =>
      have place : start + (byte :: bytes).length = start + 1 + bytes.length := by
        rw [List.length_cons]
        omega
      rw [List.cons_append, Holds, Holds, ih, place, and_assoc]

/-- A byte string stays where no byte of it changes. -/
theorem Holds.congr (holds : memory.Holds start bytes)
    (same : ∀ address, start ≤ address → address < start + bytes.length →
      other address = memory address) : other.Holds start bytes := by
  induction bytes generalizing start with
  | nil => trivial
  | cons byte rest ih =>
      rw [List.length_cons] at same
      exact ⟨(same start le_rfl (by omega)).trans holds.1,
        ih holds.2 fun address lower upper => same address (by omega) (by omega)⟩

/-- A load reads back the number that the bytes were made of. -/
theorem Holds.load_word (holds : memory.Holds start (wordBytes width value)) :
    memory.load start width = value % 256 ^ width := by
  induction width generalizing start value with
  | zero => rw [load, pow_zero, Nat.mod_one]
  | succ width ih =>
      obtain ⟨first, others⟩ := holds
      rw [load, first, ih others, pow_succ', Nat.mod_mul]
      simp

/-- A number that fits its width is read back unchanged. -/
theorem Holds.load_eq (holds : memory.Holds start (wordBytes width value))
    (fits : value < 256 ^ width) : memory.load start width = value := by
  rw [holds.load_word, Nat.mod_eq_of_lt fits]

end Memory
end Lib
