import GodOs.Lib.Memory

/-!
# A stack of machine words

The stack grows down, eight bytes a word, at addresses that wrap at 64 bits.
`Stacked` says which words lie from an address up, the top of the stack first;
`Stacked.push` and `Stacked.congr` are its rules, and an aligned word never
straddles the wrap.
-/

namespace Lib

/-- A machine word, also used as an address. -/
abbrev Word := BitVec 64

namespace Memory

variable {memory other : Memory} {address place top value : Word} {words : List Word}

/-- The word at an aligned address. -/
def word (memory : Memory) (address : Word) : Word :=
  BitVec.ofNat 64 (memory.load address.toNat 8)

/-- Replace the word at an aligned address. -/
def setWord (memory : Memory) (address value : Word) : Memory :=
  memory.store address.toNat 8 value.toNat

/-- A word is a multiple of eight bytes from address zero. -/
def Aligned (address : Word) : Prop := address.toNat % 8 = 0

@[simp] theorem word_setWord_same : (memory.setWord address value).word address = value := by
  rw [word, setWord, load_store_same, Nat.mod_eq_of_lt (show value.toNat < 256 ^ 8 from value.isLt),
    BitVec.ofNat_toNat, BitVec.setWidth_eq]

/-- Writing one aligned word leaves the others. -/
theorem word_setWord_other (aligned : Aligned address) (aligned' : Aligned place)
    (different : place ≠ address) : (memory.setWord address value).word place = memory.word place := by
  have apart : place.toNat ≠ address.toNat := fun same => different (BitVec.eq_of_toNat_eq same)
  unfold Aligned at aligned aligned'
  rw [word, setWord, load_store_disjoint (by omega), word]

theorem Aligned.add (aligned : Aligned address) (count : Nat) :
    Aligned (address + BitVec.ofNat 64 (8 * count)) := by
  unfold Aligned at aligned ⊢
  rw [BitVec.toNat_add, BitVec.toNat_ofNat]
  omega

theorem Aligned.pushed (aligned : Aligned address) : Aligned (address - 8) := by
  unfold Aligned at aligned ⊢
  rw [BitVec.toNat_sub]
  simp only [BitVec.reduceToNat]
  omega

theorem Aligned.popped (aligned : Aligned address) : Aligned (address + 8) := aligned.add 1

/-- Equal bytes in an aligned word give equal words. -/
theorem word_congr (aligned : Aligned address)
    (same : ∀ offset < 8, other (address + BitVec.ofNat 64 offset).toNat =
      memory (address + BitVec.ofNat 64 offset).toNat) : other.word address = memory.word address := by
  have bound := address.isLt
  unfold Aligned at aligned
  rw [word, word]
  refine congrArg (BitVec.ofNat 64) (load_congr fun byte lower upper => ?_)
  have place : (address + BitVec.ofNat 64 (byte - address.toNat)).toNat = byte := by
    rw [BitVec.toNat_add, BitVec.toNat_ofNat]
    omega
  have here := same (byte - address.toNat) (by omega)
  rw [place] at here
  exact here

/-- The words that lie from an address up. -/
def Stacked (memory : Memory) : Word → List Word → Prop
  | _, [] => True
  | top, value :: rest => memory.word top = value ∧ Stacked memory (top + 8) rest

/-- The place of a word is reached word by word. -/
theorem place_succ (top : Word) (index : Nat) :
    top + BitVec.ofNat 64 (8 * (index + 1)) = top + 8 + BitVec.ofNat 64 (8 * index) := by
  rw [Nat.mul_add, Nat.add_comm, BitVec.ofNat_add, BitVec.add_assoc]
  rfl

/-- A stack survives in memory that has the same words there. -/
theorem Stacked.congr (stacked : Stacked memory top words)
    (same : ∀ index < words.length, other.word (top + BitVec.ofNat 64 (8 * index)) =
      memory.word (top + BitVec.ofNat 64 (8 * index))) : Stacked other top words := by
  induction words generalizing top with
  | nil => trivial
  | cons value rest ih =>
      refine ⟨?_, ih stacked.2 fun index within => ?_⟩
      · have head := same 0 (by simp)
        simp only [Nat.mul_zero, BitVec.add_zero] at head
        rw [head]
        exact stacked.1
      · have next := same (index + 1) (by simpa using within)
        rw [place_succ] at next
        exact next

/-- The words of a stack by their index from the top. -/
theorem Stacked.word (stacked : Stacked memory top words) {index : Nat}
    (within : index < words.length) :
    memory.word (top + BitVec.ofNat 64 (8 * index)) = words[index] := by
  induction words generalizing top index with
  | nil => exact absurd within (Nat.not_lt_zero _)
  | cons value rest ih =>
      cases index with
      | zero =>
          rw [Nat.mul_zero, BitVec.add_zero]
          exact stacked.1
      | succ index =>
          rw [place_succ]
          exact ih stacked.2 (by simpa using within)

/-- Pushing a word puts it on top of the stack. -/
theorem Stacked.push (stacked : Stacked memory top words) (aligned : Aligned top)
    (small : 8 * words.length < 2 ^ 64) (value : Word) :
    Stacked (memory.setWord (top - 8) value) (top - 8) (value :: words) := by
  refine ⟨word_setWord_same, ?_⟩
  rw [BitVec.sub_add_cancel]
  refine stacked.congr fun index within => word_setWord_other aligned.pushed (aligned.add index) ?_
  intro same
  have numbers := congrArg BitVec.toNat same
  have bound := top.isLt
  rw [BitVec.toNat_add, BitVec.toNat_ofNat, BitVec.toNat_sub] at numbers
  simp only [BitVec.reduceToNat] at numbers
  omega

end Memory
end Lib
