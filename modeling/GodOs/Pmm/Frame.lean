import GodOs.Lib.Bits

/-!
# The frame bitmap of `pmm.c`

One bit for each 4 KB frame below 1 GB: `1` is unusable or handed out, `0` is
free. `pmmAllocFrame` scans from a hint and wraps once; `pmmFreeFrame` ignores
what cannot be a frame.
-/

namespace GodOs

open Lib

/-- The value a `uint64_t` computation keeps. -/
def u64 (value : Nat) : Nat := value % 2 ^ 64

theorem u64_of_lt {value : Nat} (fits : value < 2 ^ 64) : u64 value = value :=
  Nat.mod_eq_of_lt fits

def pmmFrameSize : Nat := 4096
def pmmMaxPhys : Nat := 0x40000000
def pmmFrameCount : Nat := pmmMaxPhys / pmmFrameSize
def pmmBitmapBytes : Nat := pmmFrameCount / 8

/-- The static variables of `pmm.c`. -/
structure Pmm where
  bitmap : Nat → UInt8
  freeFrames : Nat
  hint : Nat
  mbInfo : Nat
  infoEnd : Nat
  maxEnd : Nat

def pmmBitTest (bitmap : Nat → UInt8) (frame : Nat) : Nat :=
  ((bitmap (frame >>> 3)).toNat >>> (frame &&& 7)) &&& 1

def pmmBitSet (bitmap : Nat → UInt8) (frame : Nat) : Nat → UInt8 :=
  Function.update bitmap (frame >>> 3)
    (bitmap (frame >>> 3) ||| UInt8.ofNat (1 <<< (frame &&& 7)))

def pmmBitClear (bitmap : Nat → UInt8) (frame : Nat) : Nat → UInt8 :=
  Function.update bitmap (frame >>> 3)
    (bitmap (frame >>> 3) &&& ~~~UInt8.ofNat (1 <<< (frame &&& 7)))

/-- The first free frame among `left` frames from `frame`. -/
def pmmScan (bitmap : Nat → UInt8) : Nat → Nat → Option Nat
  | 0, _ => none
  | left + 1, frame =>
      if pmmBitTest bitmap frame = 0 then some frame else pmmScan bitmap left (frame + 1)

/-- The state after handing out one frame. -/
def pmmTake (pmm : Pmm) (frame : Nat) : Pmm :=
  { pmm with
    bitmap := pmmBitSet pmm.bitmap frame
    freeFrames := pmm.freeFrames - 1
    hint := frame + 1 }

def pmmAllocFrame (pmm : Pmm) : Pmm × Nat :=
  if pmm.freeFrames = 0 then (pmm, 0)
  else
    let start := if pmm.hint ≥ pmmFrameCount then 0 else pmm.hint
    match pmmScan pmm.bitmap (pmmFrameCount - start) start with
    | some frame => (pmmTake pmm frame, frame * pmmFrameSize)
    | none =>
        match pmmScan pmm.bitmap pmmFrameCount 0 with
        | some frame => (pmmTake pmm frame, frame * pmmFrameSize)
        | none => (pmm, 0)

def pmmFreeFrame (pmm : Pmm) (pa : Nat) : Pmm :=
  if pa = 0 ∨ pa &&& (pmmFrameSize - 1) ≠ 0 ∨ pa ≥ pmmMaxPhys then pmm
  else
    let frame := pa / pmmFrameSize
    if pmmBitTest pmm.bitmap frame = 0 then pmm
    else
      { pmm with
        bitmap := pmmBitClear pmm.bitmap frame
        freeFrames := u64 (pmm.freeFrames + 1)
        hint := if frame < pmm.hint then frame else pmm.hint }

section Bits

variable {bitmap : Nat → UInt8} {frame other : Nat}

private theorem byte_index (frame : Nat) : frame >>> 3 = frame / 8 := Nat.shiftRight_eq_div_pow _ 3

private theorem bit_index (frame : Nat) : frame &&& 7 = frame % 8 := Bits.and_low frame 3

/-- A tested bit is a bit of one byte. -/
theorem pmmBitTest_eq_testBit (bitmap : Nat → UInt8) (frame : Nat) :
    pmmBitTest bitmap frame = ((bitmap (frame / 8)).toNat.testBit (frame % 8)).toNat := by
  rw [pmmBitTest, byte_index, bit_index, Nat.testBit_eq_decide_div_mod_eq, Nat.shiftRight_eq_div_pow,
    show (1 : Nat) = 2 ^ 1 - 1 from rfl, Bits.and_low]
  rcases Nat.mod_two_eq_zero_or_one ((bitmap (frame / 8)).toNat / 2 ^ (frame % 8)) with bit | bit <;>
    simp [bit]

theorem pmmBitTest_eq_zero_or_one (bitmap : Nat → UInt8) (frame : Nat) :
    pmmBitTest bitmap frame = 0 ∨ pmmBitTest bitmap frame = 1 := by
  rw [pmmBitTest_eq_testBit]
  cases (bitmap (frame / 8)).toNat.testBit (frame % 8) <;> simp

/-- The one-bit mask of a frame inside its byte. -/
private theorem mask_testBit (frame bit : Nat) :
    (UInt8.ofNat (1 <<< (frame % 8))).toNat.testBit bit = decide (bit = frame % 8) := by
  have small : frame % 8 < 8 := Nat.mod_lt _ (by decide)
  have fits : 1 <<< (frame % 8) < 2 ^ 8 := by
    rw [Nat.one_shiftLeft]
    exact Nat.pow_lt_pow_right (by decide) small
  rw [UInt8.toNat_ofNat_of_lt' fits, Nat.one_shiftLeft, Nat.testBit_two_pow]
  simp [eq_comm]

theorem pmmBitTest_set : pmmBitTest (pmmBitSet bitmap frame) other =
    if other = frame then 1 else pmmBitTest bitmap other := by
  rw [pmmBitTest_eq_testBit, pmmBitTest_eq_testBit, pmmBitSet, byte_index, bit_index]
  by_cases sameByte : other / 8 = frame / 8
  · rw [sameByte, Function.update_self, UInt8.toNat_or, Nat.testBit_or, mask_testBit]
    by_cases sameBit : other % 8 = frame % 8
    · have same : other = frame := by omega
      simp [same]
    · have different : other ≠ frame := by rintro rfl; exact sameBit rfl
      simp [sameBit, different]
  · have different : other ≠ frame := by rintro rfl; exact sameByte rfl
    rw [Function.update_of_ne sameByte, if_neg different]

theorem pmmBitTest_clear : pmmBitTest (pmmBitClear bitmap frame) other =
    if other = frame then 0 else pmmBitTest bitmap other := by
  have small : other % 8 < 8 := Nat.mod_lt _ (by decide)
  rw [pmmBitTest_eq_testBit, pmmBitTest_eq_testBit, pmmBitClear, byte_index, bit_index]
  by_cases sameByte : other / 8 = frame / 8
  · have inverted : UInt8.size - 1 - (UInt8.ofNat (1 <<< (frame % 8))).toNat =
        2 ^ 8 - ((UInt8.ofNat (1 <<< (frame % 8))).toNat + 1) := by
      rw [show UInt8.size = 2 ^ 8 from rfl]
      omega
    rw [sameByte, Function.update_self, UInt8.toNat_and, Nat.testBit_and, UInt8.toNat_not, inverted,
      Nat.testBit_two_pow_sub_succ (UInt8.toNat_lt _), mask_testBit]
    by_cases sameBit : other % 8 = frame % 8
    · have same : other = frame := by omega
      simp [same]
    · have different : other ≠ frame := by rintro rfl; exact sameBit rfl
      simp [sameBit, different, small]
  · have different : other ≠ frame := by rintro rfl; exact sameByte rfl
    rw [Function.update_of_ne sameByte, if_neg different]

end Bits

/-- The free frames, as a set of frame numbers. -/
def freeSet (bitmap : Nat → UInt8) : Finset Nat :=
  (Finset.range pmmFrameCount).filter fun frame => pmmBitTest bitmap frame = 0

theorem mem_freeSet {bitmap : Nat → UInt8} {frame : Nat} :
    frame ∈ freeSet bitmap ↔ frame < pmmFrameCount ∧ pmmBitTest bitmap frame = 0 := by
  rw [freeSet, Finset.mem_filter, Finset.mem_range]

theorem freeSet_set (bitmap : Nat → UInt8) (frame : Nat) :
    freeSet (pmmBitSet bitmap frame) = (freeSet bitmap).erase frame := by
  ext other
  rw [Finset.mem_erase, mem_freeSet, mem_freeSet, pmmBitTest_set]
  by_cases same : other = frame <;> simp [same]

theorem freeSet_clear (bitmap : Nat → UInt8) {frame : Nat} (inRange : frame < pmmFrameCount) :
    freeSet (pmmBitClear bitmap frame) = insert frame (freeSet bitmap) := by
  ext other
  rw [Finset.mem_insert, mem_freeSet, mem_freeSet, pmmBitTest_clear]
  by_cases same : other = frame
  · subst same
    simpa using inRange
  · simp [same]

/-- Freeing an address adds its frame to the pool when it can be a frame, and
changes nothing otherwise. -/
theorem mem_freeSet_pmmFreeFrame {pmm : Pmm} {pa frame : Nat} :
    frame ∈ freeSet (pmmFreeFrame pmm pa).bitmap ↔
      frame ∈ freeSet pmm.bitmap ∨
        pa ≠ 0 ∧ pa % pmmFrameSize = 0 ∧ pa < pmmMaxPhys ∧ frame = pa / pmmFrameSize := by
  have offset : pa &&& (pmmFrameSize - 1) = pa % pmmFrameSize := Bits.and_low pa 12
  unfold pmmFreeFrame
  rw [offset]
  by_cases illegal : pa = 0 ∨ pa % pmmFrameSize ≠ 0 ∨ pa ≥ pmmMaxPhys
  · rw [if_pos illegal]
    refine ⟨.inl, ?_⟩
    rintro (free | ⟨notZero, aligned, below, _⟩)
    · exact free
    · omega
  rw [if_neg illegal]
  have inRange : pa / pmmFrameSize < pmmFrameCount := by
    simp only [pmmMaxPhys, pmmFrameSize, pmmFrameCount] at *
    omega
  simp only
  by_cases free : pmmBitTest pmm.bitmap (pa / pmmFrameSize) = 0
  · rw [if_pos free]
    refine ⟨.inl, ?_⟩
    rintro (known | ⟨_, _, _, rfl⟩)
    · exact known
    · exact mem_freeSet.mpr ⟨inRange, free⟩
  · rw [if_neg free]
    simp only
    rw [freeSet_clear _ inRange, Finset.mem_insert]
    constructor
    · rintro (rfl | known)
      · exact .inr ⟨by omega, by omega, by omega, rfl⟩
      · exact .inl known
    · rintro (known | ⟨_, _, _, rfl⟩)
      · exact .inr known
      · exact .inl rfl

/-- The allocator's three pieces of state agree: the counter counts the clear
bits, no frame below the hint is free, and frame `0` is never free. -/
structure Pmm.Valid (pmm : Pmm) : Prop where
  count : pmm.freeFrames = (freeSet pmm.bitmap).card
  hint : ∀ frame ∈ freeSet pmm.bitmap, pmm.hint ≤ frame
  zero : 0 ∉ freeSet pmm.bitmap

section Scan

variable {bitmap : Nat → UInt8}

/-- A scan finds the first free frame of its stretch. -/
theorem pmmScan_eq_some {left start frame : Nat} :
    pmmScan bitmap left start = some frame ↔
      start ≤ frame ∧ frame < start + left ∧ pmmBitTest bitmap frame = 0 ∧
        ∀ other, start ≤ other → other < frame → pmmBitTest bitmap other ≠ 0 := by
  induction left generalizing start with
  | zero => simp only [pmmScan, reduceCtorEq, false_iff]; omega
  | succ left ih =>
      rw [pmmScan]
      split
      next free =>
        constructor
        · intro found
          cases found
          exact ⟨Nat.le_refl _, by omega, free, fun other lower upper => by omega⟩
        · rintro ⟨lower, upper, _, before⟩
          by_cases same : start = frame
          · rw [same]
          · exact absurd free (before start (Nat.le_refl _) (by omega))
      next used =>
        rw [ih]
        constructor
        · rintro ⟨lower, upper, free, before⟩
          refine ⟨by omega, by omega, free, fun other above below => ?_⟩
          by_cases same : other = start
          · rwa [same]
          · exact before other (by omega) below
        · rintro ⟨lower, upper, free, before⟩
          have different : start ≠ frame := by rintro rfl; exact used free
          exact ⟨by omega, by omega, free, fun other above below => before other (by omega) below⟩

theorem pmmScan_eq_none {left start : Nat} :
    pmmScan bitmap left start = none ↔
      ∀ frame, start ≤ frame → frame < start + left → pmmBitTest bitmap frame ≠ 0 := by
  induction left generalizing start with
  | zero => simp only [pmmScan, true_iff]; omega
  | succ left ih =>
      rw [pmmScan]
      split
      next free =>
        simp only [reduceCtorEq, false_iff, not_forall]
        exact ⟨start, Nat.le_refl _, by omega, by simp [free]⟩
      next used =>
        rw [ih]
        constructor
        · intro rest frame lower upper
          by_cases same : frame = start
          · rwa [same]
          · exact rest frame (by omega) (by omega)
        · intro all frame lower upper
          exact all frame (by omega) (by omega)

end Scan

section Allocator

variable {pmm : Pmm}

/-- What one allocation can do: hand out a free frame, or change nothing. -/
theorem pmmAllocFrame_cases (pmm : Pmm) :
    (∃ frame ∈ freeSet pmm.bitmap,
      pmmAllocFrame pmm = (pmmTake pmm frame, frame * pmmFrameSize)) ∨
    pmmAllocFrame pmm = (pmm, 0) := by
  unfold pmmAllocFrame
  split
  · exact .inr rfl
  simp only
  split
  next frame found =>
    obtain ⟨_, upper, free, _⟩ := pmmScan_eq_some.mp found
    refine .inl ⟨frame, mem_freeSet.mpr ⟨?_, free⟩, rfl⟩
    split at upper <;> omega
  next =>
    split
    next frame found =>
      obtain ⟨_, upper, free, _⟩ := pmmScan_eq_some.mp found
      exact .inl ⟨frame, mem_freeSet.mpr ⟨by omega, free⟩, rfl⟩
    next => exact .inr rfl

/-- A non-zero answer is the address of a frame that was free and is now taken. -/
theorem pmmAllocFrame_ne_zero {next : Pmm} {pa : Nat} (run : pmmAllocFrame pmm = (next, pa))
    (found : pa ≠ 0) :
    ∃ frame ∈ freeSet pmm.bitmap, frame ≠ 0 ∧ pa = frame * pmmFrameSize ∧ next = pmmTake pmm frame := by
  rcases pmmAllocFrame_cases pmm with ⟨frame, free, taken⟩ | failed
  · rw [taken] at run
    cases run
    refine ⟨frame, free, ?_, rfl, rfl⟩
    rintro rfl
    exact found (Nat.zero_mul _)
  · rw [failed] at run
    cases run
    exact absurd rfl found

/-- While frame `0` is reserved, a zero answer leaves the allocator alone. -/
theorem pmmAllocFrame_zero {next : Pmm} (run : pmmAllocFrame pmm = (next, 0))
    (reserved : 0 ∉ freeSet pmm.bitmap) : next = pmm := by
  rcases pmmAllocFrame_cases pmm with ⟨frame, free, taken⟩ | failed
  · rw [taken] at run
    obtain ⟨_, zero⟩ := Prod.mk.inj run
    have isZero : frame = 0 := by simpa [pmmFrameSize] using zero
    exact absurd (isZero ▸ free) reserved
  · rw [failed] at run
    cases run
    rfl

/-- The allocator takes the lowest free frame: the hint never hides one. -/
theorem Pmm.Valid.alloc_eq (valid : pmm.Valid) {frame : Nat} (free : frame ∈ freeSet pmm.bitmap)
    (lowest : ∀ other ∈ freeSet pmm.bitmap, frame ≤ other) :
    pmmAllocFrame pmm = (pmmTake pmm frame, frame * pmmFrameSize) := by
  have inRange := (mem_freeSet.mp free).1
  have hinted := valid.hint frame free
  have nonzero : pmm.freeFrames ≠ 0 := by
    rw [valid.count]
    exact Finset.card_ne_zero_of_mem free
  have scanned : pmmScan pmm.bitmap (pmmFrameCount - pmm.hint) pmm.hint = some frame := by
    refine pmmScan_eq_some.mpr ⟨hinted, by omega, (mem_freeSet.mp free).2, ?_⟩
    intro other _ below isFree
    have atLeast := lowest other (mem_freeSet.mpr ⟨by omega, isFree⟩)
    omega
  rw [pmmAllocFrame, if_neg nonzero]
  simp only [if_neg (show ¬ pmm.hint ≥ pmmFrameCount by omega), scanned]

/-- The allocator answers zero exactly when no frame is free. -/
theorem Pmm.Valid.alloc_zero_iff (valid : pmm.Valid) :
    (pmmAllocFrame pmm).2 = 0 ↔ pmm.freeFrames = 0 := by
  constructor
  · intro zero
    by_contra nonzero
    have nonempty : (freeSet pmm.bitmap).Nonempty := by
      rw [← Finset.card_ne_zero, ← valid.count]
      exact nonzero
    have lowest := (freeSet pmm.bitmap).min'_mem nonempty
    rw [valid.alloc_eq lowest fun other member => Finset.min'_le _ _ member] at zero
    have isZero : (freeSet pmm.bitmap).min' nonempty = 0 := by simpa [pmmFrameSize] using zero
    exact valid.zero (isZero ▸ lowest)
  · intro exhausted
    rw [pmmAllocFrame, if_pos exhausted]

theorem Pmm.Valid.take (valid : pmm.Valid) {frame : Nat} (free : frame ∈ freeSet pmm.bitmap)
    (lowest : ∀ other ∈ freeSet pmm.bitmap, frame ≤ other) : (pmmTake pmm frame).Valid where
  count := by
    simp only [pmmTake]
    rw [freeSet_set, Finset.card_erase_of_mem free, valid.count]
  hint := by
    intro other member
    simp only [pmmTake] at member ⊢
    rw [freeSet_set] at member
    have atLeast := lowest other (Finset.mem_of_mem_erase member)
    have different := Finset.ne_of_mem_erase member
    omega
  zero := by
    simp only [pmmTake]
    rw [freeSet_set]
    exact fun member => valid.zero (Finset.mem_of_mem_erase member)

theorem Pmm.Valid.alloc (valid : pmm.Valid) : (pmmAllocFrame pmm).1.Valid := by
  rcases (freeSet pmm.bitmap).eq_empty_or_nonempty with empty | nonempty
  · have exhausted : pmm.freeFrames = 0 := by rw [valid.count, empty, Finset.card_empty]
    rw [pmmAllocFrame, if_pos exhausted]
    exact valid
  · have lowest := (freeSet pmm.bitmap).min'_mem nonempty
    have least := fun other member => Finset.min'_le (freeSet pmm.bitmap) other member
    rw [valid.alloc_eq lowest least]
    exact valid.take lowest least

theorem Pmm.Valid.free (valid : pmm.Valid) (pa : Nat) : (pmmFreeFrame pmm pa).Valid := by
  unfold pmmFreeFrame
  split
  · exact valid
  next legal =>
    push Not at legal
    obtain ⟨notZero, aligned, below⟩ := legal
    simp only
    split
    · exact valid
    next used =>
      have inRange : pa / pmmFrameSize < pmmFrameCount := by
        simp only [pmmMaxPhys, pmmFrameSize, pmmFrameCount] at *
        omega
      have notFree : pa / pmmFrameSize ∉ freeSet pmm.bitmap :=
        fun member => used (mem_freeSet.mp member).2
      have bounded : (freeSet pmm.bitmap).card ≤ pmmFrameCount := by
        have subset : freeSet pmm.bitmap ⊆ Finset.range pmmFrameCount := Finset.filter_subset _ _
        simpa using Finset.card_le_card subset
      refine ⟨?_, ?_, ?_⟩
      · simp only
        rw [freeSet_clear _ inRange, Finset.card_insert_of_notMem notFree, valid.count, u64_of_lt]
        simp only [pmmMaxPhys, pmmFrameSize, pmmFrameCount] at bounded
        omega
      · intro other member
        simp only at member ⊢
        rw [freeSet_clear _ inRange, Finset.mem_insert] at member
        rcases member with rfl | member
        · split <;> omega
        · have := valid.hint other member
          split <;> omega
      · simp only
        rw [freeSet_clear _ inRange, Finset.mem_insert]
        rintro (zero | member)
        · have aligned' : pa % 4096 = 0 := by
            rw [show pmmFrameSize - 1 = 2 ^ 12 - 1 from rfl, Bits.and_low] at aligned
            exact aligned
          simp only [pmmFrameSize] at zero
          omega
        · exact valid.zero member

end Allocator

end GodOs
