import GodOs.Lib.Transition
import GodOs.Pmm.Initial

/-!
# Runs of the frame allocator

Any sequence of `pmm_alloc_frame` and `pmm_free_frame`, with any address freed.
The allocator gives what a plain scan from frame `0` gives.
-/

namespace GodOs

open Lib

/-- A call of the allocator, with the address it returned or was given. -/
inductive PmmEvent where
  | alloc (pa : Nat)
  | free (pa : Nat)

/-- One call. -/
inductive PmmStep : Pmm → PmmEvent → Pmm → Prop where
  | alloc (pmm : Pmm) : PmmStep pmm (.alloc (pmmAllocFrame pmm).2) (pmmAllocFrame pmm).1
  | free (pmm : Pmm) {pa : Nat} (fits : pa < 2 ^ 64) : PmmStep pmm (.free pa) (pmmFreeFrame pmm pa)

/-- The allocator without a hint and a counter: the lowest free frame. -/
def plainAlloc (bitmap : Nat → UInt8) : (Nat → UInt8) × Nat :=
  match pmmScan bitmap pmmFrameCount 0 with
  | some frame => (pmmBitSet bitmap frame, frame * pmmFrameSize)
  | none => (bitmap, 0)

section Run

variable {pmm pmm' : Pmm} {event : PmmEvent} {events : List PmmEvent}

theorem Pmm.Valid.step (valid : pmm.Valid) (step : PmmStep pmm event pmm') : pmm'.Valid := by
  cases step with
  | alloc => exact valid.alloc
  | free => exact valid.free _

/-- Every state of a run from a consistent one is consistent. -/
theorem Pmm.Valid.run (valid : pmm.Valid) (run : Steps PmmStep pmm events pmm') : pmm'.Valid :=
  run.invariant (fun {state _ _} (valid : Pmm.Valid state) step => valid.step step) valid

/-- A scan from frame `0` finds the least free frame. -/
theorem pmmScan_zero_eq_some {bitmap : Nat → UInt8} {frame : Nat} :
    pmmScan bitmap pmmFrameCount 0 = some frame ↔
      frame ∈ freeSet bitmap ∧ ∀ other ∈ freeSet bitmap, frame ≤ other := by
  rw [pmmScan_eq_some, mem_freeSet]
  constructor
  · rintro ⟨_, inRange, free, before⟩
    refine ⟨⟨by omega, free⟩, fun other member => ?_⟩
    by_contra below
    exact before other (Nat.zero_le _) (by omega) (mem_freeSet.mp member).2
  · rintro ⟨⟨inRange, free⟩, lowest⟩
    refine ⟨Nat.zero_le _, by omega, free, fun other _ below isFree => ?_⟩
    have atLeast := lowest other (mem_freeSet.mpr ⟨by omega, isFree⟩)
    omega

theorem pmmScan_zero_eq_none {bitmap : Nat → UInt8} :
    pmmScan bitmap pmmFrameCount 0 = none ↔ freeSet bitmap = ∅ := by
  rw [pmmScan_eq_none, Finset.eq_empty_iff_forall_notMem]
  constructor
  · intro used frame member
    obtain ⟨inRange, free⟩ := mem_freeSet.mp member
    exact used frame (Nat.zero_le _) (by omega) free
  · intro empty frame _ inRange free
    exact empty frame (mem_freeSet.mpr ⟨by omega, free⟩)

/-- The hinted allocator returns and marks what a plain scan does. -/
theorem Pmm.Valid.alloc_plain (valid : pmm.Valid) :
    ((pmmAllocFrame pmm).1.bitmap, (pmmAllocFrame pmm).2) = plainAlloc pmm.bitmap := by
  unfold plainAlloc
  cases scanned : pmmScan pmm.bitmap pmmFrameCount 0 with
  | some frame =>
      obtain ⟨free, lowest⟩ := pmmScan_zero_eq_some.mp scanned
      rw [valid.alloc_eq free lowest]
      rfl
  | none =>
      have exhausted : pmm.freeFrames = 0 := by
        rw [valid.count, pmmScan_zero_eq_none.mp scanned, Finset.card_empty]
      rw [pmmAllocFrame, if_pos exhausted]

/-- **The hinted allocator agrees with the lowest-first scan.** In every state
reachable from `pmm_bitmap_init`, whatever is freed: the counter counts the clear
bits, the frames below the hint and frame `0` are used, and `pmm_alloc_frame`
does what a plain scan from frame `0` does. So it returns the least free frame
and marks only that one, and it returns `0`, changing nothing, exactly when no
frame is free. -/
theorem hinted_alloc_is_lowest {bssEnd : Nat} {start : Pmm} {ranges : List Mb2Range}
    (run : Steps PmmStep (pmmBitmapInit bssEnd start ranges) events pmm) :
    pmm.freeFrames = (freeSet pmm.bitmap).card ∧
    (∀ frame < pmmFrameCount, frame < pmm.hint → pmmBitTest pmm.bitmap frame = 1) ∧
    pmmBitTest pmm.bitmap 0 = 1 ∧
    ((pmmAllocFrame pmm).1.bitmap, (pmmAllocFrame pmm).2) = plainAlloc pmm.bitmap ∧
    (∀ frame ∈ freeSet pmm.bitmap, (∀ other ∈ freeSet pmm.bitmap, frame ≤ other) →
      (pmmAllocFrame pmm).2 = 4096 * frame ∧
        ∀ other, pmmBitTest (pmmAllocFrame pmm).1.bitmap other =
          if other = frame then 1 else pmmBitTest pmm.bitmap other) ∧
    ((pmmAllocFrame pmm).2 = 0 ↔ freeSet pmm.bitmap = ∅) ∧
    ((pmmAllocFrame pmm).2 = 0 → (pmmAllocFrame pmm).1 = pmm) := by
  have valid := (pmmBitmapInit_valid bssEnd start ranges).run run
  have bits := pmmBitTest_eq_zero_or_one pmm.bitmap
  refine ⟨valid.count, ?_, ?_, valid.alloc_plain, ?_, ?_, ?_⟩
  · intro frame inRange below
    refine (bits frame).resolve_left fun free => ?_
    have := valid.hint frame (mem_freeSet.mpr ⟨inRange, free⟩)
    omega
  · exact (bits 0).resolve_left fun free => valid.zero (mem_freeSet.mpr ⟨by decide, free⟩)
  · intro frame free lowest
    rw [valid.alloc_eq free lowest]
    exact ⟨Nat.mul_comm _ _, fun other => pmmBitTest_set⟩
  · rw [valid.alloc_zero_iff, valid.count, Finset.card_eq_zero]
  · intro failed
    refine pmmAllocFrame_zero (Prod.ext rfl failed) valid.zero

theorem hinted_alloc_is_lowest_sample : ∃ pmm,
    Steps PmmStep (pmmBitmapInit 0x120000 samplePmm [⟨0, 0x8000000⟩])
      [.free 0xB8000, .alloc (pmmAllocFrame pmm).2] (pmmAllocFrame pmm).1 ∧
    pmmBitTest (pmmAllocFrame pmm).1.bitmap 0 = 1 := by
  have run : Steps PmmStep (pmmBitmapInit 0x120000 samplePmm [⟨0, 0x8000000⟩]) [.free 0xB8000]
      (pmmFreeFrame (pmmBitmapInit 0x120000 samplePmm [⟨0, 0x8000000⟩]) 0xB8000) :=
    .single (.free _ (by decide))
  have run' := run.snoc (.alloc _)
  exact ⟨_, run', (hinted_alloc_is_lowest run').2.2.1⟩

end Run

end GodOs
