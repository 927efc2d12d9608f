import GodOs.Pmm.Allocator
import GodOs.Vm.Boot

/-!
# What the reservation is worth

`pmm_bitmap_init` keeps reserved frames out of the pool by setting their bits, and
`pmm_free_frame` clears any set bit below 1 GB. So allocations come from the
memory map as long as nobody frees an address outside it, and no longer.
-/

namespace GodOs

open Lib

/-- What `mb2_init` reports to `pmm_init`, which maps the structure first. -/
def pmmMemoryMap (k : Kernel) (mbInfo : Nat) : Outcome (Nat × Option (List Mb2Range)) :=
  let k := (ensure2mbMapped k mbInfo 8).1
  mb2Init (ensure2mbMapped k mbInfo (k.mem.load mbInfo 4)).1.mem mbInfo mb2MaxRanges 0

/-- A call that frees an address which passes the guards of `pmm_free_frame` but is
no usable frame of the memory map. -/
def FreesUnusable (ranges : List Mb2Range) (bssEnd mbInfo infoEnd : Nat) : PmmEvent → Prop
  | .alloc _ => False
  | .free pa => pa ≠ 0 ∧ pa % pmmFrameSize = 0 ∧ pa < pmmMaxPhys ∧
      ¬ UsableFrame ranges bssEnd mbInfo infoEnd (pa / pmmFrameSize)

section Reserved

variable {ranges : List Mb2Range} {bssEnd mbInfo infoEnd : Nat} {pmm pmm' : Pmm}
  {event : PmmEvent} {events : List PmmEvent} {k k' : Kernel}

/-- The pool holds usable frames only. -/
def PoolUsable (ranges : List Mb2Range) (bssEnd mbInfo infoEnd : Nat) (pmm : Pmm) : Prop :=
  ∀ frame ∈ freeSet pmm.bitmap, UsableFrame ranges bssEnd mbInfo infoEnd frame

theorem PoolUsable.step (usable : PoolUsable ranges bssEnd mbInfo infoEnd pmm)
    (step : PmmStep pmm event pmm') (allowed : ¬ FreesUnusable ranges bssEnd mbInfo infoEnd event) :
    PoolUsable ranges bssEnd mbInfo infoEnd pmm' := by
  cases step with
  | alloc =>
      rcases pmmAllocFrame_cases pmm with ⟨taken, _, result⟩ | failed
      · rw [result]
        intro frame member
        simp only [pmmTake, freeSet_set] at member
        exact usable frame (Finset.mem_of_mem_erase member)
      · rw [failed]
        exact usable
  | free =>
      intro frame member
      rcases mem_freeSet_pmmFreeFrame.mp member with before | ⟨notZero, aligned, below, rfl⟩
      · exact usable frame before
      · by_contra unusable
        exact allowed ⟨notZero, aligned, below, unusable⟩

/-- A non-zero result is the address of a frame of the pool. -/
theorem PoolUsable.alloc (usable : PoolUsable ranges bssEnd mbInfo infoEnd pmm)
    (found : (pmmAllocFrame pmm).2 ≠ 0) : (pmmAllocFrame pmm).2 % pmmFrameSize = 0 ∧
      UsableFrame ranges bssEnd mbInfo infoEnd ((pmmAllocFrame pmm).2 / pmmFrameSize) := by
  obtain ⟨frame, free, _, place, _⟩ := pmmAllocFrame_ne_zero (Prod.mk.eta).symm found
  rw [place, Nat.mul_mod_left, Nat.mul_div_cancel _ (by decide)]
  exact ⟨rfl, usable frame free⟩

/-- After a successful `pmm_init` the pool is usable. -/
theorem pmmInit_usable (run : pmmInit bssEnd k mbInfo = .done (k', 0)) (image : bssEnd ≤ pmmMaxPhys) :
    ∃ ranges infoEnd, pmmMemoryMap k mbInfo = .done (infoEnd, some ranges) ∧
      PoolUsable ranges bssEnd mbInfo infoEnd k'.pmm := by
  obtain ⟨k₁, k₂, ranges, infoEnd, first, second, parsed, _, _, extended⟩ := pmmInit_done run
  have below := ensure2mbMapped_below first (by decide)
  have limit : pmmMaxPhys = 2 ^ 30 := rfl
  obtain ⟨infoEndEq, _, short, _⟩ := mb2Init_done parsed
  rw [u64_of_lt (by omega)] at infoEndEq
  refine ⟨ranges, infoEnd, ?_, ?_⟩
  · simp only [pmmMemoryMap, first, second, parsed]
  · intro frame free
    rw [pmmExtendIdentity_pmm extended] at free
    rw [usableFrame_iff (mem_freeSet.mp free).1]
    exact (mem_freeSet_pmmBitmapInit image (show infoEnd < 2 ^ 64 by omega)
      (mb2Init_fits parsed)).mp free

/-- **Allocations come from the memory map while only usable frames are freed.** In
every run after a successful `pmm_init` in which no call frees an address that
passes the guards and is no usable frame, every non-zero address returned is a
usable frame. -/
theorem allocations_usable (run : pmmInit bssEnd k mbInfo = .done (k', 0))
    (image : bssEnd ≤ pmmMaxPhys) :
    ∃ ranges infoEnd, pmmMemoryMap k mbInfo = .done (infoEnd, some ranges) ∧
      ∀ events pmm, Steps (fun pmm event pmm' => PmmStep pmm event pmm' ∧
          ¬ FreesUnusable ranges bssEnd mbInfo infoEnd event) k'.pmm events pmm →
        ∀ pa, .alloc pa ∈ events → pa ≠ 0 → pa % pmmFrameSize = 0 ∧
          UsableFrame ranges bssEnd mbInfo infoEnd (pa / pmmFrameSize) := by
  obtain ⟨ranges, infoEnd, parsed, usable⟩ := pmmInit_usable run image
  refine ⟨ranges, infoEnd, parsed, fun events pmm later => ?_⟩
  induction later with
  | refl => exact fun pa member => absurd member List.not_mem_nil
  | snoc prior last ih =>
      have before := prior.invariant
        (fun {state _ _} (held : PoolUsable ranges bssEnd mbInfo infoEnd state) step =>
          held.step step.1 step.2) usable
      intro pa member found
      rcases List.mem_append.mp member with earlier | final
      · exact ih pa earlier found
      · obtain rfl := List.mem_singleton.mp final
        cases last.1
        exact before.alloc found

/-- Allocation after allocation hands out every free frame in the end. -/
theorem Pmm.Valid.alloc_reaches (valid : pmm.Valid) {frame : Nat}
    (free : frame ∈ freeSet pmm.bitmap) :
    ∃ events pmm', Steps PmmStep pmm (events ++ [.alloc (frame * pmmFrameSize)]) pmm' := by
  induction left : (freeSet pmm.bitmap).card generalizing pmm with
  | zero => simp [Finset.card_eq_zero.mp left] at free
  | succ left' ih =>
      obtain ⟨least, member, lowest⟩ := (freeSet pmm.bitmap).exists_min_image id ⟨frame, free⟩
      have taken := valid.alloc_eq member lowest
      have step := PmmStep.alloc pmm
      rw [taken] at step
      by_cases here : least = frame
      · subst here
        exact ⟨[], _, .single step⟩
      · have stays : frame ∈ freeSet (pmmTake pmm least).bitmap := by
          simp only [pmmTake, freeSet_set]
          exact Finset.mem_erase.mpr ⟨Ne.symm here, free⟩
        have fewer : (freeSet (pmmTake pmm least).bitmap).card = left' := by
          simp only [pmmTake, freeSet_set]
          rw [Finset.card_erase_of_mem member, left, Nat.add_sub_cancel]
        obtain ⟨events, pmm', rest⟩ := ih (valid.take member lowest) stays fewer
        exact ⟨.alloc (least * pmmFrameSize) :: events, pmm', (Steps.single step).trans rest⟩

/-- Freeing what is no usable frame lets the allocator hand it out. -/
theorem freed_unusable_returned (valid : pmm.Valid) {pa : Nat} (fits : pa < 2 ^ 64)
    (frees : FreesUnusable ranges bssEnd mbInfo infoEnd (.free pa)) :
    ∃ events pmm', Steps PmmStep pmm (.free pa :: events ++ [.alloc pa]) pmm' ∧ pa ≠ 0 ∧
      ¬ UsableFrame ranges bssEnd mbInfo infoEnd (pa / pmmFrameSize) := by
  obtain ⟨notZero, aligned, below, unusable⟩ := frees
  have free : pa / pmmFrameSize ∈ freeSet (pmmFreeFrame pmm pa).bitmap :=
    mem_freeSet_pmmFreeFrame.mpr (.inr ⟨notZero, aligned, below, rfl⟩)
  obtain ⟨events, pmm', rest⟩ := (valid.free pa).alloc_reaches free
  rw [Nat.div_mul_cancel (Nat.dvd_of_mod_eq_zero aligned)] at rest
  exact ⟨events, pmm', (Steps.single (.free pmm fits)).trans rest, notZero, unusable⟩

/-- A frame is allocated, freed and allocated again. -/
theorem allocations_usable_sample : ∃ pa pmm ranges infoEnd, pa ≠ 0 ∧
    Steps PmmStep sampleKernel.pmm [.alloc pa, .free pa, .alloc pa] pmm ∧
    pmmMemoryMap (vmInit sampleBoot) 0x9000 = .done (infoEnd, some ranges) ∧
    UsableFrame ranges 0x120000 0x9000 infoEnd (pa / pmmFrameSize) := by
  obtain ⟨ranges, infoEnd, parsed, usable⟩ := allocations_usable sample_init (by decide)
  have valid := sample_booted.state.valid
  obtain ⟨frame, free, lowest⟩ := (freeSet sampleKernel.pmm.bitmap).exists_min_image id
    ⟨288, @sample_free 288 (by decide) (by decide)⟩
  have small := (mem_freeSet.mp free).1
  have positive : frame ≠ 0 := fun zero => valid.zero (zero ▸ free)
  have one := PmmStep.alloc sampleKernel.pmm
  rw [valid.alloc_eq free lowest] at one
  -- what was just allocated is a usable frame, so it may be freed
  have found : frame * pmmFrameSize ≠ 0 := Nat.mul_ne_zero positive (by decide)
  have first := usable [_] _ (.single ⟨one, id⟩) _ (List.mem_singleton.mpr rfl) found
  have allowed : ¬ FreesUnusable ranges sampleImage.bssEnd 0x9000 infoEnd (.free (frame * pmmFrameSize)) :=
    fun unusable => unusable.2.2.2 first.2
  have two := PmmStep.free (pmmTake sampleKernel.pmm frame) (show frame * pmmFrameSize < 2 ^ 64 by
    simp only [pmmFrameCount, pmmMaxPhys, pmmFrameSize] at small ⊢
    omega)
  -- and it is the lowest free frame again
  have back : frame ∈ freeSet
      (pmmFreeFrame (pmmTake sampleKernel.pmm frame) (frame * pmmFrameSize)).bitmap := by
    refine mem_freeSet_pmmFreeFrame.mpr (.inr ⟨found, Nat.mul_mod_left _ _, ?_, ?_⟩)
    · simp only [pmmFrameCount, pmmMaxPhys, pmmFrameSize] at small ⊢
      omega
    · rw [Nat.mul_div_cancel _ (by decide)]
  have lowest' : ∀ other ∈ freeSet
      (pmmFreeFrame (pmmTake sampleKernel.pmm frame) (frame * pmmFrameSize)).bitmap, frame ≤ other := by
    intro other member
    rcases mem_freeSet_pmmFreeFrame.mp member with before | ⟨_, _, _, rfl⟩
    · simp only [pmmTake, freeSet_set] at before
      exact lowest other (Finset.mem_of_mem_erase before)
    · rw [Nat.mul_div_cancel _ (by decide)]
  have three := PmmStep.alloc (pmmFreeFrame (pmmTake sampleKernel.pmm frame) (frame * pmmFrameSize))
  rw [((valid.take free lowest).free _).alloc_eq back lowest'] at three
  have again := usable _ _ (.snoc (.snoc (.single ⟨one, id⟩) ⟨two, allowed⟩) ⟨three, id⟩) _
    (List.mem_append_right _ (List.mem_singleton.mpr rfl)) found
  exact ⟨_, _, ranges, infoEnd, found, .snoc (.snoc (.single one) two) three, parsed, again.2⟩

/-- The text screen lies in the low 1 MB. Freed, it is the next frame allocated. -/
theorem freed_screen_allocated :
    pmmInit sampleImage.bssEnd (vmInit sampleBoot) 0x9000 = .done (sampleKernel, 0) ∧
    ∃ pmm, Steps PmmStep sampleKernel.pmm [.free 0xB8000, .alloc 0xB8000] pmm ∧
      ¬ Disjoint (frameBytes (0xB8000 / pmmFrameSize)) (Set.Ico 0 pmmLowReserved) := by
  have state := sample_booted.state
  have free : 0xB8 ∈ freeSet (pmmFreeFrame sampleKernel.pmm 0xB8000).bitmap :=
    mem_freeSet_pmmFreeFrame.mpr (.inr ⟨by decide, by decide, by decide, by decide⟩)
  have lowest : ∀ other ∈ freeSet (pmmFreeFrame sampleKernel.pmm 0xB8000).bitmap, 0xB8 ≤ other := by
    intro other member
    rcases mem_freeSet_pmmFreeFrame.mp member with before | ⟨_, _, _, rfl⟩
    · by_contra low
      refine state.reserved (.inl ?_) before
      simp only [pmmFrameSize, pmmLowReserved]
      omega
    · decide
  have step := PmmStep.alloc (pmmFreeFrame sampleKernel.pmm 0xB8000)
  rw [(state.valid.free 0xB8000).alloc_eq free lowest] at step
  refine ⟨sample_init, _, .snoc (.single (.free _ (by decide))) step, ?_⟩
  rw [frameBytes_disjoint]
  decide

end Reserved

end GodOs
