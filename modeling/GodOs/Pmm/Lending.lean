import GodOs.Pmm.Allocator

/-!
# Allocating and giving back

`Lent` says which frames were handed out since an earlier state. `alloc_free_restores`
uses it for frames that come back in any order, and for the self-test, which gives
everything back on each of its paths.
-/

namespace GodOs

open Lib

/-- A number of consecutive allocations, with the addresses they returned. -/
def pmmAllocFrames (pmm : Pmm) : Nat → Pmm × List Nat
  | 0 => (pmm, [])
  | count + 1 =>
      let (pmm, pa) := pmmAllocFrame pmm
      let (pmm, rest) := pmmAllocFrames pmm count
      (pmm, pa :: rest)

/-- Free the addresses of a list in its order. -/
def pmmFreeFrames (pmm : Pmm) (addresses : List Nat) : Pmm := addresses.foldl pmmFreeFrame pmm

def pmmSelfTestFrames : Nat := 512

/-- The first loop of `pmm_self_test`, with `left` rounds to go: the frames it has taken,
the highest one, and whether all checks passed. -/
def selfTestTake (kernelEnd : Nat) : Nat → Pmm → List Nat → Nat → Pmm × List Nat × Nat × Bool
  | 0, pmm, frames, maxPa => (pmm, frames, maxPa, true)
  | left + 1, pmm, frames, maxPa =>
      let (pmm, pa) := pmmAllocFrame pmm
      if pa = 0 then (pmm, frames, maxPa, false)
      else
        let frames := frames ++ [pa]
        if pa &&& (pmmFrameSize - 1) ≠ 0 then (pmm, frames, maxPa, false)
        else if pa < kernelEnd then (pmm, frames, maxPa, false)
        else if pa < pmm.infoEnd ∧ pa + pmmFrameSize > pmm.mbInfo then (pmm, frames, maxPa, false)
        else selfTestTake kernelEnd left pmm frames (if pa > maxPa then pa else maxPa)

/-- The last loop of `pmm_self_test`: take the frames again. -/
def selfTestReuse : Nat → Pmm → List Nat → Pmm × List Nat × Bool
  | 0, pmm, frames => (pmm, frames, true)
  | left + 1, pmm, frames =>
      let (pmm, pa) := pmmAllocFrame pmm
      if pa = 0 then (pmm, frames, false) else selfTestReuse left pmm (frames ++ [pa])

def selfTestPattern (i : Nat) : Nat := 0xA5A5A5A5A5A5A5A5 ^^^ i

section SelfTest

variable {Device : Type} (write : Device → Nat → Nat → Device) (read : Device → Nat → Nat)

/-- Write the patterns to the frames, the first one with the index `i`. -/
def selfTestWrite (device : Device) : Nat → List Nat → Device
  | _, [] => device
  | i, pa :: rest => selfTestWrite (write device pa (selfTestPattern i)) (i + 1) rest

/-- Compare the patterns, up to the first mismatch. -/
def selfTestCheck (device : Device) : Nat → List Nat → Bool
  | _, [] => true
  | i, pa :: rest =>
      if read device pa ≠ selfTestPattern i then false else selfTestCheck device (i + 1) rest

/-- `pmm_self_test`. The memory behind the frames may be any device, so that a mismatch
of the patterns is possible. -/
def pmmSelfTest (bssEnd : Nat) (pmm : Pmm) (device : Device) : Pmm × Device × Int :=
  let before := pmm.freeFrames
  let (pmm, frames, maxPa, ok) := selfTestTake (pmmAlignUp4k bssEnd) pmmSelfTestFrames pmm [] 0
  let ok := ok && ¬ maxPa ≤ pmm2mb
  let device := if ok then selfTestWrite write device 0 frames else device
  let ok := ok && selfTestCheck read device 0 frames
  let pmm := pmmFreeFrames pmm frames
  let ok := ok && pmm.freeFrames = before
  if ok then
    let (pmm, frames, ok) := selfTestReuse pmmSelfTestFrames pmm []
    (pmmFreeFrames pmm frames, device, if ok then 0 else -1)
  else (pmm, device, -1)

end SelfTest

/-- The frames of `addresses` were free in `pmm`, and are what differs since. -/
structure Lent (pmm pmm' : Pmm) (addresses : List Nat) : Prop where
  valid : pmm'.Valid
  legal : ∀ pa ∈ addresses, pa % pmmFrameSize = 0 ∧ pa / pmmFrameSize ∈ freeSet pmm.bitmap
  bits : ∀ frame, pmmBitTest pmm'.bitmap frame =
    if frame * pmmFrameSize ∈ addresses then 1 else pmmBitTest pmm.bitmap frame

section Lending

variable {pmm pmm' other : Pmm} {addresses order : List Nat}

theorem Lent.refl (valid : pmm.Valid) : Lent pmm pmm [] where
  valid := valid
  legal _ member := absurd member List.not_mem_nil
  bits _ := by simp

/-- One more frame is handed out. -/
theorem Lent.alloc (lent : Lent pmm pmm' addresses) (found : (pmmAllocFrame pmm').2 ≠ 0) :
    Lent pmm (pmmAllocFrame pmm').1 (addresses ++ [(pmmAllocFrame pmm').2]) := by
  obtain ⟨frame, free, _, isAddress, taken⟩ := pmmAllocFrame_ne_zero Prod.mk.eta.symm found
  have frameSize : pmmFrameSize = 4096 := rfl
  have clear := (mem_freeSet.mp free).2
  have fresh : frame * pmmFrameSize ∉ addresses := by
    intro member
    rw [lent.bits, if_pos member] at clear
    cases clear
  refine ⟨lent.valid.alloc, ?_, ?_⟩
  · intro pa member
    rcases List.mem_append.mp member with earlier | last
    · exact lent.legal pa earlier
    · rw [List.mem_singleton.mp last, isAddress]
      rw [lent.bits, if_neg fresh] at clear
      refine ⟨Nat.mul_mod_left _ _, ?_⟩
      rw [Nat.mul_div_cancel _ (by decide)]
      exact mem_freeSet.mpr ⟨(mem_freeSet.mp free).1, clear⟩
  · intro other
    rw [taken, isAddress, pmmTake, pmmBitTest_set, lent.bits]
    by_cases same : other = frame
    · simp [same]
    · have different : other * pmmFrameSize ≠ frame * pmmFrameSize := by
        simp only [frameSize]
        omega
      simp [same, different]

/-- A legal address clears the bit of its frame. -/
theorem pmmBitTest_pmmFreeFrame {pa frame : Nat} (notZero : pa ≠ 0) (aligned : pa % pmmFrameSize = 0)
    (below : pa < pmmMaxPhys) : pmmBitTest (pmmFreeFrame pmm pa).bitmap frame =
      if frame * pmmFrameSize = pa then 0 else pmmBitTest pmm.bitmap frame := by
  have frameSize : pmmFrameSize = 4096 := rfl
  have offset : pa &&& (pmmFrameSize - 1) = pa % pmmFrameSize := Bits.and_low pa 12
  have place : frame * pmmFrameSize = pa ↔ frame = pa / pmmFrameSize := by
    simp only [frameSize] at aligned ⊢
    omega
  rw [pmmFreeFrame, offset, if_neg (by omega)]
  simp only [place]
  by_cases free : pmmBitTest pmm.bitmap (pa / pmmFrameSize) = 0
  · rw [if_pos free]
    split
    next same => rw [same, free]
    next => rfl
  · rw [if_neg free]
    exact pmmBitTest_clear

/-- Giving back some of the frames. -/
theorem Lent.free (lent : Lent pmm pmm' addresses) (valid : pmm.Valid) (known : order ⊆ addresses) :
    (pmmFreeFrames pmm' order).Valid ∧ ∀ frame,
      pmmBitTest (pmmFreeFrames pmm' order).bitmap frame =
        if frame * pmmFrameSize ∈ order then 0 else pmmBitTest pmm'.bitmap frame := by
  induction order using List.reverseRecOn with
  | nil => exact ⟨lent.valid, fun frame => by simp [pmmFreeFrames]⟩
  | append_singleton order pa ih =>
      obtain ⟨valid', bits⟩ := ih fun _ member => known (List.mem_append_left _ member)
      obtain ⟨aligned, free⟩ := lent.legal pa (known (List.mem_append_right _ List.mem_cons_self))
      have inRange := (mem_freeSet.mp free).1
      have frameSize : pmmFrameSize = 4096 := rfl
      have notZero : pa ≠ 0 := by
        rintro rfl
        exact valid.zero (by simpa using free)
      have below : pa < pmmMaxPhys := by
        simp only [pmmFrameCount, pmmMaxPhys, frameSize] at inRange ⊢
        omega
      rw [pmmFreeFrames, List.foldl_append]
      refine ⟨valid'.free pa, fun frame => ?_⟩
      refine (pmmBitTest_pmmFreeFrame notZero aligned below).trans ?_
      rw [← pmmFreeFrames, bits]
      by_cases same : frame * pmmFrameSize = pa
      · simp [same]
      · simp [same]

/-- Giving back all frames, in any order, restores the bitmap and the counter. -/
theorem Lent.free_all (lent : Lent pmm pmm' addresses) (valid : pmm.Valid)
    (perm : order.Perm addresses) : (pmmFreeFrames pmm' order).Valid ∧
      (pmmFreeFrames pmm' order).bitmap = pmm.bitmap ∧
      (pmmFreeFrames pmm' order).freeFrames = pmm.freeFrames := by
  have frameSize : pmmFrameSize = 4096 := rfl
  obtain ⟨valid', bits⟩ := lent.free valid perm.subset
  have same : (pmmFreeFrames pmm' order).bitmap = pmm.bitmap := by
    refine bitmap_ext fun frame => ?_
    rw [bits, lent.bits]
    by_cases member : frame * pmmFrameSize ∈ addresses
    · rw [if_pos (perm.mem_iff.mpr member)]
      have free := (lent.legal _ member).2
      rw [Nat.mul_div_cancel _ (by decide)] at free
      exact (mem_freeSet.mp free).2.symm
    · rw [if_neg (mt perm.mem_iff.mp member), if_neg member]
  exact ⟨valid', same, by rw [valid'.count, valid.count, same]⟩

/-- Every path of the first loop of the self-test only borrows. -/
theorem selfTestTake_lent {kernelEnd left maxPa : Nat} (lent : Lent pmm pmm' addresses) :
    Lent pmm (selfTestTake kernelEnd left pmm' addresses maxPa).1
      (selfTestTake kernelEnd left pmm' addresses maxPa).2.1 := by
  induction left generalizing pmm' addresses maxPa with
  | zero => exact lent
  | succ left ih =>
      rw [selfTestTake]
      by_cases failed : (pmmAllocFrame pmm').2 = 0
      · have still : Lent pmm (pmmAllocFrame pmm').1 addresses := by
          rw [@pmmAllocFrame_zero pmm' (pmmAllocFrame pmm').1 (Prod.ext rfl failed) lent.valid.zero]
          exact lent
        simp only [if_pos failed]
        exact still
      · have next := lent.alloc failed
        simp only [if_neg failed]
        split_ifs
        · exact next
        · exact next
        · exact next
        · exact ih next
        · exact ih next

/-- So does every path of the last one. -/
theorem selfTestReuse_lent {left : Nat} (lent : Lent pmm pmm' addresses) :
    Lent pmm (selfTestReuse left pmm' addresses).1 (selfTestReuse left pmm' addresses).2.1 := by
  induction left generalizing pmm' addresses with
  | zero => exact lent
  | succ left ih =>
      rw [selfTestReuse]
      by_cases failed : (pmmAllocFrame pmm').2 = 0
      · have still : Lent pmm (pmmAllocFrame pmm').1 addresses := by
          rw [@pmmAllocFrame_zero pmm' (pmmAllocFrame pmm').1 (Prod.ext rfl failed) lent.valid.zero]
          exact lent
        simp only [if_pos failed]
        exact still
      · simp only [if_neg failed]
        exact ih (lent.alloc failed)

/-- The self-test leaves the bitmap and the counter as they were. -/
theorem Pmm.Valid.selfTest {Device : Type} (valid : pmm.Valid) (write : Device → Nat → Nat → Device)
    (read : Device → Nat → Nat) (bssEnd : Nat) (device : Device) :
    (pmmSelfTest write read bssEnd pmm device).1.bitmap = pmm.bitmap ∧
      (pmmSelfTest write read bssEnd pmm device).1.freeFrames = pmm.freeFrames := by
  have taken := @selfTestTake_lent _ _ _ (pmmAlignUp4k bssEnd) pmmSelfTestFrames 0 (Lent.refl valid)
  obtain ⟨valid', same, count⟩ := taken.free_all valid (.refl _)
  obtain ⟨_, again, countAgain⟩ :=
    (@selfTestReuse_lent _ _ _ pmmSelfTestFrames (Lent.refl valid')).free_all valid' (.refl _)
  unfold pmmSelfTest
  simp only
  -- the loops stay closed: only the states that they leave matter
  generalize selfTestReuse pmmSelfTestFrames _ [] = reuse at again countAgain ⊢
  generalize pmmFreeFrames (selfTestTake _ _ _ _ _).1 _ = freed at same count again countAgain ⊢
  split_ifs <;>
    first | exact ⟨same, count⟩ | exact ⟨again.trans same, countAgain.trans count⟩

/-- Consecutive allocations hand out ever higher frames, while there are any. -/
theorem pmmAllocFrames_lent {count : Nat} (lent : Lent pmm pmm' addresses)
    (enough : count ≤ pmm'.freeFrames) :
    Lent pmm (pmmAllocFrames pmm' count).1 (addresses ++ (pmmAllocFrames pmm' count).2) ∧
      (pmmAllocFrames pmm' count).2.length = count ∧
      (pmmAllocFrames pmm' count).2.Pairwise (· < ·) ∧
      ∀ pa ∈ (pmmAllocFrames pmm' count).2, pa ≠ 0 ∧ pa / pmmFrameSize ∈ freeSet pmm'.bitmap := by
  induction count generalizing pmm' addresses with
  | zero => exact ⟨by simpa [pmmAllocFrames] using lent, rfl, .nil, fun _ member => nomatch member⟩
  | succ count ih =>
      have nonempty : (freeSet pmm'.bitmap).Nonempty := by
        rw [← Finset.card_pos, ← lent.valid.count]
        omega
      have free := (freeSet pmm'.bitmap).min'_mem nonempty
      have least : ∀ other ∈ freeSet pmm'.bitmap, (freeSet pmm'.bitmap).min' nonempty ≤ other :=
        fun other member => Finset.min'_le _ other member
      have taken := lent.valid.alloc_eq free least
      generalize (freeSet pmm'.bitmap).min' nonempty = frame at free least taken
      have positive : frame ≠ 0 := by
        rintro rfl
        exact lent.valid.zero free
      have found : (pmmAllocFrame pmm').2 ≠ 0 := by
        rw [taken]
        simp only [pmmFrameSize]
        omega
      have next := lent.alloc found
      rw [taken] at next
      obtain ⟨lent', length, sorted, higher⟩ := ih next (by simp only [pmmTake]; omega)
      rw [pmmAllocFrames, taken]
      simp only
      refine ⟨by simpa using lent', by rw [List.length_cons, length], ?_, ?_⟩
      · refine List.pairwise_cons.mpr ⟨fun pa member => ?_, sorted⟩
        obtain ⟨_, isFree⟩ := higher pa member
        simp only [pmmTake, freeSet_set, Finset.mem_erase] at isFree
        have atLeast := least _ isFree.2
        have different := isFree.1
        simp only [pmmFrameSize] at atLeast different ⊢
        omega
      · intro pa member
        rcases List.mem_cons.mp member with rfl | later
        · refine ⟨by simpa [taken] using found, ?_⟩
          rwa [Nat.mul_div_cancel _ (by decide)]
        · obtain ⟨notZero, isFree⟩ := higher pa later
          simp only [pmmTake, freeSet_set, Finset.mem_erase] at isFree
          exact ⟨notZero, isFree.2⟩

/-- What is handed out depends on the bitmap alone. -/
theorem pmmAllocFrames_congr {count : Nat} (valid : pmm.Valid) (valid' : other.Valid)
    (same : other.bitmap = pmm.bitmap) :
    (pmmAllocFrames other count).2 = (pmmAllocFrames pmm count).2 := by
  induction count generalizing pmm other with
  | zero => rfl
  | succ count ih =>
      obtain ⟨bits, address⟩ := Prod.mk.inj (valid.alloc_plain.trans (same ▸ valid'.alloc_plain.symm))
      have rest := ih valid.alloc valid'.alloc bits.symm
      rw [pmmAllocFrames, pmmAllocFrames]
      simp only [address, rest]

/-- **Allocating and giving back is invisible.** In every state reachable from
`pmm_bitmap_init`, consecutive allocations return increasing addresses; freeing these in
any order restores the bitmap and the counter, and the same allocations return the same
addresses again. The self-test leaves the bitmap and the counter alone on every path,
whatever the memory behind the frames answers. -/
theorem alloc_free_restores {bssEnd : Nat} {start : Pmm} {ranges : List Mb2Range}
    {events : List PmmEvent} (run : Steps PmmStep (pmmBitmapInit bssEnd start ranges) events pmm) :
    (∀ count ≤ pmm.freeFrames, (pmmAllocFrames pmm count).2.length = count ∧
      (pmmAllocFrames pmm count).2.Pairwise (· < ·) ∧
      (∀ pa ∈ (pmmAllocFrames pmm count).2, pa ≠ 0) ∧
      ∀ order, order.Perm (pmmAllocFrames pmm count).2 →
        (pmmFreeFrames (pmmAllocFrames pmm count).1 order).bitmap = pmm.bitmap ∧
        (pmmFreeFrames (pmmAllocFrames pmm count).1 order).freeFrames = pmm.freeFrames ∧
        (pmmAllocFrames (pmmFreeFrames (pmmAllocFrames pmm count).1 order) count).2 =
          (pmmAllocFrames pmm count).2) ∧
    ∀ {Device : Type} (write : Device → Nat → Nat → Device) (read : Device → Nat → Nat)
      (bssEnd : Nat) (device : Device),
      (pmmSelfTest write read bssEnd pmm device).1.bitmap = pmm.bitmap ∧
        (pmmSelfTest write read bssEnd pmm device).1.freeFrames = pmm.freeFrames := by
  have valid := (pmmBitmapInit_valid bssEnd start ranges).run run
  refine ⟨fun count enough => ?_, fun write read bssEnd device => valid.selfTest write read bssEnd device⟩
  obtain ⟨lent, length, sorted, frames⟩ := pmmAllocFrames_lent (.refl valid) enough
  rw [List.nil_append] at lent
  refine ⟨length, sorted, fun pa member => (frames pa member).1, fun order perm => ?_⟩
  obtain ⟨valid', same, counted⟩ := lent.free_all valid perm
  exact ⟨same, counted, pmmAllocFrames_congr valid valid' same⟩

/-- Two frames given back in the other order. -/
theorem alloc_free_restores_sample : ∃ pmm first second, first < second ∧
    (pmmAllocFrames pmm 2).2 = [first, second] ∧
    (pmmFreeFrames (pmmAllocFrames pmm 2).1 [second, first]).bitmap = pmm.bitmap := by
  have pair : ({288, 289} : Finset Nat) ⊆
      freeSet (pmmBitmapInit 0x120000 samplePmm [⟨0, 0x8000000⟩]).bitmap := by
    intro frame member
    have place : frame = 288 ∨ frame = 289 := by simpa using member
    refine (mem_freeSet_pmmBitmapInit (by decide) (by decide) (by decide)).mpr
      ⟨⟨_, List.mem_singleton_self _, ?_⟩, ?_⟩
    · rcases place with rfl | rfl <;> decide
    · rcases place with rfl | rfl <;> decide
  have valid := pmmBitmapInit_valid 0x120000 samplePmm [⟨0, 0x8000000⟩]
  have enough := Finset.card_le_card pair
  rw [← valid.count] at enough
  obtain ⟨length, sorted, _, restores⟩ := (alloc_free_restores .refl).1 2 enough
  obtain ⟨first, second, both⟩ := List.length_eq_two.mp length
  rw [both] at sorted restores
  exact ⟨_, first, second, by simpa using sorted, both, (restores _ (.swap _ _ _)).1⟩

end Lending

end GodOs
