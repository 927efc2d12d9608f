import GodOs.Pmm.Init

/-!
# The initial free set

A frame is free after `pmm_bitmap_init` exactly when all its bytes lie in one
usable range and none in a reserved interval, whatever the order of the ranges.
-/

namespace GodOs

open Lib

/-- The bytes of a frame. -/
def frameBytes (frame : Nat) : Set Nat :=
  Set.Ico (frame * pmmFrameSize) ((frame + 1) * pmmFrameSize)

/-- A frame that initialisation may hand out: inside a single usable range, and
apart from the low 1 MB, the kernel image and the multiboot2 structure. -/
structure UsableFrame (ranges : List Mb2Range) (bssEnd mbInfo infoEnd frame : Nat) : Prop where
  inside : ∃ range ∈ ranges, frameBytes frame ⊆ Set.Ico range.base (range.base + range.length)
  low : Disjoint (frameBytes frame) (Set.Ico 0 pmmLowReserved)
  image : Disjoint (frameBytes frame) (Set.Ico pmmLowReserved bssEnd)
  info : Disjoint (frameBytes frame) (Set.Ico mbInfo infoEnd)

section Usable

variable {ranges : List Mb2Range} {bssEnd mbInfo infoEnd frame : Nat}

theorem frameBytes_subset {first last : Nat} :
    frameBytes frame ⊆ Set.Ico first last ↔
      first ≤ frame * pmmFrameSize ∧ (frame + 1) * pmmFrameSize ≤ last := by
  rw [frameBytes, Set.Ico_subset_Ico_iff]
  simp only [pmmFrameSize]
  omega

theorem frameBytes_disjoint {first last : Nat} :
    Disjoint (frameBytes frame) (Set.Ico first last) ↔
      ¬ (first < (frame + 1) * pmmFrameSize ∧ frame * pmmFrameSize < last ∧ first < last) := by
  rw [frameBytes, Set.Ico_disjoint_Ico]
  simp only [pmmFrameSize]
  omega

/-- The usable frames are those that the bitmap marks as free. -/
theorem usableFrame_iff (inRange : frame < pmmFrameCount) :
    UsableFrame ranges bssEnd mbInfo infoEnd frame ↔
      (∃ range ∈ ranges, Offers range frame) ∧ ¬ Reserved bssEnd mbInfo infoEnd frame := by
  have within : (frame + 1) * pmmFrameSize ≤ pmmMaxPhys := by
    simp only [pmmFrameCount, pmmMaxPhys, pmmFrameSize] at *
    omega
  have offers : ∀ range : Mb2Range, Offers range frame ↔
      frameBytes frame ⊆ Set.Ico range.base (range.base + range.length) := by
    intro range
    rw [frameBytes_subset, Offers]
    omega
  have apart : ¬ Reserved bssEnd mbInfo infoEnd frame ↔
      Disjoint (frameBytes frame) (Set.Ico 0 pmmLowReserved) ∧
        Disjoint (frameBytes frame) (Set.Ico pmmLowReserved bssEnd) ∧
        Disjoint (frameBytes frame) (Set.Ico mbInfo infoEnd) := by
    rw [frameBytes_disjoint, frameBytes_disjoint, frameBytes_disjoint, Reserved]
    simp only [pmmFrameSize, pmmLowReserved]
    omega
  rw [apart]
  simp only [offers]
  constructor
  · exact fun usable => ⟨usable.inside, usable.low, usable.image, usable.info⟩
  · rintro ⟨inside, low, image, info⟩
    exact ⟨inside, low, image, info⟩

/-- A bitmap is given by its bits. -/
theorem bitmap_ext {bitmap bitmap' : Nat → UInt8}
    (same : ∀ frame, pmmBitTest bitmap frame = pmmBitTest bitmap' frame) : bitmap = bitmap' := by
  funext byte
  refine UInt8.toNat.inj (Nat.eq_of_testBit_eq fun bit => ?_)
  by_cases inByte : bit < 8
  · have bits := same (byte * 8 + bit)
    rw [pmmBitTest_eq_testBit, pmmBitTest_eq_testBit, show (byte * 8 + bit) / 8 = byte by omega,
      show (byte * 8 + bit) % 8 = bit by omega] at bits
    cases first : (bitmap byte).toNat.testBit bit <;>
      cases second : (bitmap' byte).toNat.testBit bit <;> simp_all
  · have high : 2 ^ 8 ≤ 2 ^ bit := Nat.pow_le_pow_right (by decide) (by omega)
    rw [Nat.testBit_lt_two_pow (Nat.lt_of_lt_of_le (UInt8.toNat_lt _) high),
      Nat.testBit_lt_two_pow (Nat.lt_of_lt_of_le (UInt8.toNat_lt _) high)]

/-- The order in which ranges are marked does not matter. -/
theorem markRanges_perm {ranges' : List Mb2Range} {bitmap : Nat → UInt8}
    (fits : ∀ range ∈ ranges, range.base < 2 ^ 64 ∧ range.length < 2 ^ 64)
    (order : ranges'.Perm ranges) :
    ranges'.foldl (fun bitmap range => pmmMarkFree bitmap range.base range.length) bitmap =
      ranges.foldl (fun bitmap range => pmmMarkFree bitmap range.base range.length) bitmap := by
  refine bitmap_ext fun frame => ?_
  have fits' : ∀ range ∈ ranges', range.base < 2 ^ 64 ∧ range.length < 2 ^ 64 :=
    fun range member => fits range (order.mem_iff.mp member)
  have first := @markRanges_test bitmap frame ranges' fits'
  have second := @markRanges_test bitmap frame ranges fits
  have offered : (∃ range ∈ ranges', Offers range frame) ↔ ∃ range ∈ ranges, Offers range frame := by
    simp only [order.mem_iff]
  rw [offered, ← second] at first
  have bit := pmmBitTest_eq_zero_or_one (ranges'.foldl
    (fun bitmap range => pmmMarkFree bitmap range.base range.length) bitmap) frame
  have bit' := pmmBitTest_eq_zero_or_one (ranges.foldl
    (fun bitmap range => pmmMarkFree bitmap range.base range.length) bitmap) frame
  omega

/-- **The initial free set is exact.** After `pmm_bitmap_init` the free frames
below 1 GB are the usable ones, the counter counts them, frame `0` is not among
them, and the order of the ranges does not matter. -/
theorem initial_free_set_exact {pmm : Pmm} (image : bssEnd ≤ pmmMaxPhys)
    (info : pmm.infoEnd < 2 ^ 64)
    (fits : ∀ range ∈ ranges, range.base < 2 ^ 64 ∧ range.length < 2 ^ 64) :
    (∀ frame < pmmFrameCount, pmmBitTest (pmmBitmapInit bssEnd pmm ranges).bitmap frame = 0 ↔
      UsableFrame ranges bssEnd pmm.mbInfo pmm.infoEnd frame) ∧
    (pmmBitmapInit bssEnd pmm ranges).freeFrames =
      {frame | frame < pmmFrameCount ∧
        UsableFrame ranges bssEnd pmm.mbInfo pmm.infoEnd frame}.ncard ∧
    pmmBitTest (pmmBitmapInit bssEnd pmm ranges).bitmap 0 = 1 ∧
    ∀ ranges', ranges'.Perm ranges → pmmBitmapInit bssEnd pmm ranges' = pmmBitmapInit bssEnd pmm ranges := by
  have exact' : ∀ frame < pmmFrameCount,
      pmmBitTest (pmmBitmapInit bssEnd pmm ranges).bitmap frame = 0 ↔
        UsableFrame ranges bssEnd pmm.mbInfo pmm.infoEnd frame := by
    intro frame inRange
    rw [usableFrame_iff inRange, ← mem_freeSet_pmmBitmapInit image info fits, mem_freeSet]
    exact ⟨fun clear => ⟨inRange, clear⟩, And.right⟩
  have valid := pmmBitmapInit_valid bssEnd pmm ranges
  refine ⟨exact', ?_, ?_, ?_⟩
  · have same : {frame | frame < pmmFrameCount ∧
        UsableFrame ranges bssEnd pmm.mbInfo pmm.infoEnd frame} =
          (freeSet (pmmBitmapInit bssEnd pmm ranges).bitmap : Set Nat) := by
      ext frame
      rw [Finset.mem_coe, mem_freeSet]
      exact and_congr_right fun inRange => (exact' frame inRange).symm
    rw [valid.count, same, Set.ncard_coe_finset]
  · refine (pmmBitTest_eq_zero_or_one _ 0).resolve_left fun clear => ?_
    exact valid.zero (mem_freeSet.mpr ⟨by decide, clear⟩)
  · intro ranges' order
    unfold pmmBitmapInit
    simp only
    rw [markRanges_perm fits order]

/-- The static variables of `pmm.c` when the structure lies at `0x9000`. -/
def samplePmm : Pmm :=
  { bitmap := fun _ => 0, freeFrames := 0, hint := 0, mbInfo := 0x9000, infoEnd := 0x9038,
    maxEnd := 0x8000000 }

theorem initial_free_set_exact_sample :
    pmmBitTest (pmmBitmapInit 0x120000 samplePmm [⟨0, 0x8000000⟩]).bitmap 0 = 1 ∧
      pmmBitTest (pmmBitmapInit 0x120000 samplePmm [⟨0, 0x8000000⟩]).bitmap 288 = 0 := by
  obtain ⟨free, _, zero, _⟩ := @initial_free_set_exact [⟨0, 0x8000000⟩] 0x120000 samplePmm (by decide)
    (by decide) (by decide)
  refine ⟨zero, (free 288 (by decide)).mpr ?_⟩
  rw [usableFrame_iff (by decide)]
  decide

end Usable

end GodOs
