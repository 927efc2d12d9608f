import GodOs.Mb2.Parse
import GodOs.Vm.Space

/-!
# Initialising the frame allocator

`pmm_init` maps and parses the multiboot2 structure, fills the bitmap, and
extends the identity mapping. The page-directory edits of both mapping loops
are a `Filled`: an absent entry may become the large page of its own 2 MB, and
nothing else changes. The entry bits of `pmm.c` are those of `vm.h`.
-/

namespace GodOs

open Lib

def pmm2mb : Nat := 2 * 1024 * 1024
def pmmLowReserved : Nat := 0x100000
def pmmPteKernel : Nat := 0x83

def pmmAlignUp4k (x : Nat) : Nat := u64 (x + pmmFrameSize - 1) &&& 0xFFFFFFFFFFFFF000

/-- Clear the bits of `count` frames from the address `first`. -/
def clearFrames (bitmap : Nat → UInt8) (first : Nat) : Nat → Nat → UInt8
  | 0 => bitmap
  | count + 1 =>
      pmmBitClear (clearFrames bitmap first count) ((first + count * pmmFrameSize) / pmmFrameSize)

/-- Set the bits of `count` frames from the address `first`. -/
def setFrames (bitmap : Nat → UInt8) (first : Nat) : Nat → Nat → UInt8
  | 0 => bitmap
  | count + 1 =>
      pmmBitSet (setFrames bitmap first count) ((first + count * pmmFrameSize) / pmmFrameSize)

/-- The number of iterations of `for (pa = first; pa < last; pa += PMM_FRAME_SIZE)`. -/
def frameSteps (first last : Nat) : Nat := (last - first + pmmFrameSize - 1) / pmmFrameSize

def pmmMarkFree (bitmap : Nat → UInt8) (base len : Nat) : Nat → UInt8 :=
  if len = 0 ∨ base ≥ pmmMaxPhys then bitmap
  else
    let finish := u64 (base + len)
    let finish := if finish < base ∨ finish > pmmMaxPhys then pmmMaxPhys else finish
    let first := pmmAlignUp4k base
    let last := finish &&& 0xFFFFFFFFFFFFF000
    clearFrames bitmap first (frameSteps first last)

def pmmMarkUsed (bitmap : Nat → UInt8) (base len : Nat) : Nat → UInt8 :=
  if len = 0 ∨ base ≥ pmmMaxPhys then bitmap
  else
    let finish := u64 (base + len)
    let finish := if finish < base ∨ finish > pmmMaxPhys then pmmMaxPhys else finish
    let first := base &&& 0xFFFFFFFFFFFFF000
    let last := pmmAlignUp4k finish
    let last := if last > pmmMaxPhys then pmmMaxPhys else last
    setFrames bitmap first (frameSteps first last)

/-- The directory loop of `ensure_2mb_mapped`, from address `a` to `last`. -/
def ensureEntries (mem : Memory) (pd last a : Nat) : Memory × Int :=
  let idx := a >>> 21
  if full : idx ≥ 512 then (mem, -1)
  else
    let entry := mem.load (pd + 8 * idx) 8
    if entry &&& vmPtePresent ≠ 0 then
      if entry &&& vmPteHuge = 0 then (mem, -1)
      else if a = last then (mem, 0)
      else ensureEntries mem pd last (a + pmm2mb)
    else
      let mem := mem.store (pd + 8 * idx) 8 ((idx <<< 21) ||| pmmPteKernel)
      if a = last then (mem, 0) else ensureEntries mem pd last (a + pmm2mb)
termination_by 512 - a >>> 21
decreasing_by
  all_goals
    simp only [pmm2mb, Nat.shiftRight_eq_div_pow] at *
    omega

def ensure2mbMapped (k : Kernel) (addr len : Nat) : Kernel × Int :=
  if len = 0 then (k, 0)
  else if addr ≥ pmmMaxPhys ∨ len > pmmMaxPhys - addr then (k, -1)
  else
    let pml4e := k.mem.load (k.cr3 &&& vmAddrMask) 8
    if pml4e &&& vmPtePresent = 0 then (k, -1)
    else
      let pdpte := k.mem.load (pml4e &&& vmAddrMask) 8
      if pdpte &&& vmPtePresent = 0 then (k, -1)
      else if pdpte &&& vmPteHuge ≠ 0 then (k, 0)
      else
        let first := addr &&& 0xFFFFFFFFFFE00000
        let last := (addr + len - 1) &&& 0xFFFFFFFFFFE00000
        match ensureEntries k.mem (pdpte &&& vmAddrMask) last first with
        | (mem, status) =>
            if status ≠ 0 then ({ k with mem := mem }, status)
            else (vmWriteCr3 { k with mem := mem } k.cr3, 0)

/-- The loop of `pmm_extend_identity` over the entries from `1` to `count`. -/
def extendEntries (mem : Memory) (pd : Nat) : Nat → Memory
  | 0 => mem
  | count + 1 =>
      let mem := extendEntries mem pd count
      let i := count + 1
      if mem.load (pd + 8 * i) 8 &&& vmPtePresent = 0 then
        mem.store (pd + 8 * i) 8 ((i <<< 21) ||| pmmPteKernel)
      else mem

def pmmExtendIdentity (k : Kernel) (maxEnd : Nat) : Kernel × Int :=
  if maxEnd = 0 then (k, 0)
  else
    let maxEnd := if maxEnd > pmmMaxPhys then pmmMaxPhys else maxEnd
    let n := (maxEnd + pmm2mb - 1) / pmm2mb
    let n := if n > 512 then 512 else n
    let pml4e := k.mem.load (k.cr3 &&& vmAddrMask) 8
    if pml4e &&& vmPtePresent = 0 then (k, -1)
    else
      let pdpte := k.mem.load (pml4e &&& vmAddrMask) 8
      if pdpte &&& vmPtePresent = 0 then (k, -1)
      else if pdpte &&& vmPteHuge ≠ 0 then (vmWriteCr3 k k.cr3, 0)
      else
        let mem := extendEntries k.mem (pdpte &&& vmAddrMask) (n - 1)
        (vmWriteCr3 { k with mem := mem } k.cr3, 0)

/-- The counting loop over the first `count` frames. -/
def countFree (bitmap : Nat → UInt8) : Nat → Nat
  | 0 => 0
  | count + 1 => countFree bitmap count + if pmmBitTest bitmap count = 0 then 1 else 0

def pmmBitmapInit (bssEnd : Nat) (pmm : Pmm) (ranges : List Mb2Range) : Pmm :=
  let bitmap : Nat → UInt8 := fun _ => 0xFF
  let bitmap := ranges.foldl (fun bitmap range => pmmMarkFree bitmap range.base range.length) bitmap
  let kernelEnd := pmmAlignUp4k bssEnd
  let bitmap := pmmMarkUsed bitmap 0 pmmLowReserved
  let bitmap :=
    if kernelEnd > pmmLowReserved then
      pmmMarkUsed bitmap pmmLowReserved (kernelEnd - pmmLowReserved)
    else bitmap
  let bitmap :=
    if pmm.infoEnd > pmm.mbInfo then pmmMarkUsed bitmap pmm.mbInfo (pmm.infoEnd - pmm.mbInfo)
    else bitmap
  { pmm with bitmap := bitmap, freeFrames := countFree bitmap pmmFrameCount, hint := 0 }

/-- The highest end of the ranges, with overflowing ends and ends above 1 GB cut to 1 GB. -/
def rangesEnd (ranges : List Mb2Range) : Nat :=
  ranges.foldl (fun maxEnd range =>
    let finish := u64 (range.base + range.length)
    let finish := if finish < range.base ∨ finish > pmmMaxPhys then pmmMaxPhys else finish
    if finish > maxEnd then finish else maxEnd) 0

/-- `pmm_init` for the kernel image that ends at `bssEnd`. -/
def pmmInit (bssEnd : Nat) (k : Kernel) (mbInfo : Nat) : Outcome (Kernel × Int) :=
  if mbInfo = 0 then .done (k, -1)
  else
    match ensure2mbMapped k mbInfo 8 with
    | (k, status) =>
      if status ≠ 0 then .done (k, -1)
      else
        let totalSize := k.mem.load mbInfo 4
        if totalSize = 0 ∨ totalSize > 0x100000 then .done (k, -1)
        else
          match ensure2mbMapped k mbInfo totalSize with
          | (k, status) =>
            if status ≠ 0 then .done (k, -1)
            else
              (mb2Init k.mem mbInfo mb2MaxRanges 0).bind fun
                | (_, none) => .done (k, -1)
                | (infoEnd, some ranges) =>
                    let maxEnd := rangesEnd ranges
                    let pmm := { k.pmm with mbInfo := mbInfo, infoEnd := infoEnd, maxEnd := maxEnd }
                    let k := { k with pmm := pmmBitmapInit bssEnd pmm ranges }
                    match pmmExtendIdentity k maxEnd with
                    | (k, status) => if status ≠ 0 then .done (k, -1) else .done (k, 0)

section Bitmap

variable {bitmap : Nat → UInt8} {first count frame : Nat}

private theorem frame_number (aligned : first % 4096 = 0) (count : Nat) :
    (first + count * pmmFrameSize) / pmmFrameSize = first / pmmFrameSize + count := by
  simp only [pmmFrameSize]
  omega

/-- Clearing frames clears exactly the bits of a stretch. -/
theorem clearFrames_test (aligned : first % 4096 = 0) :
    pmmBitTest (clearFrames bitmap first count) frame =
      if first / pmmFrameSize ≤ frame ∧ frame < first / pmmFrameSize + count then 0
      else pmmBitTest bitmap frame := by
  induction count with
  | zero => rw [clearFrames, if_neg (by omega)]
  | succ count ih =>
      rw [clearFrames, pmmBitTest_clear, ih, frame_number aligned]
      split_ifs <;> first | rfl | omega

/-- Setting frames sets exactly the bits of a stretch. -/
theorem setFrames_test (aligned : first % 4096 = 0) :
    pmmBitTest (setFrames bitmap first count) frame =
      if first / pmmFrameSize ≤ frame ∧ frame < first / pmmFrameSize + count then 1
      else pmmBitTest bitmap frame := by
  induction count with
  | zero => rw [setFrames, if_neg (by omega)]
  | succ count ih =>
      rw [setFrames, pmmBitTest_set, ih, frame_number aligned]
      split_ifs <;> first | rfl | omega

private theorem frame_mask (x : Nat) : x &&& 0xFFFFFFFFFFFFF000 = x / 2 ^ 12 % 2 ^ 52 * 2 ^ 12 :=
  Bits.and_field x 12 52

theorem pmmAlignUp4k_eq {x : Nat} (fits : x + 4095 < 2 ^ 64) :
    pmmAlignUp4k x = (x + 4095) / 4096 * 4096 := by
  rw [pmmAlignUp4k, show x + pmmFrameSize - 1 = x + 4095 from rfl, u64_of_lt fits, frame_mask]
  omega

/-- Marking an interval used sets the bits of exactly the frames it touches below 1 GB. -/
theorem pmmMarkUsed_test {base len : Nat} (fits : base + len < 2 ^ 64) :
    pmmBitTest (pmmMarkUsed bitmap base len) frame =
      if base < (frame + 1) * pmmFrameSize ∧ frame * pmmFrameSize < min (base + len) pmmMaxPhys ∧
        0 < len then 1
      else pmmBitTest bitmap frame := by
  unfold pmmMarkUsed
  by_cases empty : len = 0 ∨ base ≥ pmmMaxPhys
  · rw [if_pos empty, if_neg (by simp only [pmmMaxPhys, pmmFrameSize] at *; omega)]
  have cut : (if base + len < base ∨ base + len > pmmMaxPhys then pmmMaxPhys else base + len) =
      min (base + len) pmmMaxPhys := by
    split_ifs <;> omega
  have finish := pmmAlignUp4k_eq (show min (base + len) pmmMaxPhys + 4095 < 2 ^ 64 by
    simp only [pmmMaxPhys]; omega)
  have inRange : ¬ pmmAlignUp4k (min (base + len) pmmMaxPhys) > pmmMaxPhys := by
    simp only [pmmMaxPhys] at *
    omega
  simp only [if_neg empty, u64_of_lt fits, cut, if_neg inRange, frame_mask]
  rw [setFrames_test (by omega), finish]
  simp only [frameSteps, pmmFrameSize, pmmMaxPhys] at *
  refine if_congr ?_ rfl rfl
  omega

theorem pmmMarkUsed_one {base len : Nat} (fits : base + len < 2 ^ 64) :
    pmmBitTest (pmmMarkUsed bitmap base len) frame = 1 ↔
      (base < (frame + 1) * pmmFrameSize ∧ frame * pmmFrameSize < min (base + len) pmmMaxPhys ∧
        0 < len) ∨ pmmBitTest bitmap frame = 1 := by
  rw [pmmMarkUsed_test fits]
  split
  next touched => exact ⟨fun _ => .inl touched, fun _ => rfl⟩
  next outside => exact ⟨.inr, fun either => either.resolve_left outside⟩

/-- Marking an interval free clears the bits of exactly the frames inside it below 1 GB. -/
theorem pmmMarkFree_test {base len : Nat} (fits : base < 2 ^ 64) (fits' : len < 2 ^ 64) :
    pmmBitTest (pmmMarkFree bitmap base len) frame =
      if base ≤ frame * pmmFrameSize ∧ (frame + 1) * pmmFrameSize ≤ min (base + len) pmmMaxPhys then 0
      else pmmBitTest bitmap frame := by
  unfold pmmMarkFree
  by_cases empty : len = 0 ∨ base ≥ pmmMaxPhys
  · rw [if_pos empty, if_neg (by simp only [pmmMaxPhys, pmmFrameSize] at *; omega)]
  have cut : (if u64 (base + len) < base ∨ u64 (base + len) > pmmMaxPhys then pmmMaxPhys
      else u64 (base + len)) = min (base + len) pmmMaxPhys := by
    have value : u64 (base + len) = (base + len) % 2 ^ 64 := rfl
    have limit : pmmMaxPhys = 2 ^ 30 := rfl
    split_ifs <;> omega
  have first := pmmAlignUp4k_eq (show base + 4095 < 2 ^ 64 by simp only [pmmMaxPhys] at empty; omega)
  simp only [if_neg empty, cut, first, frame_mask]
  rw [clearFrames_test (by omega)]
  simp only [frameSteps, pmmFrameSize, pmmMaxPhys] at *
  refine if_congr ?_ rfl rfl
  omega

/-- Marking an interval used never frees a frame. -/
theorem pmmMarkUsed_keeps {base len : Nat} (used : pmmBitTest bitmap frame = 1) :
    pmmBitTest (pmmMarkUsed bitmap base len) frame = 1 := by
  unfold pmmMarkUsed
  split
  · exact used
  · simp only
    rw [setFrames_test (by rw [frame_mask]; omega), used, ite_self]

theorem countFree_eq (bitmap : Nat → UInt8) (count : Nat) :
    countFree bitmap count =
      ((Finset.range count).filter fun frame => pmmBitTest bitmap frame = 0).card := by
  induction count with
  | zero => rfl
  | succ count ih =>
      rw [countFree, ih, Finset.range_add_one, Finset.filter_insert]
      split
      · rw [Finset.card_insert_of_notMem (by simp)]
      · rw [Nat.add_zero]

/-- The frames that initialisation keeps out of the pool: the low 1 MB, the
kernel image and the multiboot2 structure. -/
def Reserved (bssEnd mbInfo infoEnd frame : Nat) : Prop :=
  frame * pmmFrameSize < max pmmLowReserved bssEnd ∨
    mbInfo < (frame + 1) * pmmFrameSize ∧ frame * pmmFrameSize < infoEnd ∧ mbInfo < infoEnd

/-- A range of the memory map offers the frames that lie inside it. -/
def Offers (range : Mb2Range) (frame : Nat) : Prop :=
  range.base ≤ frame * pmmFrameSize ∧
    (frame + 1) * pmmFrameSize ≤ min (range.base + range.length) pmmMaxPhys

instance (range : Mb2Range) (frame : Nat) : Decidable (Offers range frame) :=
  inferInstanceAs (Decidable (_ ∧ _))

instance (bssEnd mbInfo infoEnd frame : Nat) : Decidable (Reserved bssEnd mbInfo infoEnd frame) :=
  inferInstanceAs (Decidable (_ ∨ _))

/-- Marking the ranges frees exactly the frames that some range offers. -/
theorem markRanges_test {ranges : List Mb2Range}
    (fits : ∀ range ∈ ranges, range.base < 2 ^ 64 ∧ range.length < 2 ^ 64) :
    pmmBitTest (ranges.foldl
      (fun bitmap range => pmmMarkFree bitmap range.base range.length) bitmap) frame = 0 ↔
        (∃ range ∈ ranges, Offers range frame) ∨ pmmBitTest bitmap frame = 0 := by
  induction ranges using List.reverseRecOn with
  | nil => simp
  | append_singleton before range ih =>
      have ⟨baseFits, lengthFits⟩ := fits range (by simp)
      have earlier := ih fun other member => fits other (by simp [member])
      rw [List.foldl_append, List.foldl_cons, List.foldl_nil, pmmMarkFree_test baseFits lengthFits]
      split
      next inside =>
        have offers : Offers range frame := inside
        simp [offers]
      next outside =>
        have declines : ¬ Offers range frame := outside
        simp [earlier, declines, or_and_right, exists_or]

/-- The last steps of `pmm_bitmap_init` set the bits of exactly the reserved frames. -/
theorem pmmBitmapInit_marks {bssEnd : Nat} {pmm : Pmm} {ranges : List Mb2Range}
    (inRange : frame < pmmFrameCount) (image : bssEnd ≤ pmmMaxPhys) (info : pmm.infoEnd < 2 ^ 64) :
    pmmBitTest (pmmBitmapInit bssEnd pmm ranges).bitmap frame = 1 ↔
      Reserved bssEnd pmm.mbInfo pmm.infoEnd frame ∨ pmmBitTest (ranges.foldl
        (fun bitmap range => pmmMarkFree bitmap range.base range.length) fun _ => 0xFF) frame = 1 := by
  unfold pmmBitmapInit
  simp only
  generalize ranges.foldl (fun bitmap range => pmmMarkFree bitmap range.base range.length) _ = usable
  have lowEnd : pmmLowReserved = 0x100000 := rfl
  have count : pmmFrameCount = 0x40000 := rfl
  have limit : pmmMaxPhys = 0x40000000 := rfl
  have size : pmmFrameSize = 4096 := rfl
  rw [Reserved, size]
  have kernelEnd := pmmAlignUp4k_eq (show bssEnd + 4095 < 2 ^ 64 by omega)
  have low := @pmmMarkUsed_one usable frame 0 pmmLowReserved (by decide)
  have kernel : pmmBitTest (if pmmAlignUp4k bssEnd > pmmLowReserved then
      pmmMarkUsed (pmmMarkUsed usable 0 pmmLowReserved) pmmLowReserved
        (pmmAlignUp4k bssEnd - pmmLowReserved)
      else pmmMarkUsed usable 0 pmmLowReserved) frame = 1 ↔
        frame * 4096 < max pmmLowReserved bssEnd ∨ pmmBitTest usable frame = 1 := by
    rw [size] at low
    split
    next beyond =>
      have length := Nat.add_sub_of_le (Nat.le_of_lt beyond)
      rw [pmmMarkUsed_one (by rw [length, kernelEnd]; omega), length, low, size]
      omega
    next within => omega
  split
  next nonempty =>
    have length : pmm.mbInfo + (pmm.infoEnd - pmm.mbInfo) = pmm.infoEnd := by omega
    rw [pmmMarkUsed_one (by rw [length]; exact info), length, kernel, size]
    omega
  next empty => omega

/-- After initialisation no reserved frame is free. -/
theorem pmmBitmapInit_reserved {bssEnd : Nat} {pmm : Pmm} {ranges : List Mb2Range}
    (image : bssEnd ≤ pmmMaxPhys) (info : pmm.infoEnd < 2 ^ 64)
    (reserved : Reserved bssEnd pmm.mbInfo pmm.infoEnd frame) :
    frame ∉ freeSet (pmmBitmapInit bssEnd pmm ranges).bitmap := by
  intro free
  obtain ⟨inRange, clear⟩ := mem_freeSet.mp free
  rw [(pmmBitmapInit_marks inRange image info).mpr (.inl reserved)] at clear
  cases clear

/-- After initialisation the free frames are those that a range offers and that
are not reserved. -/
theorem mem_freeSet_pmmBitmapInit {bssEnd : Nat} {pmm : Pmm} {ranges : List Mb2Range}
    (image : bssEnd ≤ pmmMaxPhys) (info : pmm.infoEnd < 2 ^ 64)
    (fits : ∀ range ∈ ranges, range.base < 2 ^ 64 ∧ range.length < 2 ^ 64) :
    frame ∈ freeSet (pmmBitmapInit bssEnd pmm ranges).bitmap ↔
      (∃ range ∈ ranges, Offers range frame) ∧ ¬ Reserved bssEnd pmm.mbInfo pmm.infoEnd frame := by
  rw [mem_freeSet]
  by_cases inRange : frame < pmmFrameCount
  · have full : pmmBitTest (fun _ => 0xFF) frame = 1 := by
      rw [pmmBitTest_eq_testBit]
      have small : frame % 8 < 8 := Nat.mod_lt _ (by decide)
      rw [show (0xFF : UInt8).toNat = 2 ^ 8 - 1 from rfl, Nat.testBit_two_pow_sub_one]
      simp [small]
    have marks := @pmmBitmapInit_marks frame bssEnd pmm ranges inRange image info
    have offered := @markRanges_test (fun _ => 0xFF) frame ranges fits
    rw [full] at offered
    have bit := pmmBitTest_eq_zero_or_one (pmmBitmapInit bssEnd pmm ranges).bitmap frame
    have bit' := pmmBitTest_eq_zero_or_one (ranges.foldl
      (fun bitmap range => pmmMarkFree bitmap range.base range.length) fun _ => 0xFF) frame
    generalize (∃ range ∈ ranges, Offers range frame) = offer at offered ⊢
    constructor
    · rintro ⟨_, clear⟩
      have notMarked := mt marks.mpr (by omega)
      exact ⟨(offered.mp (by omega)).resolve_right (by decide), fun r => notMarked (.inl r)⟩
    · rintro ⟨isOffered, open'⟩
      have clear := offered.mpr (.inl isOffered)
      have notMarked : ¬ pmmBitTest (pmmBitmapInit bssEnd pmm ranges).bitmap frame = 1 := by
        intro set
        rcases marks.mp set with reserved | kept
        · exact open' reserved
        · omega
      exact ⟨inRange, by omega⟩
  · constructor
    · exact fun free => absurd free.1 inRange
    · rintro ⟨⟨range, _, _, upper⟩, _⟩
      simp only [pmmFrameCount, pmmMaxPhys, pmmFrameSize] at inRange upper
      omega

/-- Frame `0` is never free after initialisation. -/
theorem pmmBitmapInit_zero (bssEnd : Nat) (pmm : Pmm) (ranges : List Mb2Range) :
    0 ∉ freeSet (pmmBitmapInit bssEnd pmm ranges).bitmap := by
  intro free
  have clear := (mem_freeSet.mp free).2
  unfold pmmBitmapInit at clear
  simp only at clear
  generalize ranges.foldl (fun bitmap range => pmmMarkFree bitmap range.base range.length) _ =
    usable at clear
  have low : pmmBitTest (pmmMarkUsed usable 0 pmmLowReserved) 0 = 1 := by
    rw [pmmMarkUsed_test (by decide), if_pos (by decide)]
  split_ifs at clear
  · rw [pmmMarkUsed_keeps (pmmMarkUsed_keeps low)] at clear
    cases clear
  · rw [pmmMarkUsed_keeps low] at clear
    cases clear
  · rw [pmmMarkUsed_keeps low] at clear
    cases clear
  · rw [low] at clear
    cases clear

/-- Initialisation leaves the allocator's state consistent. -/
theorem pmmBitmapInit_valid (bssEnd : Nat) (pmm : Pmm) (ranges : List Mb2Range) :
    (pmmBitmapInit bssEnd pmm ranges).Valid where
  count := countFree_eq _ _
  hint _ _ := Nat.zero_le _
  zero := pmmBitmapInit_zero bssEnd pmm ranges

end Bitmap

/-- The large-page entry of 2 MB region `i`. -/
def largeEntry (i : Nat) : Nat := i * 2 ^ 21 + 0x83

theorem largeEntry_eq (i : Nat) : (i <<< 21) ||| pmmPteKernel = largeEntry i := by
  rw [Nat.shiftLeft_eq]
  exact Bits.or_low (show 2 ^ 21 ∣ i * 2 ^ 21 from Dvd.intro_left i rfl) (by decide)

/-- What the mapping loops do to a directory: fill absent entries. -/
structure Filled (pd : Nat) (mem mem' : Memory) : Prop where
  outside : ∀ {address}, address < pd ∨ pd + 4096 ≤ address → mem' address = mem address
  entries : ∀ {i}, i < 512 → entryAt mem' pd i = entryAt mem pd i ∨
    entryAt mem pd i &&& vmPtePresent = 0 ∧ entryAt mem' pd i = largeEntry i

section Directory

variable {pd : Nat} {mem middle mem' : Memory}

theorem Filled.refl (pd : Nat) (mem : Memory) : Filled pd mem mem where
  outside _ := rfl
  entries _ := .inl rfl

theorem Filled.trans (first : Filled pd mem middle) (second : Filled pd middle mem') :
    Filled pd mem mem' where
  outside beyond := (second.outside beyond).trans (first.outside beyond)
  entries := by
    intro i small
    rcases first.entries small with kept | ⟨absent, filled⟩ <;>
      rcases second.entries small with kept' | ⟨absent', filled'⟩
    · exact .inl (kept'.trans kept)
    · exact .inr ⟨kept ▸ absent', filled'⟩
    · exact .inr ⟨absent, kept'.trans filled⟩
    · exact .inr ⟨absent, filled'⟩

/-- Filling one absent entry. -/
theorem Filled.store {i : Nat} (small : i < 512) (absent : entryAt mem pd i &&& vmPtePresent = 0) :
    Filled pd mem (mem.store (pd + 8 * i) 8 ((i <<< 21) ||| pmmPteKernel)) where
  outside beyond := Memory.store_outside (by omega)
  entries := by
    intro other bound
    by_cases here : other = i
    · subst here
      refine .inr ⟨absent, ?_⟩
      rw [entryAt, Memory.load_store_same, largeEntry_eq, Nat.mod_eq_of_lt]
      simp only [largeEntry]
      omega
    · exact .inl (Memory.load_store_disjoint (by omega))

theorem ensureEntries_filled (mem : Memory) (pd last a : Nat) :
    Filled pd mem (ensureEntries mem pd last a).1 := by
  fun_induction ensureEntries mem pd last a with
  | case1 => exact .refl _ _
  | case2 => exact .refl _ _
  | case3 => exact .refl _ _
  | case4 mem a idx inRange entry present huge more ih => exact ih
  | case5 mem idx inRange entry absent filled =>
      exact .store (by omega) (not_not.mp absent)
  | case6 mem a idx inRange entry absent filled more ih =>
      exact (Filled.store (show idx < 512 by omega) (not_not.mp absent)).trans ih

theorem extendEntries_filled (mem : Memory) (pd : Nat) {count : Nat} (small : count < 512) :
    Filled pd mem (extendEntries mem pd count) := by
  induction count with
  | zero => exact .refl _ _
  | succ count ih =>
      rw [extendEntries]
      split
      next absent => exact (ih (by omega)).trans (.store small absent)
      next present => exact ih (by omega)

/-- A present entry stays present. -/
theorem Filled.present (filled : Filled pd mem mem') {i : Nat} (small : i < 512)
    (present : entryAt mem pd i &&& vmPtePresent ≠ 0) :
    entryAt mem' pd i &&& vmPtePresent ≠ 0 := by
  rcases filled.entries small with kept | ⟨absent, _⟩
  · rwa [kept]
  · exact absurd absent present

/-- The entry that both loops write is present. -/
theorem store_largeEntry_present (mem : Memory) (pd i : Nat) :
    entryAt (mem.store (pd + 8 * i) 8 ((i <<< 21) ||| pmmPteKernel)) pd i &&& vmPtePresent ≠ 0 := by
  rw [entryAt, Memory.load_store_same, largeEntry_eq, Ne, present_eq_zero]
  simp only [largeEntry]
  omega

/-- After a success of the loop of `ensure_2mb_mapped` every region from its
first to its last address is mapped. -/
theorem ensureEntries_present {last a i : Nat} (run : ensureEntries mem pd last a = (mem', 0))
    (lower : a / 2 ^ 21 ≤ i) (upper : i ≤ last / 2 ^ 21) :
    entryAt mem' pd i &&& vmPtePresent ≠ 0 := by
  have next : ∀ a : Nat, (a + pmm2mb) / 2 ^ 21 = a / 2 ^ 21 + 1 := by
    intro a
    simp only [pmm2mb]
    omega
  have region : ∀ a : Nat, a >>> 21 = a / 2 ^ 21 := fun a => Nat.shiftRight_eq_div_pow a 21
  fun_induction ensureEntries mem pd last a with
  | case1 => cases run
  | case2 => cases run
  | case3 mem idx inRange entry present =>
      obtain ⟨rfl, _⟩ := Prod.mk.inj run
      have here : i = idx := by rw [show idx = last / 2 ^ 21 from region last]; omega
      rw [here]
      exact present
  | case4 mem a idx inRange entry present huge more ih =>
      have filled := ensureEntries_filled mem pd last (a + pmm2mb)
      rw [run] at filled
      by_cases here : i = idx
      · rw [here]
        exact filled.present (by omega) present
      · have idxEq : idx = a / 2 ^ 21 := region a
        exact ih run (by rw [next]; omega)
  | case5 mem idx inRange entry absent =>
      obtain ⟨rfl, _⟩ := Prod.mk.inj run
      have here : i = idx := by rw [show idx = last / 2 ^ 21 from region last]; omega
      rw [here]
      exact store_largeEntry_present mem pd idx
  | case6 mem a idx inRange entry absent written more ih =>
      have filled := ensureEntries_filled written pd last (a + pmm2mb)
      rw [run] at filled
      by_cases here : i = idx
      · rw [here]
        exact filled.present (by omega) (store_largeEntry_present mem pd idx)
      · have idxEq : idx = a / 2 ^ 21 := region a
        exact ih run (by rw [next]; omega)

/-- The loop of `pmm_extend_identity` maps the regions from `1` to its count. -/
theorem extendEntries_present (mem : Memory) (pd : Nat) {count i : Nat} (small : count < 512)
    (positive : 1 ≤ i) (upper : i ≤ count) :
    entryAt (extendEntries mem pd count) pd i &&& vmPtePresent ≠ 0 := by
  induction count with
  | zero => omega
  | succ count ih =>
      rw [extendEntries]
      by_cases last : i = count + 1
      · subst last
        split
        next => exact store_largeEntry_present _ pd _
        next present => exact present
      · have before := ih (by omega) (by omega)
        split
        next absent => exact (Filled.store small absent).present (by omega) before
        next => exact before

/-- The loop of `pmm_extend_identity` leaves the entries past its count alone. -/
theorem extendEntries_above (mem : Memory) (pd : Nat) {count i : Nat} (above : count < i) :
    entryAt (extendEntries mem pd count) pd i = entryAt mem pd i := by
  induction count with
  | zero => rfl
  | succ count ih =>
      have before := ih (by omega)
      rw [extendEntries]
      split
      next =>
        rw [← before]
        exact Memory.load_store_disjoint (by omega)
      next => exact before

end Directory

section Initialised

variable {bssEnd mbInfo : Nat} {k k' : Kernel}

/-- The extension of the identity mapping does not touch the allocator. -/
theorem pmmExtendIdentity_pmm {maxEnd : Nat} {status : Int}
    (run : pmmExtendIdentity k maxEnd = (k', status)) : k'.pmm = k.pmm := by
  have kept : (pmmExtendIdentity k maxEnd).1.pmm = k.pmm := by
    unfold pmmExtendIdentity
    simp only [apply_ite Prod.fst, apply_ite Kernel.pmm, vmWriteCr3, ite_self]
  rwa [run] at kept

/-- The steps of a `pmm_init` that returned `0`. -/
theorem pmmInit_done (run : pmmInit bssEnd k mbInfo = .done (k', 0)) :
    ∃ k₁ k₂ ranges infoEnd, ensure2mbMapped k mbInfo 8 = (k₁, 0) ∧
      ensure2mbMapped k₁ mbInfo (k₁.mem.load mbInfo 4) = (k₂, 0) ∧
      mb2Init k₂.mem mbInfo mb2MaxRanges 0 = .done (infoEnd, some ranges) ∧
      0 < k₁.mem.load mbInfo 4 ∧ k₁.mem.load mbInfo 4 ≤ 0x100000 ∧
      pmmExtendIdentity
        { k₂ with
          pmm := pmmBitmapInit bssEnd
            { k₂.pmm with mbInfo, infoEnd, maxEnd := rangesEnd ranges } ranges }
        (rangesEnd ranges) = (k', 0) := by
  unfold pmmInit at run
  split at run
  · cases run
  rcases first : ensure2mbMapped k mbInfo 8 with ⟨k₁, status₁⟩
  rw [first] at run
  simp only at run
  split at run
  · cases run
  next mapped =>
    obtain rfl : status₁ = 0 := not_not.mp mapped
    split at run
    · cases run
    next sized =>
      rcases second : ensure2mbMapped k₁ mbInfo (k₁.mem.load mbInfo 4) with ⟨k₂, status₂⟩
      rw [second] at run
      simp only at run
      split at run
      · cases run
      next mapped' =>
        obtain rfl : status₂ = 0 := not_not.mp mapped'
        obtain ⟨result, parsed, run⟩ := Outcome.bind_eq_done.mp run
        rcases result with ⟨infoEnd, _ | ranges⟩
        · cases run
        refine ⟨k₁, k₂, ranges, infoEnd, rfl, second, parsed, by omega, by omega, ?_⟩
        simp only at run
        rcases extended : pmmExtendIdentity
          { k₂ with
            pmm := pmmBitmapInit bssEnd
              { k₂.pmm with mbInfo, infoEnd, maxEnd := rangesEnd ranges } ranges }
          (rangesEnd ranges) with ⟨k₃, status₃⟩
        rw [extended] at run
        simp only at run
        split at run
        · cases run
        next succeeded =>
          obtain rfl : status₃ = 0 := not_not.mp succeeded
          obtain ⟨rfl, _⟩ := Prod.mk.inj (Outcome.done.inj run)
          rfl

/-- A region that `ensure_2mb_mapped` accepts ends at or below 1 GB. -/
theorem ensure2mbMapped_below {addr len : Nat} (run : ensure2mbMapped k addr len = (k', 0))
    (nonempty : 0 < len) : addr + len ≤ pmmMaxPhys := by
  unfold ensure2mbMapped at run
  rw [if_neg (by omega)] at run
  split at run
  · cases run
  · omega

end Initialised

end GodOs
