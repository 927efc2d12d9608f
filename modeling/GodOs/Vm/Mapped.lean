import GodOs.Pmm.Allocator
import GodOs.Vm.Boot

/-!
# Every allocatable frame is identity mapped

The free frames come from `pmm_mark_free`, range by range; the mapped regions
come from the end of the highest range. `rangesEnd_offers` is where the two
computations meet.
-/

namespace GodOs

open Lib

section Ends

variable {ranges : List Mb2Range} {range : Mb2Range} {frame : Nat}

/-- The end that `pmm_init` takes for one range. -/
private theorem rangeEnd_eq (fits : range.Fits) :
    (if u64 (range.base + range.length) < range.base ∨
      u64 (range.base + range.length) > pmmMaxPhys then pmmMaxPhys
      else u64 (range.base + range.length)) = min (range.base + range.length) pmmMaxPhys ∨
    pmmMaxPhys ≤ range.base := by
  have value : u64 (range.base + range.length) = (range.base + range.length) % 2 ^ 64 := rfl
  have limit : pmmMaxPhys = 2 ^ 30 := rfl
  obtain ⟨baseFits, lengthFits⟩ := fits
  split_ifs <;> omega

/-- A frame that a range offers ends below the end of the highest range. -/
theorem rangesEnd_offers (fits : ∀ range ∈ ranges, range.Fits) (member : range ∈ ranges)
    (offers : Offers range frame) : (frame + 1) * pmmFrameSize ≤ rangesEnd ranges := by
  induction ranges using List.reverseRecOn with
  | nil => cases member
  | append_singleton before last ih =>
      have grows : rangesEnd (before ++ [last]) ≥ rangesEnd before := by
        rw [rangesEnd, List.foldl_append, List.foldl_cons, List.foldl_nil, ← rangesEnd]
        simp only
        split_ifs <;> omega
      rcases List.mem_append.mp member with earlier | final
      · have below := ih (fun other inside => fits other (by simp [inside])) earlier
        omega
      · obtain rfl := List.mem_singleton.mp final
        obtain ⟨lower, upper⟩ := offers
        rw [pmmFrameSize] at lower upper ⊢
        rw [rangesEnd, List.foldl_append, List.foldl_cons, List.foldl_nil, ← rangesEnd]
        simp only
        rcases rangeEnd_eq (fits range (by simp)) with cut | beyond
        · rw [cut]
          split_ifs <;> omega
        · omega

end Ends

section Mapped

variable {image : Image} {mbInfo : Nat} {start mem : Memory} {k k' : Kernel}

/-- The identity window at boot: an address below 1 GB whose region is present
translates to itself. -/
theorem BootTables.translate_low (tables : BootTables image start)
    (filled : Filled image.pd start mem) {va : Nat} (below : va < 2 ^ 30)
    (present : entryAt mem image.pd (va / 2 ^ 21) &&& vmPtePresent ≠ 0) :
    translate mem image.pml4 va = some va := by
  refine (tables.directory filled).translate_low below present ?_
  rw [tables.large filled (by omega) present]
  exact (largeEntry_own (by omega)).1

/-- What a successful `pmm_init` leaves, when the information structure lies
apart from the kernel image. -/
structure IdentityMapped (image : Image) (k : Kernel) (mbInfo : Nat) (k' : Kernel) : Prop where
  filled : Filled image.pd k.mem k'.mem
  cr3 : k'.cr3 = k.cr3
  free : ∀ {frame va}, frame ∈ freeSet k'.pmm.bitmap → va ∈ frameBytes frame →
    va < 2 ^ 30 ∧ entryAt k'.mem image.pd (va / 2 ^ 21) &&& vmPtePresent ≠ 0
  info : ∀ {va}, mbInfo ≤ va → va < mbInfo + k.mem.load mbInfo 4 →
    va < 2 ^ 30 ∧ entryAt k'.mem image.pd (va / 2 ^ 21) &&& vmPtePresent ≠ 0

/-- The header of a structure apart from the kernel image is not in the directory. -/
private theorem header_kept (filled : Filled image.pd start mem)
    (apart : Disjoint (Set.Ico mbInfo (mbInfo + max 8 (start.load mbInfo 4)))
      (Set.Ico 0x100000 image.bssEnd)) : mem.load mbInfo 4 = start.load mbInfo 4 := by
  have loaded := image.loaded
  have inside := image.inside
  refine Memory.load_congr fun address lower upper => filled.outside ?_
  have away : address ∉ Set.Ico 0x100000 image.bssEnd :=
    Set.disjoint_left.mp apart ⟨lower, by omega⟩
  rw [Set.mem_Ico] at away
  simp only [Image.pd]
  omega

theorem BootTables.initialised (tables : BootTables image k.mem) (cr3 : k.cr3 = image.pml4)
    (run : pmmInit image.bssEnd k mbInfo = .done (k', 0))
    (apart : Disjoint (Set.Ico mbInfo (mbInfo + max 8 (k.mem.load mbInfo 4)))
      (Set.Ico 0x100000 image.bssEnd)) : IdentityMapped image k mbInfo k' := by
  obtain ⟨k₁, k₂, ranges, infoEnd, first, second, parsed, positive, _, extended⟩ := pmmInit_done run
  have below₁ := ensure2mbMapped_below first (by decide)
  have below₂ := ensure2mbMapped_below second positive
  have limit : pmmMaxPhys = 2 ^ 30 := rfl
  obtain ⟨filled₁, rest₁, _⟩ := tables.ensure (.refl _ _) cr3 first (by decide)
  obtain ⟨filled₂, rest₂, mapped⟩ := tables.ensure filled₁ (by rw [rest₁]; exact cr3) second positive
  obtain ⟨infoEndEq, _, short, _⟩ := mb2Init_done parsed
  rw [u64_of_lt (by omega)] at infoEndEq
  let info : Pmm := { k₂.pmm with mbInfo := mbInfo, infoEnd := infoEnd, maxEnd := rangesEnd ranges }
  obtain ⟨mem, filled₃, extended', covered⟩ := @BootTables.extend image k.mem
    { k₂ with pmm := pmmBitmapInit image.bssEnd info ranges } tables (filled₁.trans filled₂)
    (by rw [rest₂, rest₁]; exact cr3) (by rw [rest₂]) (rangesEnd ranges)
  obtain ⟨rfl, _⟩ := Prod.mk.inj (extended'.symm.trans extended)
  have filled := (filled₁.trans filled₂).trans filled₃
  have sized := header_kept filled₁ apart
  have fits := mb2Init_fits parsed
  refine ⟨filled, by rw [rest₂, rest₁], ?_, ?_⟩
  · intro frame va free inFrame
    have infoFits : info.infoEnd < 2 ^ 64 := show infoEnd < 2 ^ 64 by omega
    obtain ⟨⟨range, member, offers⟩, _⟩ :=
      (mem_freeSet_pmmBitmapInit image.below infoFits fits).mp free
    have highest := rangesEnd_offers fits member offers
    obtain ⟨lower, upper⟩ := inFrame
    have inRange : (frame + 1) * pmmFrameSize ≤ pmmMaxPhys := le_trans offers.2 (min_le_right _ _)
    refine ⟨by omega, ?_⟩
    by_cases low : va / 2 ^ 21 = 0
    · rw [low]
      refine filled.present (by decide) ?_
      rw [tables.pd (by decide)]
      decide
    · exact covered (by omega) (by omega)
  · intro va lower upper
    refine ⟨by omega, filled₃.present (by omega) (mapped ?_ ?_)⟩
    · exact Nat.div_le_div_right lower
    · exact Nat.div_le_div_right (by omega)

/-- The allocator and the addresses that its callers hold. -/
structure Held where
  pmm : Pmm
  held : Set Nat

/-- A call by callers who free only what they hold. -/
inductive HeldStep : Held → PmmEvent → Held → Prop where
  | alloc (s : Held) : HeldStep s (.alloc (pmmAllocFrame s.pmm).2)
      ⟨(pmmAllocFrame s.pmm).1, if (pmmAllocFrame s.pmm).2 = 0 then s.held
        else insert (pmmAllocFrame s.pmm).2 s.held⟩
  | free (s : Held) {pa : Nat} (holds : pa ∈ s.held) : HeldStep s (.free pa)
      ⟨pmmFreeFrame s.pmm pa, s.held \ {pa}⟩

/-- Free frames and held frames come from a fixed pool. -/
structure Held.Within (pool : Finset Nat) (s : Held) : Prop where
  free : freeSet s.pmm.bitmap ⊆ pool
  held : ∀ pa ∈ s.held, pa / pmmFrameSize ∈ pool

theorem Held.Within.step {pool : Finset Nat} {s s' : Held} {event : PmmEvent} (within : s.Within pool)
    (step : HeldStep s event s') : s'.Within pool := by
  cases step with
  | alloc =>
      rcases pmmAllocFrame_cases s.pmm with ⟨frame, isFree, taken⟩ | failed
      · rw [taken]
        refine ⟨fun other member => ?_, fun pa holds => ?_⟩
        · simp only [pmmTake, freeSet_set] at member
          exact within.free (Finset.mem_of_mem_erase member)
        · simp only at holds
          split at holds
          · exact within.held pa holds
          · rcases holds with rfl | before
            · rw [Nat.mul_div_cancel _ (by decide)]
              exact within.free isFree
            · exact within.held pa before
      · rw [failed]
        exact within
  | free holds =>
      refine ⟨fun frame member => ?_, fun pa kept => within.held pa kept.1⟩
      rcases mem_freeSet_pmmFreeFrame.mp member with before | ⟨_, _, _, rfl⟩
      · exact within.free before
      · exact within.held _ holds

/-- **Every allocatable frame is identity mapped.** After a successful `pmm_init`
from the boot tables, every byte of a free frame and of the information structure
translates to itself, the present directory entries are the large pages of their
own regions, and nothing but absent entries of the directory changed. In every
later run that frees only what it holds, an allocated frame can be dereferenced. -/
theorem free_frames_identity_mapped (tables : BootTables image k.mem) (cr3 : k.cr3 = image.pml4)
    (run : pmmInit image.bssEnd k mbInfo = .done (k', 0))
    (apart : Disjoint (Set.Ico mbInfo (mbInfo + max 8 (k.mem.load mbInfo 4)))
      (Set.Ico 0x100000 image.bssEnd)) :
    (∀ frame < pmmFrameCount, pmmBitTest k'.pmm.bitmap frame = 0 → ∀ va ∈ frameBytes frame,
      translate k'.mem k'.cr3 va = some va) ∧
    (∀ va ∈ Set.Ico mbInfo (mbInfo + k.mem.load mbInfo 4), translate k'.mem k'.cr3 va = some va) ∧
    (∀ i < 512, entryAt k'.mem image.pd i &&& vmPtePresent ≠ 0 →
      entryAt k'.mem image.pd i = (i <<< 21) ||| 0x83) ∧
    entryAt k'.mem image.pd 0 = entryAt k.mem image.pd 0 ∧
    (∀ address, address < image.pd ∨ image.pd + 4096 ≤ address →
      k'.mem address = k.mem address) ∧
    ∀ events s, Steps HeldStep ⟨k'.pmm, ∅⟩ events s → (pmmAllocFrame s.pmm).2 ≠ 0 →
      ∀ va ∈ Set.Ico (pmmAllocFrame s.pmm).2 ((pmmAllocFrame s.pmm).2 + 4096),
        translate k'.mem k'.cr3 va = some va := by
  have mapped := tables.initialised cr3 run apart
  have low : ∀ {va}, va < 2 ^ 30 ∧ entryAt k'.mem image.pd (va / 2 ^ 21) &&& vmPtePresent ≠ 0 →
      translate k'.mem k'.cr3 va = some va := by
    rintro va ⟨below, present⟩
    rw [mapped.cr3, cr3]
    exact tables.translate_low mapped.filled below present
  have first : entryAt k.mem image.pd 0 = 0x83 := tables.pd (by decide)
  refine ⟨?_, fun va inside => low (mapped.info inside.1 inside.2), ?_, ?_,
    fun address beyond => mapped.filled.outside beyond, ?_⟩
  · intro frame inRange clear va inFrame
    exact low (mapped.free (mem_freeSet.mpr ⟨inRange, clear⟩) inFrame)
  · intro i small present
    rw [tables.large mapped.filled small present, ← largeEntry_eq]
    rfl
  · rcases mapped.filled.entries (show 0 < 512 by decide) with kept | ⟨absent, _⟩
    · exact kept
    · rw [first] at absent
      exact absurd absent (by decide)
  · intro events s later found va inFrame
    have within : s.Within (freeSet k'.pmm.bitmap) :=
      later.invariant (fun {_ _ _} before step => Held.Within.step before step)
        ⟨Finset.Subset.refl _, fun pa holds => absurd holds (Set.notMem_empty pa)⟩
    obtain ⟨frame, free, _, place, _⟩ := pmmAllocFrame_ne_zero (Prod.mk.eta).symm found
    refine low (mapped.free (within.free free) ?_)
    rw [place] at inFrame
    obtain ⟨lower, upper⟩ := inFrame
    refine ⟨lower, ?_⟩
    simp only [pmmFrameSize] at upper ⊢
    omega

theorem free_frames_identity_mapped_sample :
    translate sampleKernel.mem sampleKernel.cr3 0x120000 = some 0x120000 := by
  have sized : (vmInit sampleBoot).mem.load 0x9000 4 = 56 := by decide
  have apart : Disjoint (Set.Ico 0x9000 (0x9000 + max 8 ((vmInit sampleBoot).mem.load 0x9000 4)))
      (Set.Ico 0x100000 sampleImage.bssEnd) := by
    rw [sized, Set.Ico_disjoint_Ico]
    decide
  have free := mem_freeSet.mp (@sample_free 288 (by decide) (by decide))
  exact (free_frames_identity_mapped sampleMemory_tables rfl sample_init apart).1 288 free.1 free.2
    0x120000 ⟨by decide, by decide⟩

end Mapped

end GodOs
