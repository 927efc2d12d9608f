import GodOs.Vm.Isolation

/-!
# What address spaces share

A space made by `vm_create_space` shares PML4 slot 0 and the present slots of
the high half with the kernel space, for good. Slot 0 is 512 GB wide, so the
shared part is wider than the identity window: `slot_zero_shared` states the
law for the addresses between 1 GB and 512 GB and for the private slots above.
-/

namespace GodOs

open Lib Lib.Forest

section Coherence

variable {k : Kernel} {spaces : List Nat} {level : Nat → Nat} {identity space va : Nat}

/-- Every space has the table of slot 0, which leads to the identity directory. -/
theorem Paging.slot_zero (paging : Paging k spaces level identity) (known : space ∈ spaces) :
    ∃ pdpt, tables k.mem level space 0 = .table pdpt ∧ tables k.mem level pdpt 0 = .table identity := by
  have window := paging.window known
  rw [show ([0, 0] : List (Fin 512)) = [0] ++ [0] from rfl] at window
  obtain ⟨pdpt, toPdpt, slot⟩ := Store.descend_snoc.mp window
  obtain ⟨root, toRoot, slot'⟩ := Store.descend_snoc.mp (show
    (tables k.mem level).descend space ([] ++ [0]) = some pdpt from toPdpt)
  cases toRoot
  exact ⟨pdpt, slot', slot⟩

/-- A present entry of a PML4 is a table. -/
theorem Paging.root_slot (paging : Paging k spaces level identity) (known : space ∈ spaces)
    {index : Fin 512} (present : entryAt k.mem space index &&& vmPtePresent ≠ 0) :
    tables k.mem level space index = .table (entryAt k.mem space index &&& vmAddrMask) := by
  have rootLevel := paging.rootLevel known
  have identityLevel := paging.identityLevel
  have other : space ≠ identity := by rintro rfl; omega
  have small := (paging.entry_cases (by omega) other index).resolve_left present
  exact decode_eq_table.mpr ⟨present, by omega, small, rfl⟩

variable {image : Image} {mbInfo : Nat} {start s s' : System} {events later : List Event}

/-- **Kernel-region coherence.** A new space translates nothing in the private
slots, and in every later state it translates slot 0, and every slot of the high
half that the kernel space had at the creation, as the kernel space does. -/
theorem kernel_region_coherent (started : Started image mbInfo start)
    (run : Steps Step start events s) {k' : Kernel} (made : vmCreateSpace s.kernel = (k', space))
    (notNull : space ≠ 0)
    (run' : Steps Step { s with kernel := k', spaces := space :: s.spaces } later s') :
    (∀ va, Private va → translate k'.mem space va = none) ∧
      ∀ va, (pml4Index va = 0 ∨ 256 ≤ pml4Index va ∧
          entryAt s.kernel.mem s.kernel.kernelSpace (pml4Index va) &&& vmPtePresent ≠ 0) →
        translate s'.kernel.mem space va = translate s'.kernel.mem s'.kernel.kernelSpace va := by
  obtain ⟨level, paging⟩ := (started.run run).paging
  rcases paging.vmCreateSpace_cases with ⟨_, failed⟩ | ⟨frame, free, _, _, created⟩
  · rw [failed] at made
    exact absurd (Prod.mk.inj made).2.symm notNull
  rw [created] at made
  obtain ⟨rfl, rfl⟩ := Prod.mk.inj made
  have add := paging.addRoot free
  have paging' := paging.created free
  have kernelLevel := paging.rootLevel paging.kernel
  constructor
  · intro va isPrivate
    rw [translate_eq_none]
    by_cases canonical : Canonical va
    · rw [paging'.translatePage_eq_lookup (List.mem_cons_self ..) canonical, path,
        add.lookup_private (not_shared_iff.mpr isPrivate)]
      rfl
    · rw [translatePage, if_pos canonical]
  · intro va region
    have shared : Shared ⟨pml4Index va, pml4Index_lt va⟩ := by
      simp only [Shared]
      omega
    have kernelSlot : ∃ child,
        tables s.kernel.mem level s.kernel.kernelSpace ⟨pml4Index va, pml4Index_lt va⟩ =
          .table child := by
      rcases region with zero | ⟨_, present⟩
      · obtain ⟨pdpt, slot, _⟩ := paging.slot_zero paging.kernel
        have first : (⟨pml4Index va, pml4Index_lt va⟩ : Fin 512) = 0 := Fin.ext zero
        exact ⟨pdpt, first ▸ slot⟩
      · exact ⟨_, paging.root_slot paging.kernel present⟩
    obtain ⟨child, slot⟩ := kernelSlot
    have createdState : Paging
        ({ s with kernel := newSpace s.kernel frame,
                  spaces := frame * pmmFrameSize :: s.spaces } : System).kernel
        ({ s with kernel := newSpace s.kernel frame,
                  spaces := frame * pmmFrameSize :: s.spaces } : System).spaces
        (newLevel level frame) image.pd := paging'
    obtain ⟨level', laterState⟩ := createdState.later run'
    refine translate_congr ?_
    rw [laterState.kernelSpace]
    exact laterState.translatePage_shared createdState (List.mem_cons_self ..)
      (List.mem_cons_of_mem _ paging.kernel) ((add.copied shared).trans slot)
      ((add.same (show level s.kernel.kernelSpace ≠ 0 by omega)).trans slot)

end Coherence

section SlotZero

variable {k : Kernel} {spaces : List Nat} {level : Nat → Nat} {identity space other va pa flags : Nat}

/-- All spaces translate the addresses of slot 0 alike. -/
theorem Paging.translatePage_slot_zero (paging : Paging k spaces level identity)
    (known : space ∈ spaces) (known' : other ∈ spaces) (zero : pml4Index va = 0) :
    translatePage k.mem other va = translatePage k.mem space va := by
  obtain ⟨pdpt, slot, inner⟩ := paging.slot_zero known
  obtain ⟨pdpt', slot', inner'⟩ := paging.slot_zero known'
  have level₁ := paging.rootLevel known
  have level₂ := paging.rootLevel known'
  have below := paging.shape.child (by omega) slot
  have below' := paging.shape.child (by omega) slot'
  have samePdpt : pdpt = pdpt' := by
    rcases (paging.shape.parent below.1 below'.1 inner inner').2 with same | ⟨top, _⟩
    · exact same
    · omega
  have first : (⟨pml4Index va, pml4Index_lt va⟩ : Fin 512) = 0 := Fin.ext zero
  refine paging.translatePage_congr paging known known' ?_
  rw [path, first]
  refine Store.lookup_congr_slot ?_
  rw [slot, slot', samePdpt]

variable {image : Image} {mbInfo : Nat} {start s : System} {events : List Event}

/-- **Spaces share PML4 slot 0 as a whole.** Between 1 GB and 512 GB any two
spaces translate alike in every reachable state, so a page mapped in one is
mapped in the other and cannot be mapped there again. In the private slots from
512 GB on, operations on one space leave the other alone and do not keep it
from mapping the same page. -/
theorem slot_zero_shared (started : Started image mbInfo start) (run : Steps Step start events s)
    (known : space ∈ s.spaces) (known' : other ∈ s.spaces) (different : other ≠ space) :
    (∀ va, va < 2 ^ 39 → translate s.kernel.mem other va = translate s.kernel.mem space va) ∧
    (∀ {va pa flags k'}, va < 2 ^ 39 → flags < 2 ^ 64 → flags &&& vmPtePresent ≠ 0 →
      flags &&& vmAddrMask = 0 → vmMap s.kernel space va pa flags = (k', 0) →
        translate k'.mem other va = some pa ∧
          ∀ pa' flags', (vmMap k' other va pa' flags').2 = -1) ∧
    ∀ {va}, va % 4096 = 0 → 2 ^ 39 ≤ va → va < 2 ^ 47 →
      (∀ pa flags, translate (vmMap s.kernel space va pa flags).1.mem other va =
        translate s.kernel.mem other va) ∧
      translate (vmUnmap s.kernel space va).1.mem other va = translate s.kernel.mem other va ∧
      ∀ {pa flags k'}, translate s.kernel.mem other va = none →
        vmMap s.kernel space va pa flags = (k', 0) → 3 ≤ k'.pmm.freeFrames →
          ∀ {pa'}, pa' % 4096 = 0 → pa' < 2 ^ 30 → ∀ flags', (vmMap k' other va pa' flags').2 = 0 := by
  have sound := started.run run
  obtain ⟨level, paging⟩ := sound.paging
  have lowSlot : ∀ {va}, va < 2 ^ 39 → pml4Index va = 0 ∧ Canonical va := by
    intro va low
    rw [pml4Index_eq]
    exact ⟨by omega, .inl (by omega)⟩
  refine ⟨?_, ?_, ?_⟩
  · intro va low
    exact translate_congr (paging.translatePage_slot_zero known known' (lowSlot low).1)
  · intro va pa flags k' low fits present noAddress mapped
    obtain ⟨zero, canonical⟩ := lowSlot low
    obtain ⟨defines, level', paging', page⟩ :=
      paging.vmMap_defines known canonical fits present noAddress mapped
    have seen : translate k'.mem other va = some pa := by
      have own := defines.page (show 0 < 4096 by decide)
      rw [Nat.add_zero, Nat.add_zero] at own
      rw [← own]
      exact translate_congr (paging'.translatePage_slot_zero known known' zero)
    refine ⟨seen, fun pa' flags' => (paging'.vmMap_twice known' ?_ canonical pa' flags').1⟩
    rw [seen]
    simp
  · intro va aligned high below
    have isPrivate : Private va := by
      rw [Private, pml4Index_eq]
      omega
    have canonical : Canonical va := .inl below
    have mapKept : ∀ pa flags, translate (vmMap s.kernel space va pa flags).1.mem other va =
        translate s.kernel.mem other va := by
      intro pa flags
      obtain ⟨level', next⟩ := System.map_next paging known va pa flags
      have isolated := next.translate_private paging known' different isPrivate
      simpa only [System.apply] using isolated
    refine ⟨mapKept, ?_, ?_⟩
    · obtain ⟨level', next⟩ := System.unmap_next paging known va
      have isolated := next.translate_private paging known' different isPrivate
      simpa only [System.apply] using isolated
    · intro pa flags k' undefined mapped frames pa' aligned' below' flags'
      obtain ⟨guards, _, level', paging', _, _⟩ := paging.vmMap_success known mapped
      have valid : k'.pmm.Valid := by
        obtain ⟨_, next⟩ := System.map_next paging known va pa flags
        have kept := next.valid sound.valid
        simp only [System.apply, mapped] at kept
        exact kept
      have still := mapKept pa flags
      rw [mapped, undefined, translate_eq_none,
        paging'.translatePage_eq_lookup known' canonical, Option.map_eq_none_iff] at still
      exact paging'.vmMap_succeeds valid known' ⟨aligned, aligned', below', guards.vaAbove⟩ still
        (.inl (by have := isPrivate.1; omega)) frames

end SlotZero

section Sample

/-- After its creation a space sees what is mapped in the kernel space. -/
theorem kernel_region_coherent_sample : ∃ s space k', Step sampleSystem .create s ∧
    translate s.kernel.mem space 0x400000000000 = none ∧
      vmMap s.kernel 0x110000 0x40000000 0x200000 3 = (k', 0) ∧
      translate s.kernel.mem 0x110000 0x40000000 = none ∧
      translate k'.mem 0x110000 0x40000000 = some 0x200000 ∧
      translate k'.mem space 0x40000000 = translate k'.mem k'.kernelSpace 0x40000000 := by
  obtain ⟨s, space, k', step, notNull, _, spaces, made, undefined, _, mapped⟩ :=
    @sample_maps_beside 0x40000000 (by decide) (by decide) (by decide) (by decide)
  have known : 0x110000 ∈ s.spaces := by simp [spaces]
  have created : s = ⟨s.kernel, space :: sampleSystem.spaces, sampleSystem.held⟩ := by
    have after := step.2
    rw [System.apply, made] at after
    simpa only [if_neg notNull] using after
  have mapStep : Step ⟨s.kernel, space :: sampleSystem.spaces, sampleSystem.held⟩
      (.map 0x110000 0x40000000 0x200000 3) ⟨k', space :: sampleSystem.spaces, sampleSystem.held⟩ :=
    ⟨⟨created ▸ known, by decide, by decide, by decide⟩, by rw [System.apply, mapped]⟩
  obtain ⟨private', same⟩ := @kernel_region_coherent space sampleImage 0x9000 sampleSystem sampleSystem
    _ [] _ sample_started .refl s.kernel made notNull (.single mapStep)
  obtain ⟨level, paging⟩ := (sample_started.sound.step step).paging
  have own := (paging.vmMap_defines known (by decide) (by decide) (by decide) (by decide) mapped).1.page
    (show 0 < 4096 by decide)
  have seen := same 0x40000000 (.inl (by decide))
  exact ⟨s, space, k', step, private' 0x400000000000 (by decide), mapped, undefined, own, seen⟩

/-- Mapping a page between 1 GB and 512 GB in one space maps it in the other. -/
theorem slot_zero_not_isolated : ∃ s space, Step sampleSystem .create s ∧ space ∈ s.spaces ∧
    0x110000 ∈ s.spaces ∧ space ≠ 0x110000 ∧
      translate (vmMap s.kernel 0x110000 0x40000000 0x200000 3).1.mem space 0x40000000 ≠
        translate s.kernel.mem space 0x40000000 := by
  obtain ⟨s, space, k', step, _, different, spaces, _, undefined, _, mapped⟩ :=
    @sample_maps_beside 0x40000000 (by decide) (by decide) (by decide) (by decide)
  have known : space ∈ s.spaces := by simp [spaces]
  have known' : 0x110000 ∈ s.spaces := by simp [spaces]
  refine ⟨s, space, step, known, known', different, ?_⟩
  have sound := sample_started.sound.step step
  obtain ⟨level, paging⟩ := sound.paging
  obtain ⟨defines, level', paging', _⟩ :=
    paging.vmMap_defines known' (by decide) (by decide) (by decide) (by decide) mapped
  have own := defines.page (show 0 < 4096 by decide)
  rw [translate_congr (paging.translatePage_slot_zero known' known (by decide)), undefined, mapped,
    translate_congr (paging'.translatePage_slot_zero known' known (by decide)), own]
  decide

theorem slot_zero_shared_sample : ∃ s space k', Step sampleSystem .create s ∧ space ∈ s.spaces ∧
    vmMap s.kernel 0x110000 0x40000000 0x200000 3 = (k', 0) ∧
      translate k'.mem space 0x40000000 = some 0x200000 ∧
      (vmMap k' space 0x40000000 0x201000 3).2 = -1 := by
  obtain ⟨s, space, k', step, _, different, spaces, _, _, _, mapped⟩ :=
    @sample_maps_beside 0x40000000 (by decide) (by decide) (by decide) (by decide)
  have known : space ∈ s.spaces := by simp [spaces]
  have shared := (@slot_zero_shared 0x110000 space sampleImage 0x9000 sampleSystem s [.create]
    sample_started (.single step) (by simp [spaces]) known different).2.1 (by decide) (by decide)
    (by decide) (by decide) mapped
  exact ⟨s, space, k', step, known, mapped, shared.1, shared.2 _ _⟩

end Sample

end GodOs
