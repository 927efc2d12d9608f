import GodOs.Vm.Refinement

/-!
# Isolation and sharing of address spaces

PML4 slots 1 to 255 are private: what one space maps there, no other space
sees, for as long as the run lasts. Slot 0 and the slots of the high half that
a space copied at its creation are shared for good: the space and the kernel
space translate them alike in every later state.
-/

namespace GodOs

open Lib Lib.Forest

/-- The addresses of PML4 slots 1 to 255. -/
def Private (va : Nat) : Prop := 1 ≤ pml4Index va ∧ pml4Index va ≤ 255

instance (va : Nat) : Decidable (Private va) := inferInstanceAs (Decidable (_ ∧ _))

theorem not_shared_iff {va : Nat} : ¬ Shared ⟨pml4Index va, pml4Index_lt va⟩ ↔ Private va := by
  simp only [Shared, Private]
  omega

/-- Equal paths start at the same PML4 slot. -/
theorem pml4Index_of_path {va va' : Nat} (same : path va = path va') :
    pml4Index va = pml4Index va' := by
  simp only [path, List.cons.injEq, Fin.mk.injEq] at same
  exact same.1

section Steps

variable {s s' : System} {level level' : Nat → Nat} {identity : Nat} {target : Option Target}
  {other va : Nat}

/-- A page of a private slot stays translated unless its own space clears it. -/
theorem Change.lookup_kept (paging : Paging s.kernel s.spaces level identity)
    (change : Change s level identity target s' level') (known : other ∈ s.spaces)
    (isPrivate : Private va) {hit : Nat × List (Fin 512)}
    (found : (tables s.kernel.mem level).lookup other (path va) = some hit)
    (kept : ∀ aim, target = some aim → aim.clear = true → aim.space = other →
      path aim.va ≠ path va) :
    (tables s'.kernel.mem level').lookup other (path va) = some hit := by
  have rootLevel := paging.rootLevel known
  cases change with
  | grow _ forest => rwa [forest.lookups _ (by omega)]
  | create _ add => rwa [add.lookup paging.shape _ (by omega)]
  | @leaf aim bottom value k isTarget known' _ forest paging' bottomLevel reached vacant _ written =>
      rw [← forest.lookups _ (show level other ≠ 0 by omega)] at found
      rw [written]
      by_cases samePath : path va = path aim.va
      · have notShared : ¬ Shared ⟨pml4Index aim.va, pml4Index_lt aim.va⟩ := by
          rw [not_shared_iff, Private, ← pml4Index_of_path samePath]
          exact isPrivate
        by_cases sameSpace : other = aim.space
        · -- the space itself fills only an absent slot, and this one is taken
          cases clears : aim.clear with
          | true => exact absurd samePath.symm (kept aim isTarget clears sameSpace.symm)
          | false =>
              rw [samePath, sameSpace, path_eq, Store.lookup_of_descend reached, Store.lookup,
                vacant clears] at found
              cases found
        · rwa [paging'.lookup_writeLeaf_private known' known bottomLevel reached sameSpace notShared]
      · rwa [paging'.lookup_writeLeaf_other known' known bottomLevel reached samePath]

/-- What a run keeps: tables and their links, the spaces, and which one is the kernel's. -/
structure Later (s : System) (level : Nat → Nat) (identity : Nat) (s' : System)
    (level' : Nat → Nat) : Prop where
  paging : Paging s'.kernel s'.spaces level' identity
  keeps : Keeps (tables s.kernel.mem level) level (tables s'.kernel.mem level') level'
  known : ∀ {space}, space ∈ s.spaces → space ∈ s'.spaces
  kernelSpace : s'.kernel.kernelSpace = s.kernel.kernelSpace

theorem Paging.later (paging : Paging s.kernel s.spaces level identity) {events : List Event}
    (run : Steps Step s events s') : ∃ level', Later s level identity s' level' := by
  induction run with
  | refl => exact ⟨level, paging, .refl _ _, id, rfl⟩
  | snoc _ last ih =>
      obtain ⟨middle, later⟩ := ih
      obtain ⟨level', next⟩ := System.step_next later.paging last
      exact ⟨level', next.paging, later.keeps.trans next.change.keeps,
        fun known => next.change.known (later.known known),
        next.kernelSpace.trans later.kernelSpace⟩

/-- A table slot that two spaces have in common makes them translate alike for good. -/
theorem Later.translatePage_shared {space child : Nat}
    (paging : Paging s.kernel s.spaces level identity) (later : Later s level identity s' level')
    (known : space ∈ s.spaces) (known' : other ∈ s.spaces)
    (slot : tables s.kernel.mem level space ⟨pml4Index va, pml4Index_lt va⟩ = .table child)
    (slot' : tables s.kernel.mem level other ⟨pml4Index va, pml4Index_lt va⟩ = .table child) :
    translatePage s'.kernel.mem space va = translatePage s'.kernel.mem other va := by
  have level₁ := paging.rootLevel known
  have level₂ := paging.rootLevel known'
  refine later.paging.translatePage_congr later.paging (later.known known') (later.known known) ?_
  refine Store.lookup_congr_slot ?_
  rw [later.keeps.links (by omega) slot, later.keeps.links (by omega) slot']

end Steps

section Private

variable {image : Image} {mbInfo : Nat} {start s : System} {events : List Event} {space other : Nat}

/-- An operation aimed at one space leaves the private slots of every other space alone. -/
theorem Next.translate_private {s' : System} {level level' : Nat → Nat} {identity va va' : Nat}
    {clear : Bool} (paging : Paging s.kernel s.spaces level identity)
    (next : Next s level identity (some ⟨space, va, clear⟩) s' level') (known : other ∈ s.spaces)
    (different : other ≠ space) (isPrivate : Private va') :
    translate s'.kernel.mem other va' = translate s.kernel.mem other va' := by
  refine translate_congr (paging.translatePage_congr next.paging known
    (next.change.known known) ?_)
  by_cases samePath : path va' = path va
  · refine next.change.lookup_private paging known ?_
    rintro aim isTarget
    cases isTarget
    refine ⟨different, ?_⟩
    rw [not_shared_iff, Private, ← pml4Index_of_path samePath]
    exact isPrivate
  · refine next.change.lookup_other paging known ?_
    rintro aim isTarget
    cases isTarget
    exact samePath

/-- A private 4 KB page stays mapped through a run without its own unmapping. -/
theorem Paging.private_kept {s' : System} {level : Nat → Nat} {identity va base : Nat}
    (paging : Paging s.kernel s.spaces level identity) (known : space ∈ s.spaces)
    (canonical : Canonical va) (isPrivate : Private va)
    (mapped : translatePage s.kernel.mem space va = some (base, 2 ^ 12))
    (run : Steps Step s events s')
    (kept : ∀ va', Event.unmap space va' ∈ events → path va' ≠ path va) :
    translatePage s'.kernel.mem space va = some (base, 2 ^ 12) := by
  obtain ⟨entry, found, address⟩ := (paging.smallPage_iff known canonical).mp mapped
  suffices hit : ∃ level', Paging s'.kernel s'.spaces level' identity ∧ space ∈ s'.spaces ∧
      (tables s'.kernel.mem level').lookup space (path va) = some (entry, []) by
    obtain ⟨level', paging', known', found'⟩ := hit
    exact (paging'.smallPage_iff known' canonical).mpr ⟨entry, found', address⟩
  induction run with
  | refl => exact ⟨level, paging, known, found⟩
  | @snoc _ _ event _ _ last ih =>
      obtain ⟨middle, paging', known', found'⟩ :=
        ih fun va' member => kept va' (List.mem_append_left _ member)
      obtain ⟨level', reached⟩ := System.step_next paging' last
      refine ⟨level', reached.paging, reached.change.known known', ?_⟩
      refine reached.change.lookup_kept paging' known' isPrivate found' ?_
      intro aim isTarget clears sameSpace
      cases event with
      | unmap target va' =>
          cases isTarget
          cases sameSpace
          exact kept va' (List.mem_append_right _ (List.mem_singleton_self _))
      | fault cr2 errorCode =>
          simp only [Event.target?] at isTarget
          split at isTarget <;> cases isTarget
          cases clears
      | map => cases isTarget; cases clears
      | _ => cases isTarget

/-- **Private-region isolation.** In every reachable state, `vm_map` and
`vm_unmap` on one space, successful or not, leave every address of PML4 slots 1
to 255 of another space as it was; and a private page that a space has mapped
keeps its frame until that space unmaps it. -/
theorem private_region_isolated (started : Started image mbInfo start)
    (run : Steps Step start events s) (known : space ∈ s.spaces) (known' : other ∈ s.spaces)
    (different : other ≠ space) :
    (∀ va pa flags va', Private va' →
      translate (vmMap s.kernel space va pa flags).1.mem other va' =
        translate s.kernel.mem other va') ∧
    (∀ va va', Private va' →
      translate (vmUnmap s.kernel space va).1.mem other va' = translate s.kernel.mem other va') ∧
    ∀ {va frame flags k'}, Canonical va → Private va → flags < 2 ^ 64 →
      flags &&& vmPtePresent ≠ 0 → flags &&& vmAddrMask = 0 →
      vmMap s.kernel space va frame flags = (k', 0) →
        ∀ {later s'}, Steps Step { s with kernel := k' } later s' →
          (∀ va', Event.unmap space va' ∈ later → path va' ≠ path va) →
          ∀ o < 4096, translate s'.kernel.mem space (va + o) = some (frame + o) := by
  obtain ⟨level, paging⟩ := (started.run run).paging
  refine ⟨?_, ?_, ?_⟩
  · intro va pa flags va' isPrivate
    obtain ⟨level', next⟩ := System.map_next paging known va pa flags
    have isolated := next.translate_private paging known' different isPrivate
    simpa only [System.apply] using isolated
  · intro va va' isPrivate
    obtain ⟨level', next⟩ := System.unmap_next paging known va
    have isolated := next.translate_private paging known' different isPrivate
    simpa only [System.apply] using isolated
  · intro va frame flags k' canonical isPrivate fits present noAddress mapped later s' run' kept
      o small
    obtain ⟨defines, level', paging', page⟩ :=
      paging.vmMap_defines known canonical fits present noAddress mapped
    have mappedState : Paging ({ s with kernel := k' } : System).kernel
        ({ s with kernel := k' } : System).spaces level' image.pd := paging'
    have stays := mappedState.private_kept known canonical isPrivate page run' kept
    obtain ⟨level'', laterState⟩ := mappedState.later run'
    have same : pageNumber (va + o) = pageNumber va := by
      have aligned := defines.vaAligned
      simp only [pageNumber, vmPageSize]
      omega
    rw [translate, laterState.paging.translatePage_page (laterState.known known) same, stays,
      Option.map_some]
    have aligned := defines.vaAligned
    simp only [Option.some.injEq]
    omega

end Private

section Sample

/-- Two spaces map the same private page, and one of them unmaps it. -/
theorem private_region_isolated_sample : ∃ s space k' s', Step sampleSystem .create s ∧
    space ∈ s.spaces ∧ vmMap s.kernel 0x110000 0x400000000000 0x200000 3 = (k', 0) ∧
      translate k'.mem space 0x400000000000 = translate s.kernel.mem space 0x400000000000 ∧
      Steps Step { s with kernel := k' }
        [.map space 0x400000000000 0x201000 3, .unmap space 0x400000000000] s' ∧
      translate s'.kernel.mem 0x110000 0x400000000000 = some 0x200000 := by
  obtain ⟨s, space, k', step, _, different, spaces, _, _, _, mapped⟩ :=
    @sample_maps_beside 0x400000000000 (by decide) (by decide) (by decide) (by decide)
  have known : space ∈ s.spaces := by simp [spaces]
  have isolated := @private_region_isolated sampleImage 0x9000 sampleSystem s [.create] 0x110000
    space sample_started (.single step) (by simp [spaces]) known different
  have other := isolated.1 0x400000000000 0x200000 3 0x400000000000 (by decide)
  rw [mapped] at other
  have mapStep : Step { s with kernel := k' } (.map space 0x400000000000 0x201000 3) _ :=
    ⟨⟨known, by decide, by decide, by decide⟩, rfl⟩
  have later := (Steps.single mapStep).snoc (show Step _ (.unmap space 0x400000000000) _ from
    ⟨⟨known, by decide⟩, rfl⟩)
  have own := isolated.2.2 (by decide) (by decide) (by decide) (by decide) (by decide) mapped later
    (by simp [different.symm]) 0 (by decide)
  exact ⟨s, space, k', _, step, known, mapped, other, later, own⟩

end Sample

end GodOs
