import GodOs.Vm.System

/-!
# Page tables refine a finite map

What `vm_map` and `vm_unmap` do, seen through the hardware translation:
`vm_map` defines one undefined page and `vm_unmap` undefines one 4 KB page,
with no other page of the space affected.
-/

namespace GodOs

open Lib Lib.Forest

section Pages

variable {mem : Memory} {cr3 va va' : Nat}

/-- Addresses of a canonical page are canonical. -/
theorem Canonical.of_page (canonical : Canonical va) (same : pageNumber va' = pageNumber va) :
    Canonical va' := by
  simp only [pageNumber, vmPageSize] at same
  unfold Canonical at canonical ⊢
  omega

/-- All addresses of a page are translated through the same page. -/
theorem Paging.translatePage_page {k : Kernel} {spaces : List Nat} {level : Nat → Nat}
    {identity space : Nat} (paging : Paging k spaces level identity) (known : space ∈ spaces)
    (same : pageNumber va' = pageNumber va) :
    translatePage k.mem space va' = translatePage k.mem space va := by
  by_cases canonical : Canonical va
  · have canonical' := canonical.of_page same
    rw [paging.translatePage_eq_lookup known canonical,
      paging.translatePage_eq_lookup known canonical',
      (path_eq_iff_of_canonical canonical' canonical).mpr same]
  · have canonical' : ¬ Canonical va' := fun canonical' => canonical (canonical'.of_page same.symm)
    rw [translatePage, if_pos canonical', translatePage, if_pos canonical]

theorem translate_eq_none : translate mem cr3 va = none ↔ translatePage mem cr3 va = none := by
  rw [translate, Option.map_eq_none_iff]

/-- Equal pages give equal addresses. -/
theorem translate_congr {mem' : Memory} {cr3' : Nat}
    (same : translatePage mem' cr3' va = translatePage mem cr3 va) :
    translate mem' cr3' va = translate mem cr3 va := by
  rw [translate, translate, same]

end Pages

section Effects

variable {k k' : Kernel} {spaces : List Nat} {level : Nat → Nat} {identity space va va' pa flags : Nat}

/-- What a successful `vm_map` did to the lookups. -/
theorem Paging.vmMap_success (paging : Paging k spaces level identity) (known : space ∈ spaces)
    (run : vmMap k space va pa flags = (k', 0)) :
    MapGuards va pa ∧ (tables k.mem level).lookup space (path va) = none ∧
      ∃ level', Paging k' spaces level' identity ∧
        ((tables k'.mem level').lookup space (path va) =
          (decode 1 (u64 ((pa &&& vmAddrMask) ||| flags))).value?.map fun entry => (entry, [])) ∧
        ∀ {other va'}, other ∈ spaces → path va' ≠ path va →
          (tables k'.mem level').lookup other (path va') =
            (tables k.mem level).lookup other (path va') := by
  rcases paging.vmMap_cases known va pa flags with
    ⟨_, refused⟩ | ⟨guards, grownState, level', paging', grown, _,
      ⟨_, refused⟩ | ⟨bottom, walked, absent, done⟩⟩
  · rw [refused] at run
    cases run
  · rw [refused] at run
    cases run
  · rw [done] at run
    obtain ⟨rfl, _⟩ := Prod.mk.inj run
    have rootLevel := paging.rootLevel known
    have isBottom := paging'.bottomLevel known walked.1
    refine ⟨guards, ?_, level', (paging'.leaf isBottom _ _).invlpg va,
      paging'.lookup_writeLeaf_self known isBottom walked.1, ?_⟩
    · rw [← grown.forest.lookups _ (by omega), path_eq, Store.lookup_of_descend walked.1,
        Store.lookup, absent]
    · intro other va' knownOther different
      have otherLevel := paging.rootLevel knownOther
      rw [← grown.forest.lookups _ (show level other ≠ 0 by omega)]
      exact paging'.lookup_writeLeaf_other known knownOther isBottom walked.1 different

/-- A refused `vm_map` keeps the invariant and every lookup. -/
theorem Paging.vmMap_refused (paging : Paging k spaces level identity) (known : space ∈ spaces)
    (refused : (vmMap k space va pa flags).2 ≠ 0) :
    (vmMap k space va pa flags).2 = -1 ∧
      ∃ level', Paging (vmMap k space va pa flags).1 spaces level' identity ∧
        ∀ {other} path, other ∈ spaces →
          (tables (vmMap k space va pa flags).1.mem level').lookup other path =
            (tables k.mem level).lookup other path := by
  rcases paging.vmMap_cases known va pa flags with
    ⟨_, run⟩ | ⟨_, k', level', paging', grown, _, ⟨_, run⟩ | ⟨_, _, _, run⟩⟩
  · rw [run]
    exact ⟨rfl, level, paging, fun _ _ => rfl⟩
  · rw [run]
    refine ⟨rfl, level', paging', fun path knownOther => grown.forest.lookups path ?_⟩
    have := paging.rootLevel knownOther
    omega
  · rw [run] at refused
    exact absurd rfl refused

/-- `vm_map` keeps CR3, and drops its page from the TLB when it succeeds. -/
theorem Paging.vmMap_registers (paging : Paging k spaces level identity) (known : space ∈ spaces)
    (va pa flags : Nat) :
    (vmMap k space va pa flags).1.cr3 = k.cr3 ∧
      ((vmMap k space va pa flags).2 = 0 →
        (vmMap k space va pa flags).1.tlb = k.tlb.invlpg va) ∧
      ((vmMap k space va pa flags).2 ≠ 0 → (vmMap k space va pa flags).1.tlb = k.tlb) := by
  rcases paging.vmMap_cases known va pa flags with
    ⟨_, run⟩ | ⟨_, k', level', paging', grown, _, ⟨_, run⟩ | ⟨_, _, _, run⟩⟩
  · rw [run]
    exact ⟨rfl, fun status => absurd (show (-1 : Int) = 0 from status) (by decide), fun _ => rfl⟩
  · rw [run, grown.rest]
    exact ⟨rfl, fun status => absurd (show (-1 : Int) = 0 from status) (by decide), fun _ => rfl⟩
  · rw [run]
    have rest := grown.rest
    refine ⟨by rw [rest]; rfl, fun _ => by rw [rest]; rfl, fun status => absurd rfl status⟩

/-- Outside the identity window no large page lies on the upper path of an address. -/
theorem Paging.no_large (paging : Paging k spaces level identity) (known : space ∈ spaces)
    (outside : pml4Index va ≠ 0 ∨ pdptIndex va ≠ 0) {init rest : List (Fin 512)} {index : Fin 512}
    {node entry : Nat} (split : upperPath va = init ++ index :: rest)
    (reached : (tables k.mem level).descend space init = some node) :
    tables k.mem level node index ≠ .page entry := by
  intro large
  have rootLevel := paging.rootLevel known
  have nodeLevel := paging.shape.descend_level (by omega) reached
  have lengths : init.length + (index :: rest).length = 3 := by
    rw [← List.length_append, ← split, upperPath_length]
  simp only [List.length_cons] at lengths
  -- a large page lies in the identity directory, whose path is `[0, 0]`
  have isIdentity := paging.huge nodeLevel.1 (by omega) large
  have identityLevel := paging.identityLevel
  rw [isIdentity] at reached nodeLevel
  have twoSteps : init.length = 2 := by omega
  have unique := (paging.shape.descend_unique (by decide) rootLevel rootLevel reached
    (paging.window known) twoSteps).1
  rw [unique, upperPath] at split
  simp only [List.cons_append, List.cons.injEq] at split
  have zero := congrArg Fin.val split.1
  have zero' := congrArg Fin.val split.2.1
  simp only [Fin.val_zero] at zero zero'
  omega

/-- Outside the identity window, a refused mapping of an undefined page has found the
pool empty. -/
theorem Paging.mapRefused_exhausted {k' : Kernel} {level' : Nat → Nat}
    (paging : Paging k spaces level identity) (known : space ∈ spaces)
    (paging' : Paging k' spaces level' identity) (grown : Grown k level k' level')
    (refused : MapRefused k k' level' space va)
    (undefined : (tables k.mem level).lookup space (path va) = none)
    (outside : pml4Index va ≠ 0 ∨ pdptIndex va ≠ 0) :
    (pmmAllocFrame k'.pmm).2 = 0 ∧ k.pmm.freeFrames < k'.pmm.freeFrames + 3 := by
  have rootLevel := paging.rootLevel known
  rw [← grown.forest.lookups _ (by omega), path_eq] at undefined
  rcases refused with ⟨init, index, rest, node, split, reached, blocked, spent⟩ |
    ⟨bottom, walked, occupied⟩
  · rcases blocked with ⟨_, impossible | exhausted⟩ | ⟨entry, large⟩
    · cases impossible
    · rw [upperPath_length] at spent
      exact ⟨exhausted, spent⟩
    · exact absurd large (paging'.no_large known outside split reached)
  · have isBottom := paging'.bottomLevel known walked.1
    rw [Store.lookup_of_descend walked.1, Store.lookup] at undefined
    split at undefined
    next absent => exact absurd absent occupied
    next => cases undefined
    next child slot =>
      have below := paging'.shape.child (by omega) slot
      omega

/-- With three frames in the pool, `vm_map` of an undefined page outside the
identity window succeeds. -/
theorem Paging.vmMap_succeeds (paging : Paging k spaces level identity) (valid : k.pmm.Valid)
    (known : space ∈ spaces) (guards : MapGuards va pa)
    (undefined : (tables k.mem level).lookup space (path va) = none)
    (outside : pml4Index va ≠ 0 ∨ pdptIndex va ≠ 0) (frames : 3 ≤ k.pmm.freeFrames) :
    (vmMap k space va pa flags).2 = 0 := by
  rcases paging.vmMap_cases known va pa flags with
    ⟨refused, _⟩ | ⟨_, k', level', paging', grown, _, ⟨refused, _⟩ | ⟨_, _, _, run⟩⟩
  · exact absurd guards refused
  · obtain ⟨exhausted, spent⟩ :=
      paging.mapRefused_exhausted known paging' grown refused undefined outside
    have empty := (grown.valid valid).alloc_zero_iff.mp exhausted
    omega
  · rw [run]

/-- `vm_unmap` of a 4 KB page removes that page. -/
theorem Paging.vmUnmap_page (paging : Paging k spaces level identity) (known : space ∈ spaces)
    {entry : Nat} (mapped : (tables k.mem level).lookup space (path va) = some (entry, [])) :
    (vmUnmap k space va).2 = entry &&& vmAddrMask ∧
      Paging (vmUnmap k space va).1 spaces level identity ∧
      (tables (vmUnmap k space va).1.mem level).lookup space (path va) = none ∧
      ∀ {other va'}, other ∈ spaces → path va' ≠ path va →
        (tables (vmUnmap k space va).1.mem level).lookup other (path va') =
          (tables k.mem level).lookup other (path va') := by
  rw [path_eq] at mapped
  obtain ⟨bottom, reached, slot⟩ := Store.lookup_snoc_full mapped
  rcases paging.vmUnmap_cases known va with ⟨absent, _⟩ | ⟨other, found, reached', isBottom, slot', run⟩
  · rw [absent bottom reached] at slot
    cases slot
  · obtain rfl : bottom = other := Option.some.inj (reached.symm.trans reached')
    obtain rfl : entry = found := by
      rw [slot] at slot'
      injection slot'
    rw [run]
    exact ⟨rfl, (paging.leaf isBottom _ _).invlpg va,
      paging.lookup_writeLeaf_self known isBottom reached,
      fun knownOther different =>
        paging.lookup_writeLeaf_other known knownOther isBottom reached different⟩

/-- `vm_unmap` of anything else changes nothing. -/
theorem Paging.vmUnmap_other (paging : Paging k spaces level identity) (known : space ∈ spaces)
    (unmapped : ∀ entry, (tables k.mem level).lookup space (path va) ≠ some (entry, [])) :
    vmUnmap k space va = (k, 0) := by
  rcases paging.vmUnmap_cases known va with ⟨_, run⟩ | ⟨bottom, entry, reached, _, slot, _⟩
  · exact run
  · refine absurd ?_ (unmapped entry)
    rw [path_eq, Store.lookup_of_descend reached, Store.lookup, slot]

/-- The entry `vm_map` writes for a frame and flags that are no address bits. -/
theorem mapEntry_page (aligned : pa % 4096 = 0) (below : pa < 2 ^ 30) (fits : flags < 2 ^ 64)
    (present : flags &&& vmPtePresent ≠ 0) (noAddress : flags &&& vmAddrMask = 0) :
    ∃ entry, decode 1 (u64 ((pa &&& vmAddrMask) ||| flags)) = .page entry ∧
      entry &&& vmAddrMask = pa := by
  have entry : u64 ((pa &&& vmAddrMask) ||| flags) = pa ||| flags := by
    rw [addrMask_of_aligned aligned (by omega)]
    exact u64_of_lt (Nat.or_lt_two_pow (by omega) fits)
  refine ⟨pa ||| flags, ?_, ?_⟩
  · rw [entry]
    refine decode_eq_page.mpr ⟨?_, .inl rfl, rfl⟩
    rw [Nat.and_or_distrib_right]
    exact fun zero => present (Nat.or_eq_zero_iff.mp zero).2
  · rw [Nat.and_or_distrib_right, noAddress, Nat.or_zero, addrMask_of_aligned aligned (by omega)]

end Effects

/-- A finite map that gained the page of `va`, mapped to the frame `pa`. -/
structure Defines (mem mem' : Memory) (space va pa : Nat) : Prop where
  vaAligned : va % 4096 = 0
  paAligned : pa % 4096 = 0
  vaAbove : 2 ^ 30 ≤ va
  paBelow : pa < 2 ^ 30
  wasUndefined : translate mem space va = none
  page : ∀ {o}, o < 4096 → translate mem' space (va + o) = some (pa + o)
  others : ∀ {va'}, pageNumber va' ≠ pageNumber va → translate mem' space va' = translate mem space va'

/-- A finite map that lost the page of `va`. -/
structure Undefines (mem mem' : Memory) (space va : Nat) : Prop where
  page : ∀ {va'}, pageNumber va' = pageNumber va → translate mem' space va' = none
  others : ∀ {va'}, pageNumber va' ≠ pageNumber va → translate mem' space va' = translate mem space va'

section Refinement

variable {k k' : Kernel} {spaces : List Nat} {level : Nat → Nat} {identity space va pa flags : Nat}

/-- A 4 KB page, as a lookup. -/
theorem Paging.smallPage_iff (paging : Paging k spaces level identity) (known : space ∈ spaces)
    (canonical : Canonical va) {base : Nat} :
    translatePage k.mem space va = some (base, 2 ^ 12) ↔
      ∃ entry, (tables k.mem level).lookup space (path va) = some (entry, []) ∧
        entry &&& vmAddrMask = base := by
  rw [paging.translatePage_eq_lookup known canonical, Option.map_eq_some_iff]
  constructor
  · rintro ⟨⟨entry, rest⟩, found, isSmall⟩
    match rest with
    | [] => exact ⟨entry, found, (Prod.mk.inj isSmall).1⟩
    | [_] => simp [pageOf] at isSmall
    | _ :: _ :: _ => simp [pageOf] at isSmall
  · rintro ⟨entry, found, rfl⟩
    exact ⟨_, found, rfl⟩

/-- Lookups off the path of a canonical page give the translation off the page. -/
theorem Paging.translate_others (paging : Paging k spaces level identity)
    {level' : Nat → Nat} (paging' : Paging k' spaces level' identity) (known : space ∈ spaces)
    (canonical : Canonical va)
    (others : ∀ {va'}, path va' ≠ path va → (tables k'.mem level').lookup space (path va') =
      (tables k.mem level).lookup space (path va'))
    {va' : Nat} (different : pageNumber va' ≠ pageNumber va) :
    translate k'.mem space va' = translate k.mem space va' := by
  by_cases canonical' : Canonical va'
  · have otherPath : path va' ≠ path va :=
      fun same => different ((path_eq_iff_of_canonical canonical' canonical).mp same)
    exact translate_congr (paging.translatePage_congr paging' known known (others otherPath))
  · rw [translate, translate, translatePage, if_pos canonical', translatePage, if_pos canonical']

/-- A successful `vm_map` defines its page. -/
theorem Paging.vmMap_defines (paging : Paging k spaces level identity) (known : space ∈ spaces)
    (canonical : Canonical va) (fits : flags < 2 ^ 64) (present : flags &&& vmPtePresent ≠ 0)
    (noAddress : flags &&& vmAddrMask = 0) (run : vmMap k space va pa flags = (k', 0)) :
    Defines k.mem k'.mem space va pa ∧ ∃ level', Paging k' spaces level' identity ∧
      translatePage k'.mem space va = some (pa, 2 ^ 12) := by
  obtain ⟨guards, undefined, level', paging', self, others⟩ := paging.vmMap_success known run
  obtain ⟨entry, isPage, address⟩ :=
    mapEntry_page guards.paAligned guards.paBelow fits present noAddress
  have page : translatePage k'.mem space va = some (pa, 2 ^ 12) := by
    refine (paging'.smallPage_iff known canonical).mpr ⟨entry, ?_, address⟩
    rw [self, isPage]
    rfl
  refine ⟨?_, level', paging', page⟩
  refine
    { vaAligned := guards.vaAligned, paAligned := guards.paAligned, vaAbove := guards.vaAbove,
      paBelow := guards.paBelow, wasUndefined := ?_, page := ?_, others := ?_ }
  · rw [translate_eq_none, paging.translatePage_eq_lookup known canonical, undefined]
    rfl
  · intro o small
    have aligned := guards.vaAligned
    have same : pageNumber (va + o) = pageNumber va := by
      simp only [pageNumber, vmPageSize]
      omega
    rw [translate, paging'.translatePage_page known same, page, Option.map_some]
    simp only [Option.some.injEq]
    omega
  · exact paging.translate_others paging' known canonical (others known)

/-- `vm_unmap` undefines a 4 KB page. -/
theorem Paging.vmUnmap_undefines (paging : Paging k spaces level identity) (known : space ∈ spaces)
    (canonical : Canonical va) (mapped : translatePage k.mem space va = some (pa, 2 ^ 12)) :
    (vmUnmap k space va).2 = pa ∧ Undefines k.mem (vmUnmap k space va).1.mem space va := by
  obtain ⟨entry, found, rfl⟩ := (paging.smallPage_iff known canonical).mp mapped
  obtain ⟨result, paging', removed, others⟩ := paging.vmUnmap_page known found
  refine ⟨result, ?_, paging.translate_others paging' known canonical (others known)⟩
  intro va' same
  rw [translate_eq_none, paging'.translatePage_page known same,
    paging'.translatePage_eq_lookup known canonical, removed]
  rfl

/-- `vm_unmap` of anything but a 4 KB page does nothing. -/
theorem Paging.vmUnmap_nothing (paging : Paging k spaces level identity) (known : space ∈ spaces)
    (canonical : Canonical va) (unmapped : ∀ base, translatePage k.mem space va ≠ some (base, 2 ^ 12)) :
    vmUnmap k space va = (k, 0) := by
  refine paging.vmUnmap_other known fun entry found => ?_
  exact unmapped _ ((paging.smallPage_iff known canonical).mpr ⟨entry, found, rfl⟩)

/-- A page that is translated cannot be mapped again, and stays as it is. -/
theorem Paging.vmMap_twice (paging : Paging k spaces level identity) (known : space ∈ spaces)
    (mapped : translate k.mem space va ≠ none) (canonical : Canonical va) (pa flags : Nat) :
    (vmMap k space va pa flags).2 = -1 ∧
      ∀ va', translate (vmMap k space va pa flags).1.mem space va' = translate k.mem space va' := by
  have refused : (vmMap k space va pa flags).2 ≠ 0 := by
    intro success
    have run : vmMap k space va pa flags = ((vmMap k space va pa flags).1, 0) := Prod.ext rfl success
    obtain ⟨_, undefined, _⟩ := paging.vmMap_success known run
    refine mapped ?_
    rw [translate_eq_none, paging.translatePage_eq_lookup known canonical, undefined]
    rfl
  obtain ⟨status, level', paging', lookups⟩ := paging.vmMap_refused known refused
  exact ⟨status, fun va' =>
    translate_congr (paging.translatePage_congr paging' known known (lookups _ known))⟩

/-- A step without a target translates every address as before. -/
theorem Next.translate_quiet {s s' : System} {level' : Nat → Nat}
    (paging : Paging s.kernel s.spaces level identity)
    (next : Next s level identity none s' level') (known : space ∈ s.spaces) (va : Nat) :
    translate s'.kernel.mem space va = translate s.kernel.mem space va :=
  translate_congr (paging.translatePage_congr next.paging known (next.change.known known)
    (next.change.lookup_other paging known fun _ isTarget => nomatch isTarget))

variable {image : Image} {mbInfo : Nat} {start s : System} {events : List Event}

/-- **Page tables refine a finite map.** In every reachable state and for every
space, a successful `vm_map` defines exactly its page, which was undefined, so
unmapping it restores the translation and mapping it again is refused;
`vm_unmap` undefines exactly a 4 KB page and otherwise does nothing. -/
theorem pageTables_refine_map (started : Started image mbInfo start)
    (run : Steps Step start events s) (known : space ∈ s.spaces) (canonical : Canonical va) :
    (∀ {pa flags k'}, flags < 2 ^ 64 → flags &&& vmPtePresent ≠ 0 → flags &&& vmAddrMask = 0 →
      vmMap s.kernel space va pa flags = (k', 0) →
        Defines s.kernel.mem k'.mem space va pa ∧
        ((vmUnmap k' space va).2 = pa ∧
          ∀ va', translate (vmUnmap k' space va).1.mem space va' =
            translate s.kernel.mem space va') ∧
        ∀ pa' flags', (vmMap k' space va pa' flags').2 = -1 ∧
          ∀ va', translate (vmMap k' space va pa' flags').1.mem space va' =
            translate k'.mem space va') ∧
    (∀ {base}, translatePage s.kernel.mem space va = some (base, 2 ^ 12) →
      (vmUnmap s.kernel space va).2 = base ∧
        Undefines s.kernel.mem (vmUnmap s.kernel space va).1.mem space va) ∧
    ((∀ base, translatePage s.kernel.mem space va ≠ some (base, 2 ^ 12)) →
      vmUnmap s.kernel space va = (s.kernel, 0)) := by
  obtain ⟨level, paging⟩ := (started.run run).paging
  refine ⟨?_, fun mapped => paging.vmUnmap_undefines known canonical mapped,
    paging.vmUnmap_nothing known canonical⟩
  intro pa flags k' fits present noAddress mapped
  obtain ⟨defines, level', paging', page⟩ :=
    paging.vmMap_defines known canonical fits present noAddress mapped
  obtain ⟨result, undefines⟩ := paging'.vmUnmap_undefines known canonical page
  refine ⟨defines, ⟨result, fun va' => ?_⟩, fun pa' flags' => ?_⟩
  · by_cases same : pageNumber va' = pageNumber va
    · have undefined := translate_eq_none.mp defines.wasUndefined
      rw [undefines.page same, eq_comm, translate_eq_none, paging.translatePage_page known same]
      exact undefined
    · rw [undefines.others same, defines.others same]
  · refine paging'.vmMap_twice known ?_ canonical pa' flags'
    rw [translate, page]
    simp

end Refinement

section Sample

/-- In the sample `vm_map` succeeds above the identity window. -/
theorem sample_maps {va : Nat} (aligned : va % 4096 = 0) (above : 2 ^ 30 ≤ va)
    (outside : pml4Index va ≠ 0 ∨ pdptIndex va ≠ 0) :
    ∃ k', vmMap sampleSystem.kernel 0x110000 va 0x200000 3 = (k', 0) := by
  have frames := sample_frames
  have mapped := @Paging.vmMap_succeeds sampleSystem.kernel [0x110000] sampleImage.level
    sampleImage.pd 0x110000 va 0x200000 3 sample_booted.state.paging sample_booted.state.valid
    (List.mem_singleton_self _) ⟨aligned, by decide, by decide, above⟩
    (sample_booted.state.lookup_outside outside) outside (by omega)
  exact ⟨_, Prod.ext rfl mapped⟩

/-- After the sample has created a space, `vm_map` succeeds on its kernel space. -/
theorem sample_maps_beside {va : Nat} (aligned : va % 4096 = 0) (above : 2 ^ 30 ≤ va)
    (canonical : Canonical va) (outside : pml4Index va ≠ 0 ∨ pdptIndex va ≠ 0) :
    ∃ s space k', Step sampleSystem .create s ∧ space ≠ 0 ∧ space ≠ 0x110000 ∧
      s.spaces = [space, 0x110000] ∧ vmCreateSpace sampleSystem.kernel = (s.kernel, space) ∧
      translate s.kernel.mem 0x110000 va = none ∧ 99 ≤ s.kernel.pmm.freeFrames ∧
      vmMap s.kernel 0x110000 va 0x200000 3 = (k', 0) := by
  obtain ⟨s, space, step, made, notNull, different, spaces, frames⟩ := sample_created
  have startPaging : Paging sampleSystem.kernel sampleSystem.spaces sampleImage.level
      sampleImage.pd := sample_booted.state.paging
  have known : 0x110000 ∈ s.spaces := by simp [spaces]
  obtain ⟨level, next⟩ := System.step_next startPaging step
  have undefined : translate s.kernel.mem 0x110000 va = none := by
    rw [next.translate_quiet startPaging (List.mem_singleton_self _), translate_eq_none,
      startPaging.translatePage_eq_lookup (List.mem_singleton_self _) canonical,
      Option.map_eq_none_iff]
    exact sample_booted.state.lookup_outside outside
  have vacant := undefined
  rw [translate_eq_none, next.paging.translatePage_eq_lookup known canonical,
    Option.map_eq_none_iff] at vacant
  have mapped := @Paging.vmMap_succeeds s.kernel s.spaces level sampleImage.pd 0x110000 va 0x200000
    3 next.paging (next.valid sample_booted.state.valid) known
    ⟨aligned, by decide, by decide, above⟩ vacant outside (by omega)
  exact ⟨s, space, _, step, notNull, different, spaces, made, undefined, frames,
    Prod.ext rfl mapped⟩

/-- A page is mapped after a space was created, and unmapped in the state after that. -/
theorem pageTables_refine_map_sample : ∃ s k', Step sampleSystem .create s ∧
    vmMap s.kernel 0x110000 0x40000000 0x200000 3 = (k', 0) ∧
      translate k'.mem 0x110000 0x40000000 = some 0x200000 ∧
      (vmMap k' 0x110000 0x40000000 0x201000 3).2 = -1 ∧
      (vmUnmap k' 0x110000 0x40000000).2 = 0x200000 ∧
      Undefines k'.mem (vmUnmap k' 0x110000 0x40000000).1.mem 0x110000 0x40000000 := by
  obtain ⟨s, space, k', step, _, _, spaces, _, _, _, mapped⟩ :=
    @sample_maps_beside 0x40000000 (by decide) (by decide) (by decide) (by decide)
  have known : 0x110000 ∈ s.spaces := by simp [spaces]
  have mapStep : Step s (.map 0x110000 0x40000000 0x200000 3) { s with kernel := k' } :=
    ⟨⟨known, by decide, by decide, by decide⟩, by rw [System.apply, mapped]⟩
  have one := (@pageTables_refine_map 0x110000 0x40000000 sampleImage 0x9000 sampleSystem s [.create]
    sample_started (.single step) known (by decide)).1 (by decide) (by decide) (by decide) mapped
  obtain ⟨level, paging⟩ := (sample_started.sound.step step).paging
  obtain ⟨_, _, _, page⟩ :=
    paging.vmMap_defines known (by decide) (by decide) (by decide) (by decide) mapped
  have two := (@pageTables_refine_map 0x110000 0x40000000 sampleImage 0x9000 sampleSystem
    { s with kernel := k' } [.create, .map 0x110000 0x40000000 0x200000 3] sample_started
    ((Steps.single step).snoc mapStep) known (by decide)).2.1 page
  exact ⟨s, k', step, mapped, one.1.page (show 0 < 4096 by decide), (one.2.2 _ _).1, two.1, two.2⟩

end Sample

end GodOs
