import GodOs.Vm.Sharing

/-!
# TLB coherence

Every cached translation agrees with the tables of the current space: `vm_map`,
`vm_unmap` and the page-fault handler drop the one page they change, a CR3 write
drops everything, and one page is enough because a shared table sits at the same
addresses in every space.
-/

namespace GodOs

open Lib Lib.Forest

/-- Every TLB entry is a translation of the current space. -/
def TlbCoherent (k : Kernel) : Prop :=
  ∀ va page, Canonical va → k.tlb (pageNumber va) = some page →
    translate k.mem k.cr3 va = some (page + va % vmPageSize)

/-- Events that name canonical addresses. -/
def CanonicalEvent : Event → Prop
  | .map _ va _ _ => Canonical va
  | .unmap _ va => Canonical va
  | _ => True

/-- Events that may map the page of `va` again where `space` sees it. -/
def Refills (space va : Nat) : Event → Prop
  | .map other va' _ _ => pageNumber va' = pageNumber va ∧ (other = space ∨ ¬ Private va)
  | .fault cr2 _ => pageNumber cr2 = pageNumber va
  | _ => False

section Access

variable {k : Kernel} {va : Nat}

/-- With a coherent TLB every access is translated by the tables. -/
theorem TlbCoherent.access (coherent : TlbCoherent k) (canonical : Canonical va) :
    k.access va = translate k.mem k.cr3 va := by
  unfold Kernel.access
  split
  next page cached => exact (coherent va page canonical cached).symm
  next => rfl

/-- The page sizes of the hardware. -/
theorem translatePage_size {mem : Memory} {cr3 base size : Nat}
    (mapped : translatePage mem cr3 va = some (base, size)) :
    size = 2 ^ 12 ∨ size = 2 ^ 21 ∨ size = 2 ^ 30 := by
  unfold translatePage at mapped
  simp only at mapped
  split_ifs at mapped <;> simp_all

end Access

section Coherent

variable {s s' : System} {level level' : Nat → Nat} {identity : Nat} {target : Option Target}

/-- Coherence survives when the cached pages kept their lookups. -/
theorem TlbCoherent.of_lookups {k k' : Kernel} {spaces spaces' : List Nat}
    (coherent : TlbCoherent k) (paging : Paging k spaces level identity)
    (paging' : Paging k' spaces' level' identity) (sameCr3 : k'.cr3 = k.cr3)
    (kept : ∀ {va page}, Canonical va → k'.tlb (pageNumber va) = some page →
      k.tlb (pageNumber va) = some page ∧
        (tables k'.mem level').lookup k.cr3 (path va) = (tables k.mem level).lookup k.cr3 (path va)) :
    TlbCoherent k' := by
  intro va page canonical cached
  obtain ⟨cached', lookups⟩ := kept canonical cached
  rw [← coherent va page canonical cached', sameCr3]
  exact translate_congr
    (paging.translatePage_congr paging' paging.current (sameCr3 ▸ paging'.current) lookups)

/-- Coherence survives a step without a target that keeps CR3 and the TLB. -/
theorem Next.coherent (next : Next s level identity none s' level')
    (paging : Paging s.kernel s.spaces level identity) (coherent : TlbCoherent s.kernel)
    (sameCr3 : s'.kernel.cr3 = s.kernel.cr3) (sameTlb : s'.kernel.tlb = s.kernel.tlb) :
    TlbCoherent s'.kernel :=
  coherent.of_lookups paging next.paging sameCr3 fun _ cached =>
    ⟨sameTlb ▸ cached, next.change.lookup_other paging paging.current fun _ isTarget => nomatch isTarget⟩

/-- Dropping the page that a leaf write changes keeps the TLB coherent. -/
theorem TlbCoherent.invlpg {k k' : Kernel} {spaces : List Nat} {va : Nat}
    (coherent : TlbCoherent k) (paging : Paging k spaces level identity)
    (paging' : Paging k' spaces level' identity) (canonical : Canonical va)
    (sameCr3 : k'.cr3 = k.cr3) (dropped : k'.tlb = k.tlb.invlpg va)
    (others : ∀ {other va'}, other ∈ spaces → path va' ≠ path va →
      (tables k'.mem level').lookup other (path va') = (tables k.mem level).lookup other (path va')) :
    TlbCoherent k' := by
  refine coherent.of_lookups paging paging' sameCr3 ?_
  intro va' page canonical' cached
  rw [dropped, Tlb.invlpg] at cached
  by_cases samePage : pageNumber va' = pageNumber va
  · rw [samePage, Function.update_self] at cached
    cases cached
  · rw [Function.update_of_ne samePage] at cached
    refine ⟨cached, others paging.current fun same => samePage ?_⟩
    exact (path_eq_iff_of_canonical canonical' canonical).mp same

/-- A fill caches a translation of the current space. -/
theorem TlbCoherent.fill {k : Kernel} {spaces : List Nat} {va : Nat} (coherent : TlbCoherent k)
    (paging : Paging k spaces level identity) : TlbCoherent (k.fill va) := by
  unfold Kernel.fill
  split
  next pa mapped =>
    intro va' page canonical' cached
    simp only at cached ⊢
    by_cases samePage : pageNumber va' = pageNumber va
    · rw [samePage, Function.update_self, Option.some.injEq] at cached
      subst cached
      obtain ⟨⟨base, size⟩, found, rfl⟩ := Option.map_eq_some_iff.mp mapped
      have sizes := translatePage_size found
      rw [translate, paging.translatePage_page paging.current samePage, found, Option.map_some,
        Option.some.injEq]
      simp only [pageNumber, vmPageSize] at samePage ⊢
      rcases sizes with rfl | rfl | rfl <;> omega
    · rw [Function.update_of_ne samePage] at cached
      exact coherent va' page canonical' cached
  next => exact coherent

theorem TlbCoherent.map {k : Kernel} {spaces : List Nat} {space va pa flags : Nat}
    (coherent : TlbCoherent k) (paging : Paging k spaces level identity) (known : space ∈ spaces)
    (canonical : Canonical va) : TlbCoherent (vmMap k space va pa flags).1 := by
  by_cases success : (vmMap k space va pa flags).2 = 0
  · have run : vmMap k space va pa flags = ((vmMap k space va pa flags).1, 0) := Prod.ext rfl success
    obtain ⟨_, _, level', paging', _, others⟩ := paging.vmMap_success known run
    obtain ⟨sameCr3, dropped, _⟩ := paging.vmMap_registers known va pa flags
    exact coherent.invlpg paging paging' canonical sameCr3 (dropped success) others
  · obtain ⟨_, level', paging', lookups⟩ := paging.vmMap_refused known success
    obtain ⟨sameCr3, _, sameTlb⟩ := paging.vmMap_registers known va pa flags
    exact coherent.of_lookups paging paging' sameCr3 fun _ cached =>
      ⟨sameTlb success ▸ cached, lookups _ paging.current⟩

theorem TlbCoherent.unmap {k : Kernel} {spaces : List Nat} {space va : Nat}
    (coherent : TlbCoherent k) (paging : Paging k spaces level identity) (known : space ∈ spaces)
    (canonical : Canonical va) : TlbCoherent (vmUnmap k space va).1 := by
  rcases paging.vmUnmap_cases known va with ⟨_, run⟩ | ⟨bottom, entry, reached, isBottom, _, run⟩
  · rw [run]
    exact coherent
  · rw [run]
    exact coherent.invlpg paging ((paging.leaf isBottom _ _).invlpg va) canonical rfl rfl
      fun knownOther different =>
        paging.lookup_writeLeaf_other known knownOther isBottom reached different

/-- The page of a fault in the heap window is canonical, and the page of its address. -/
theorem faultPage_canonical {cr2 : Nat} (lower : vmHeapBase ≤ cr2)
    (upper : cr2 < vmHeapBase + vmHeapSize) :
    Canonical (faultPage cr2) ∧ pageNumber (faultPage cr2) = pageNumber cr2 := by
  simp only [vmHeapBase, vmHeapSize] at lower upper
  rw [faultPage_eq (by omega)]
  simp only [Canonical, pageNumber, vmPageSize]
  omega

theorem TlbCoherent.fault {k : Kernel} {spaces : List Nat} {cr2 errorCode : Nat}
    (coherent : TlbCoherent k) (paging : Paging k spaces level identity) :
    TlbCoherent (vmHandlePageFault k cr2 errorCode).1 := by
  rcases paging.vmHandlePageFault_cases cr2 errorCode with
    ⟨_, run⟩ | ⟨_, _, run⟩ | ⟨filter, frame, free, _, k', level', paging', grown, _, outcome⟩
  · rwa [run]
  · rwa [run]
  have atFault := paging.atFault free
  have started : ∀ {other} path, other ∈ spaces →
      (tables k'.mem level').lookup other path = (tables k.mem level).lookup other path := by
    intro other path known
    have rootLevel := paging.rootLevel known
    rw [grown.forest.lookups _ (by omega)]
    exact paging.shape.lookup_congr
      (fun isTable => paging.tables_congr (fun _ => paging.faultStart_bytes free) isTable) _ (by omega)
  rcases outcome with ⟨_, run⟩ | ⟨bottom, walked, _, run⟩
  · have dataFrame := grown.dataFrame_unused (paging.not_free free)
      (by simp [faultStart, pmmTake, freeSet_set])
    rw [run]
    refine coherent.of_lookups paging
      (show Paging _ spaces level' identity from { paging'.freeFrame dataFrame with })
      (by rw [grown.rest]; rfl) fun _ cached => ?_
    exact ⟨by rw [grown.rest] at cached; exact cached, started _ paging.current⟩
  · have isBottom := paging'.bottomLevel paging.current walked.1
    rw [run]
    refine coherent.invlpg paging
      (show Paging _ spaces level' identity from
        { paging'.leaf isBottom (leafIndex (faultPage cr2)) (frame * pmmFrameSize + 3) with })
      (faultPage_canonical filter.2.2.2.2.1 filter.2.2.2.2.2).1 (by rw [grown.rest]; rfl)
      (by rw [grown.rest]; rfl) ?_
    intro other va' known different
    rw [← started _ known]
    exact paging'.lookup_writeLeaf_other paging.current known isBottom walked.1 different

end Coherent

section Run

variable {s s' : System} {identity : Nat}

/-- A sound state with a coherent TLB. -/
structure Coherent (identity : Nat) (s : System) : Prop where
  sound : Sound identity s
  tlb : TlbCoherent s.kernel

/-- Every step keeps the TLB coherent. -/
theorem Coherent.step (coherent : Coherent identity s) {event : Event} (step : Step s event s')
    (canonical : CanonicalEvent event) : Coherent identity s' := by
  refine ⟨coherent.sound.step step, ?_⟩
  obtain ⟨level, paging⟩ := coherent.sound.paging
  obtain ⟨level', next⟩ := System.step_next paging step
  obtain ⟨enabled, rfl⟩ := step
  cases event with
  | alloc => exact next.coherent paging coherent.tlb rfl rfl
  | free pa => exact next.coherent paging coherent.tlb rfl rfl
  | create =>
      refine next.coherent paging coherent.tlb ?_ ?_ <;>
      · simp only [System.apply]
        rcases paging.vmCreateSpace_cases with ⟨_, run⟩ | ⟨_, _, _, _, run⟩
        · rw [run]
        · rw [run]
          rfl
  | map space va pa flags => exact coherent.tlb.map paging enabled.1 canonical
  | unmap space va => exact coherent.tlb.unmap paging enabled.1 canonical
  | switch space =>
      have rootLevel := paging.rootLevel enabled
      have notNull : space ≠ 0 := by
        have := paging.aligned (show level space ≠ 0 by omega)
        omega
      have switched : vmSwitch s.kernel space = vmWriteCr3 s.kernel space := if_neg notNull
      intro va page _ cached
      simp only [System.apply, switched, vmWriteCr3, Tlb.empty] at cached
      cases cached
  | fault cr2 errorCode => exact coherent.tlb.fault paging
  | fill va => exact coherent.tlb.fill paging
  | store va value =>
      refine next.coherent paging coherent.tlb ?_ ?_ <;>
      · simp only [System.apply, Kernel.storeByte]
        split <;> rfl

/-- Every reachable state has a coherent TLB, if addresses are canonical. -/
theorem Coherent.run (coherent : Coherent identity s) {events : List Event}
    (run : Steps Step s events s') (canonical : ∀ event ∈ events, CanonicalEvent event) :
    Coherent identity s' :=
  run.invariant_of_forall (Coherent identity) CanonicalEvent
    (fun coherent canonical step => coherent.step step canonical) canonical coherent

theorem Started.coherent {image : Image} {mbInfo : Nat} (started : Started image mbInfo s) :
    Coherent image.pd s where
  sound := started.sound
  tlb := by
    intro va page _ cached
    rw [started.1.state.tlb] at cached
    cases cached

end Run

section Removed

variable {s s' : System} {level level' : Nat → Nat} {identity : Nat} {target : Option Target}
  {space va bottom : Nat}

/-- The address that `vm_walk` gives, without making tables. -/
theorem Paging.vmWalk_false {k : Kernel} {spaces : List Nat}
    (paging : Paging k spaces level identity) (known : space ∈ spaces) :
    (vmWalk k space va false).2 =
      match (tables k.mem level).descend space (upperPath va) with
      | some bottom => bottom + 8 * leafIndex va
      | none => 0 := by
  have rootLevel := paging.rootLevel known
  have notNull : space ≠ 0 := by
    have := paging.aligned (show level space ≠ 0 by omega)
    omega
  rw [vmWalk_eq, if_neg notNull,
    paging.walkTables_false (upperPath va) (by rw [rootLevel, upperPath_length]; decide)]
  cases (tables k.mem level).descend space (upperPath va) <;> rfl

/-- The leaf slot of a page, in a bottom-level table, with nothing mapped. -/
structure LeafAbsent (s : System) (level : Nat → Nat) (space va bottom : Nat) : Prop where
  known : space ∈ s.spaces
  reached : (tables s.kernel.mem level).descend space (upperPath va) = some bottom
  absent : tables s.kernel.mem level bottom (leafIndex va) = .absent

/-- A leaf slot stays absent until an event fills it. -/
theorem LeafAbsent.kept (paging : Paging s.kernel s.spaces level identity)
    (leaf : LeafAbsent s level space va bottom) (next : Next s level identity target s' level')
    (spared : ∀ aim, target = some aim → aim.clear = false → path aim.va = path va →
      aim.space ≠ space ∧ Private va) :
    LeafAbsent s' level' space va bottom := by
  have rootLevel := paging.rootLevel leaf.known
  have isBottom := paging.bottomLevel leaf.known leaf.reached
  refine ⟨next.change.known leaf.known,
    next.change.keeps.descend paging.shape (by omega) leaf.reached, ?_⟩
  -- growth writes no bottom-level slot
  have grown : ∀ {mem' : Memory} {level' : Nat → Nat} {k' : Kernel} {spaces' : List Nat},
      Grows (tables s.kernel.mem level) level (tables mem' level') level' →
      Paging k' spaces' level' identity → k'.mem = mem' →
      tables mem' level' bottom (leafIndex va) = .absent := by
    rintro _ level' k' spaces' forest paging' rfl
    have isBottom' : level' bottom = 1 := (forest.levels (by omega)).trans isBottom
    cases slot : tables k'.mem level' bottom (leafIndex va) with
    | absent => rfl
    | page value =>
        have before := (forest.pages (by omega) slot).2
        rw [leaf.absent] at before
        cases before
    | table child =>
        have below := paging'.shape.child (by omega) slot
        omega
  cases next.change with
  | grow _ forest => exact grown forest next.paging rfl
  | create _ add => exact (add.same (show level bottom ≠ 0 by omega)).trans leaf.absent
  | @leaf aim table value k isTarget known' _ forest paging' tableLevel reached _ cleared written =>
      have before := grown forest paging' rfl
      have edit := paging'.setLeaf tableLevel (leafIndex aim.va) value
      have isBottom' : level' bottom = 1 := (forest.levels (by omega)).trans isBottom
      rw [written]
      by_cases same : bottom = table ∧ leafIndex va = leafIndex aim.va
      · cases clears : aim.clear with
        | true =>
            rw [same.1, same.2, edit.written, cleared clears]
            rfl
        | false =>
            exfalso
            have rootLevel' := paging'.rootLevel leaf.known
            have aimLevel' := paging'.rootLevel known'
            have here := forest.descents (show level space ≠ 0 by omega) leaf.reached
            rw [← same.1] at reached
            obtain ⟨samePath, roots⟩ := paging'.shape.descend_unique (by decide) aimLevel'
              rootLevel' reached here (by rw [upperPath_length, upperPath_length])
            have fullPath : path aim.va = path va := by rw [path_eq, path_eq, samePath, same.2]
            obtain ⟨otherSpace, isPrivate⟩ := spared aim isTarget clears fullPath
            rcases roots with sameSpace | ⟨index, rest, split, shared⟩
            · exact otherSpace sameSpace
            · rw [samePath, upperPath, List.cons.injEq] at split
              exact not_shared_iff.mpr isPrivate (split.1 ▸ shared)
      · refine (edit.same (by omega) ?_).trans before
        by_contra both
        push Not at both
        exact same ⟨both.1, both.2⟩

/-- The leaf slot stays absent through a run without an event that refills it. -/
theorem LeafAbsent.run (paging : Paging s.kernel s.spaces level identity)
    (leaf : LeafAbsent s level space va bottom) (canonical : Canonical va) {events : List Event}
    (run : Steps Step s events s')
    (spared : ∀ event ∈ events, CanonicalEvent event ∧ ¬ Refills space va event) :
    ∃ level', Paging s'.kernel s'.spaces level' identity ∧ LeafAbsent s' level' space va bottom := by
  refine run.invariant_of_forall
    (fun s => ∃ level, Paging s.kernel s.spaces level identity ∧ LeafAbsent s level space va bottom)
    (fun event => CanonicalEvent event ∧ ¬ Refills space va event) ?_ spared ⟨level, paging, leaf⟩
  rintro state event next ⟨level, paging, leaf⟩ ⟨canonicalEvent, noRefill⟩ step
  obtain ⟨level', reached⟩ := System.step_next paging step
  refine ⟨level', reached.paging, leaf.kept paging reached ?_⟩
  intro aim isTarget fills samePath
  cases event with
  | map other va' pa flags =>
      cases isTarget
      have samePage := (path_eq_iff_of_canonical canonicalEvent canonical).mp samePath
      refine ⟨fun sameSpace => noRefill ⟨samePage, .inl sameSpace⟩, ?_⟩
      by_contra notPrivate
      exact noRefill ⟨samePage, .inr notPrivate⟩
  | unmap => cases isTarget; cases fills
  | fault cr2 errorCode =>
      simp only [Event.target?] at isTarget
      split at isTarget <;> cases isTarget
      next window =>
        obtain ⟨canonicalPage, page⟩ := faultPage_canonical window.1 window.2
        exact absurd (page.symm.trans ((path_eq_iff_of_canonical canonicalPage canonical).mp samePath))
          noRefill
  | _ => cases isTarget

variable {image : Image} {mbInfo : Nat} {start : System} {events : List Event}

/-- **TLB coherence.** In every reachable state the TLB agrees with the tables
of the current space, so an access goes where the tables lead. After a page has
been unmapped, and until it is mapped again, no space translates an address
through the removed leaf slot and no access uses it. -/
theorem tlb_coherent (started : Started image mbInfo start) (run : Steps Step start events s)
    (canonical : ∀ event ∈ events, CanonicalEvent event) :
    TlbCoherent s.kernel ∧
    (∀ va, Canonical va → s.kernel.access va = translate s.kernel.mem s.kernel.cr3 va) ∧
    ∀ {space va later s'}, space ∈ s.spaces → va < 2 ^ 64 → Canonical va →
      (vmWalk s.kernel space va false).2 ≠ 0 →
      Steps Step (s.apply (.unmap space va)) later s' →
      (∀ event ∈ later, CanonicalEvent event ∧ ¬ Refills space va event) →
        (vmWalk s'.kernel space va false).2 = (vmWalk s.kernel space va false).2 ∧
        ∀ other ∈ s'.spaces, ∀ va', Canonical va' →
          (vmWalk s'.kernel other va' false).2 = (vmWalk s.kernel space va false).2 →
            translate s'.kernel.mem other va' = none ∧
              (s'.kernel.cr3 = other → s'.kernel.access va' = none) := by
  have coherent := started.coherent.run run canonical
  refine ⟨coherent.tlb, fun va canonicalVa => coherent.tlb.access canonicalVa, ?_⟩
  intro space va later s' known fits canonicalVa walked run' spared
  obtain ⟨level, paging⟩ := coherent.sound.paging
  have unmapStep : Step s (.unmap space va) (s.apply (.unmap space va)) := ⟨⟨known, fits⟩, rfl⟩
  have coherent' := (coherent.step unmapStep canonicalVa).run run' fun event member =>
    (spared event member).1
  rw [paging.vmWalk_false known] at walked ⊢
  cases reached : (tables s.kernel.mem level).descend space (upperPath va) with
  | none => exact absurd (by rw [reached]) walked
  | some bottom =>
      simp only
      have isBottom := paging.bottomLevel known reached
      have removed : ∃ k', (vmUnmap s.kernel space va).1 = k' ∧
          Paging k' s.spaces level image.pd ∧
          LeafAbsent { s with kernel := k' } level space va bottom := by
        refine ⟨_, rfl, ?_⟩
        rcases paging.vmUnmap_cases known va with
          ⟨absent, done⟩ | ⟨other, entry, reached', _, _, done⟩
        · rw [done]
          exact ⟨paging, known, reached, absent bottom reached⟩
        · rw [done]
          cases reached.symm.trans reached'
          have edit := paging.setLeaf isBottom (leafIndex va) 0
          have rootLevel := paging.rootLevel known
          exact ⟨(paging.leaf isBottom _ _).invlpg va, known,
            (edit.keeps paging.shape).descend paging.shape (by omega) reached, edit.written⟩
      obtain ⟨k', isKernel, paging', leaf⟩ := removed
      have start' : s.apply (.unmap space va) = { s with kernel := k' } := by
        rw [System.apply, isKernel]
      rw [start'] at run'
      obtain ⟨level', paging'', leaf'⟩ := leaf.run paging' canonicalVa run' spared
      have isBottom' := paging''.bottomLevel leaf'.known leaf'.reached
      have aligned := paging''.aligned (show level' bottom ≠ 0 by omega)
      refine ⟨by rw [paging''.vmWalk_false leaf'.known, leaf'.reached], ?_⟩
      intro other known' va' canonical' samePte
      suffices gone : translate s'.kernel.mem other va' = none by
        refine ⟨gone, fun current => ?_⟩
        rw [coherent'.tlb.access canonical', current, gone]
      rw [paging''.vmWalk_false known'] at samePte
      cases reached' : (tables s'.kernel.mem level').descend other (upperPath va') with
      | none =>
          rw [reached'] at samePte
          simp only at samePte
          omega
      | some table =>
          rw [reached'] at samePte
          simp only at samePte
          have isTable := paging''.bottomLevel known' reached'
          have aligned' := paging''.aligned (show level' table ≠ 0 by omega)
          have bound := (leafIndex va).isLt
          have bound' := (leafIndex va').isLt
          have sameTable : table = bottom := by omega
          have sameIndex : leafIndex va' = leafIndex va := Fin.ext (by omega)
          rw [translate_eq_none, paging''.translatePage_eq_lookup known' canonical', path_eq,
            Store.lookup_of_descend reached', Store.lookup, sameTable, sameIndex, leaf'.absent]
          rfl

end Removed

section Sample

/-- A page is mapped, cached and unmapped. -/
theorem tlb_coherent_sample : ∃ s, Steps Step sampleSystem
      [.map 0x110000 0x40000000 0x200000 3, .fill 0x40000000] s ∧
    s.kernel.tlb (pageNumber 0x40000000) = some 0x200000 ∧ TlbCoherent s.kernel ∧
      translate (vmUnmap s.kernel 0x110000 0x40000000).1.mem 0x110000 0x40000000 = none ∧
      (s.apply (.unmap 0x110000 0x40000000)).kernel.access 0x40000000 = none := by
  obtain ⟨k', mapped⟩ := @sample_maps 0x40000000 (by decide) (by decide) (by decide)
  have startPaging : Paging sampleSystem.kernel sampleSystem.spaces sampleImage.level
      sampleImage.pd := sample_booted.state.paging
  have mapStep : Step sampleSystem (.map 0x110000 0x40000000 0x200000 3)
      { sampleSystem with kernel := k' } :=
    ⟨⟨List.mem_singleton_self _, by decide, by decide, by decide⟩, by rw [System.apply, mapped]⟩
  obtain ⟨defines, level, paging, page⟩ := startPaging.vmMap_defines (List.mem_singleton_self _)
    (by decide) (by decide) (by decide) (by decide) mapped
  -- the processor caches the page
  have current : k'.cr3 = 0x110000 := List.mem_singleton.mp paging.current
  have own : translate k'.mem k'.cr3 0x40000000 = some 0x200000 :=
    current ▸ defines.page (show 0 < 4096 by decide)
  have filled : k'.fill 0x40000000 =
      { k' with tlb := Function.update k'.tlb (pageNumber 0x40000000) (some 0x200000) } := by
    rw [Kernel.fill, own]
    rfl
  have fillStep : Step { sampleSystem with kernel := k' } (.fill 0x40000000)
      { sampleSystem with kernel := k'.fill 0x40000000 } :=
    ⟨show Canonical 0x40000000 by decide, rfl⟩
  have run := (Steps.single mapStep).snoc fillStep
  have cached : (k'.fill 0x40000000).tlb (pageNumber 0x40000000) = some 0x200000 := by
    rw [filled]
    exact Function.update_self (pageNumber 0x40000000) _ k'.tlb
  -- its leaf slot is there
  have paging' : Paging (k'.fill 0x40000000) [0x110000] level sampleImage.pd := by
    rw [filled]
    exact { paging with }
  have page' : translatePage (k'.fill 0x40000000).mem 0x110000 0x40000000 = some (0x200000, 2 ^ 12) := by
    rw [filled]
    exact page
  obtain ⟨entry, found, _⟩ :=
    (paging'.smallPage_iff (List.mem_singleton_self _) (by decide)).mp page'
  rw [path_eq] at found
  obtain ⟨bottom, reached, _⟩ := Store.lookup_snoc_full found
  have isBottom := paging'.bottomLevel (List.mem_singleton_self _) reached
  have aligned := paging'.aligned (show level bottom ≠ 0 by omega)
  have walked : (vmWalk (k'.fill 0x40000000) 0x110000 0x40000000 false).2 ≠ 0 := by
    rw [paging'.vmWalk_false (List.mem_singleton_self _), reached]
    simp only
    omega
  obtain ⟨coherent, _, removed⟩ := @tlb_coherent { sampleSystem with kernel := k'.fill 0x40000000 }
    sampleImage 0x9000 sampleSystem _ sample_started run (by simp [CanonicalEvent]; decide)
  have gone := removed (List.mem_singleton_self _) (by decide) (by decide) walked .refl
    (fun _ member => absurd member List.not_mem_nil)
  have untranslated := gone.2 0x110000 (List.mem_singleton_self _) 0x40000000 (by decide) gone.1
  have known : 0x110000 ∈ ({ sampleSystem with kernel := k'.fill 0x40000000 } : System).spaces :=
    List.mem_singleton_self _
  obtain ⟨_, next⟩ := System.unmap_next paging' known 0x40000000
  exact ⟨_, run, cached, coherent, untranslated.1,
    untranslated.2 (List.mem_singleton.mp next.paging.current)⟩

end Sample

end GodOs
