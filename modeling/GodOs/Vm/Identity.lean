import GodOs.Vm.Sharing

/-!
# The identity window

The low 1 GB is mapped by the large pages that `pmm_init` left in one
directory. `vm_map` keeps away from it by the full address, but its walk looks
at bits 12 to 47 only: an address above 1 GB whose bits 30 to 47 are zero is
walked inside the window. `identity_window_intact` says that this is the only
way in.
-/

namespace GodOs

open Lib Lib.Forest

/-- The page directory that a space reaches through the first two slots. -/
def identityDirectory (mem : Memory) (space : Nat) : Nat :=
  entryAt mem (entryAt mem space 0 &&& vmAddrMask) 0 &&& vmAddrMask

/-- Every entry of the identity directory of every space is what it was at the
start: absent, or the large page that maps its 2 MB to themselves. So every
address below 1 GB is translated as at the start. -/
structure IdentityIntact (start s : System) : Prop where
  entries : ∀ {space}, space ∈ s.spaces → ∀ i < 512,
    entryAt s.kernel.mem (identityDirectory s.kernel.mem space) i =
      entryAt start.kernel.mem (identityDirectory start.kernel.mem start.kernel.kernelSpace) i
  kinds : ∀ {space}, space ∈ s.spaces → ∀ i < 512,
    entryAt s.kernel.mem (identityDirectory s.kernel.mem space) i &&& vmPtePresent = 0 ∨
      entryAt s.kernel.mem (identityDirectory s.kernel.mem space) i = (i <<< 21) ||| pmmPteKernel
  translations : ∀ {space}, space ∈ s.spaces → ∀ va < 2 ^ 30,
    translate s.kernel.mem space va = translate start.kernel.mem start.kernel.kernelSpace va

/-- A `vm_map` that passes its guards with bits 30 to 47 of the address zero,
while the directory entry is absent and the pool is not empty. -/
def SplitsIdentity (s : System) : Event → Prop
  | .map space va pa _ =>
      MapGuards va pa ∧ va / 2 ^ 30 % 2 ^ 18 = 0 ∧ 0 < s.kernel.pmm.freeFrames ∧
        entryAt s.kernel.mem (identityDirectory s.kernel.mem space) (pdIndex va) &&&
          vmPtePresent = 0
  | _ => False

section Window

variable {k k' : Kernel} {spaces : List Nat} {level level' : Nat → Nat} {identity space va pa : Nat}

theorem Paging.identityDirectory_eq (paging : Paging k spaces level identity)
    (known : space ∈ spaces) : identityDirectory k.mem space = identity := by
  obtain ⟨pdpt, slot, inner⟩ := paging.slot_zero known
  obtain ⟨_, _, _, rfl⟩ := decode_eq_table.mp slot
  exact (decode_eq_table.mp inner).2.2.2.symm

/-- A path to the identity directory consists of two zeros. -/
theorem Paging.identity_path (paging : Paging k spaces level identity) (known : space ∈ spaces)
    {path : List (Fin 512)} (reached : (tables k.mem level).descend space path = some identity) :
    path = [0, 0] := by
  have rootLevel := paging.rootLevel known
  have identityLevel := paging.identityLevel
  have lengths := (paging.shape.descend_level (by omega) reached).2
  have twoSteps : path.length = 2 := by omega
  exact (paging.shape.descend_unique (by decide) rootLevel rootLevel reached (paging.window known)
    twoSteps).1

/-- A growth along a path leaves the identity directory alone, unless it links a
table there, which takes a path of two zeros and a free frame. -/
theorem Grown.identity_entries (grown : Grown k level k' level')
    (paging : Paging k spaces level identity) (paging' : Paging k' spaces level' identity)
    (known : space ∈ spaces) (along : LinksAlong k level k' level' space (upperPath va))
    (spared : ¬ (pml4Index va = 0 ∧ pdptIndex va = 0 ∧ (freeSet k.pmm.bitmap).Nonempty ∧
      entryAt k.mem identity (pdIndex va) &&& vmPtePresent = 0)) (index : Fin 512) :
    entryAt k'.mem identity index = entryAt k.mem identity index := by
  have identityLevel := paging.identityLevel
  rcases grown.entries (show level identity ≠ 0 by omega) with same | ⟨absent, child, linked⟩
  · exact same
  · exfalso
    obtain ⟨init, rest, split, reached⟩ := along (by omega) absent linked
    rw [paging'.identity_path known reached, upperPath] at split
    simp only [List.cons_append, List.nil_append, List.cons.injEq] at split
    obtain ⟨first, second, third, _⟩ := split
    have isFresh := grown.link_fresh paging paging'.shape (by omega) absent linked (by omega)
    have childTable := (paging'.shape.child
      (by rw [grown.forest.levels (by omega)]; omega) linked).1
    obtain ⟨frame, free, _⟩ := grown.fresh isFresh childTable
    refine spared ⟨congrArg Fin.val first, congrArg Fin.val second, ⟨frame, free⟩, ?_⟩
    have sameIndex : pdIndex va = index.val := congrArg Fin.val third
    rw [sameIndex]
    exact decode_eq_absent.mp absent

end Window

section Steps

variable {s s' : System} {level : Nat → Nat} {identity : Nat}

/-- No step but a splitting `vm_map` changes an entry of the identity directory. -/
theorem System.identity_entries (paging : Paging s.kernel s.spaces level identity)
    (valid : s.kernel.pmm.Valid) {event : Event} (step : Step s event s')
    (whole : ¬ SplitsIdentity s event) (index : Fin 512) :
    entryAt s'.kernel.mem identity index = entryAt s.kernel.mem identity index := by
  obtain ⟨enabled, rfl⟩ := step
  have identityLevel := paging.identityLevel
  have identityAligned := paging.aligned (show level identity ≠ 0 by omega)
  have bound := index.isLt
  cases event with
  | alloc => rfl
  | free => rfl
  | create =>
      simp only [System.apply]
      rcases paging.vmCreateSpace_cases with ⟨_, run⟩ | ⟨frame, free, _, _, run⟩
      · rw [run]
      · rw [run]
        have unused := paging.not_free free
        have different : identity ≠ frame * pmmFrameSize := by
          rintro same
          rw [same] at identityLevel
          omega
        simp only [pmmFrameSize] at different
        exact Memory.load_congr fun address lower upper =>
          newSpace_mem (by simp only [pmmFrameSize]; omega)
  | map space va pa flags =>
      simp only [System.apply]
      rcases paging.vmMap_cases enabled.1 va pa flags with
        ⟨_, run⟩ | ⟨guards, k', level', paging', grown, along, outcome⟩
      · rw [run]
      have grownEntries : entryAt k'.mem identity index = entryAt s.kernel.mem identity index := by
        refine grown.identity_entries paging paging' enabled.1 along ?_ index
        rintro ⟨zero, zero', nonempty, absent⟩
        refine whole ⟨guards, ?_, ?_, ?_⟩
        · rw [pml4Index_eq] at zero
          rw [pdptIndex_eq] at zero'
          omega
        · rw [valid.count]
          exact Finset.card_pos.mpr nonempty
        · rwa [paging.identityDirectory_eq enabled.1]
      rcases outcome with ⟨_, run⟩ | ⟨bottom, walked, _, run⟩
      · rw [run]
        exact grownEntries
      · rw [run]
        have isBottom := paging'.bottomLevel enabled.1 walked.1
        have identityLevel' := paging'.identityLevel
        have other : identity ≠ bottom := by rintro rfl; omega
        exact (paging'.writeLeaf_others isBottom (by omega) (.inl other)).trans grownEntries
  | unmap space va =>
      simp only [System.apply]
      rcases paging.vmUnmap_cases enabled.1 va with ⟨_, run⟩ | ⟨bottom, entry, _, isBottom, _, run⟩
      · rw [run]
      · rw [run]
        have other : identity ≠ bottom := by rintro rfl; omega
        exact paging.writeLeaf_others isBottom (by omega) (.inl other)
  | switch space =>
      simp only [System.apply]
      unfold vmSwitch
      split <;> rfl
  | fault cr2 errorCode =>
      simp only [System.apply]
      rcases paging.vmHandlePageFault_cases cr2 errorCode with
        ⟨_, run⟩ | ⟨_, _, run⟩ | ⟨filter, frame, free, _, k', level', paging', grown, along, outcome⟩
      · rw [run]
      · rw [run]
      have started : entryAt (faultStart s.kernel frame).mem identity index =
          entryAt s.kernel.mem identity index := by
        refine Memory.load_congr fun address lower upper => paging.faultStart_bytes free ?_
        rw [show address / 4096 * 4096 = identity by omega]
        omega
      have grownEntries : entryAt k'.mem identity index = entryAt s.kernel.mem identity index := by
        refine (grown.identity_entries (paging.atFault free) paging' paging.current along ?_
          index).trans started
        rintro ⟨zero, _⟩
        obtain ⟨_, _, _, _, lower, upper⟩ := filter
        simp only [vmHeapBase, vmHeapSize] at lower upper
        rw [pml4Index_eq, faultPage_eq (by omega)] at zero
        omega
      rcases outcome with ⟨_, run⟩ | ⟨bottom, walked, _, run⟩
      · rw [run]
        exact grownEntries
      · rw [run]
        have isBottom := paging'.bottomLevel paging.current walked.1
        have identityLevel' := paging'.identityLevel
        have other : identity ≠ bottom := by rintro rfl; omega
        exact (paging'.writeLeaf_others isBottom (by omega) (.inl other)).trans grownEntries
  | fill va =>
      simp only [System.apply]
      unfold Kernel.fill
      split <;> rfl
  | store va value =>
      simp only [System.apply]
      unfold Kernel.storeByte
      split
      next pa access =>
        refine Memory.load_congr fun address lower upper => Function.update_of_ne ?_ _ _
        rintro rfl
        refine enabled.2 address access 2 (paging.pageTable_iff.mpr ⟨?_, by decide⟩)
        simp only [pmmFrameSize]
        rw [show address / 4096 * 4096 = identity by omega, identityLevel]
      next => rfl

end Steps

section Intact

variable {image : Image} {mbInfo : Nat} {start s : System} {events : List Event}

/-- Translation below 1 GB depends only on the identity directory. -/
theorem Paging.translate_low {k k' : Kernel} {spaces spaces' : List Nat} {level level' : Nat → Nat}
    {identity space space' va : Nat} (paging : Paging k spaces level identity)
    (paging' : Paging k' spaces' level' identity) (known : space ∈ spaces)
    (known' : space' ∈ spaces')
    (same : ∀ index : Fin 512, entryAt k'.mem identity index = entryAt k.mem identity index)
    (pages : ∀ {index child}, tables k.mem level identity index ≠ .table child)
    (low : va < 2 ^ 30) : translate k'.mem space' va = translate k.mem space va := by
  refine translate_congr (paging.translatePage_congr paging' known known' ?_)
  have zero : (⟨pml4Index va, pml4Index_lt va⟩ : Fin 512) = 0 :=
    Fin.ext (show pml4Index va = 0 by rw [pml4Index_eq]; omega)
  have zero' : (⟨pdptIndex va, pdptIndex_lt va⟩ : Fin 512) = 0 :=
    Fin.ext (show pdptIndex va = 0 by rw [pdptIndex_eq]; omega)
  have split : path va = [0, 0] ++
      [⟨pdIndex va, pdIndex_lt va⟩, ⟨ptIndex va, ptIndex_lt va⟩] := by
    rw [path, zero, zero']
    rfl
  have sameSlot : tables k'.mem level' identity ⟨pdIndex va, pdIndex_lt va⟩ =
      tables k.mem level identity ⟨pdIndex va, pdIndex_lt va⟩ := by
    rw [tables, tables, same, paging.identityLevel, paging'.identityLevel]
  rw [split, Store.lookup_of_descend (paging.window known),
    Store.lookup_of_descend (paging'.window known'), Store.lookup, Store.lookup, sameSlot]
  split
  next => rfl
  next => rfl
  next child isTable => exact absurd isTable pages

/-- The directory at `identity` has the entries it had at the start. -/
structure DirectoryKept (identity : Nat) (start s : System) : Prop where
  sound : Sound identity s
  entries : ∀ index : Fin 512,
    entryAt s.kernel.mem identity index = entryAt start.kernel.mem identity index

theorem DirectoryKept.step {identity : Nat} {s' : System} {event : Event}
    (kept : DirectoryKept identity start s) (step : Step s event s')
    (whole : ¬ SplitsIdentity s event) : DirectoryKept identity start s' where
  sound := kept.sound.step step
  entries index := by
    obtain ⟨level, paging⟩ := kept.sound.paging
    rw [System.identity_entries paging kept.sound.valid step whole index, kept.entries index]

/-- **The identity window keeps its large pages.** In every run without a
splitting `vm_map`, the identity directory of every space stays exactly as
`pmm_init` left it, and no translation below 1 GB changes. -/
theorem identity_window_intact (started : Started image mbInfo start)
    (run : Steps (fun s event s' => Step s event s' ∧ ¬ SplitsIdentity s event) start events s) :
    IdentityIntact start s := by
  have startPaging : Paging start.kernel start.spaces image.level image.pd :=
    started.2.1 ▸ started.1.state.paging
  have kept : DirectoryKept image.pd start s :=
    run.invariant (fun kept step => kept.step step.1 step.2) ⟨started.sound, fun _ => rfl⟩
  obtain ⟨⟨⟨level, paging⟩, _⟩, same⟩ := kept
  obtain ⟨bootMem, boot, filled⟩ := started.1.state.directory
  have slots := boot.slots filled
  have startEntry : ∀ index : Fin 512,
      entryAt start.kernel.mem image.pd index = 0 ∨
        entryAt start.kernel.mem image.pd index = largeEntry index := by
    intro index
    rcases (slots index).2.2 with ⟨_, zero⟩ | ⟨_, large⟩
    · exact .inl zero
    · exact .inr large
  have pages : ∀ {index child}, tables start.kernel.mem image.level image.pd index ≠ .table child := by
    intro index child isTable
    rcases (slots index).2.2 with ⟨absent, _⟩ | ⟨page, _⟩
    · rw [absent] at isTable
      cases isTable
    · rw [page] at isTable
      cases isTable
  refine { entries := ?_, kinds := ?_, translations := ?_ }
  · intro space known i small
    rw [paging.identityDirectory_eq known, startPaging.identityDirectory_eq startPaging.kernel]
    exact same ⟨i, small⟩
  · intro space known i small
    rw [paging.identityDirectory_eq known, largeEntry_eq, same ⟨i, small⟩]
    rcases startEntry ⟨i, small⟩ with zero | large
    · rw [zero]
      exact .inl rfl
    · exact .inr large
  · intro space known va low
    exact startPaging.translate_low paging startPaging.kernel known same pages low

end Intact

section Split

variable {k : Kernel} {spaces : List Nat} {level : Nat → Nat} {identity space va pa flags : Nat}

/-- A stage of the walk follows a table slot. -/
theorem Paging.vmWalkLevel_table (paging : Paging k spaces level identity) {table child : Nat}
    (upper : 2 ≤ level table) {index : Fin 512} {create : Bool}
    (slot : tables k.mem level table index = .table child) :
    vmWalkLevel k (table + 8 * index) create = (k, some child) := by
  rcases paging.vmWalkLevel_cases upper index create with
    ⟨found, slot', run⟩ | ⟨_, _, absent, _⟩ | ⟨⟨absent, _⟩ | ⟨_, large⟩, _⟩
  · rw [slot] at slot'
    injection slot' with same
    rw [same]
    exact run
  · rw [slot] at absent
    cases absent
  · rw [slot] at absent
    cases absent
  · rw [slot] at large
    cases large

/-- A splitting `vm_map` hangs a table into the identity directory. -/
theorem Paging.vmMap_splits (paging : Paging k spaces level identity) (valid : k.pmm.Valid)
    (known : space ∈ spaces) (guards : MapGuards va pa) (alias' : va / 2 ^ 30 % 2 ^ 18 = 0)
    (absent : entryAt k.mem identity (pdIndex va) &&& vmPtePresent = 0)
    (frames : 0 < k.pmm.freeFrames) :
    ∃ level' child, Paging (vmMap k space va pa flags).1 spaces level' identity ∧
      tables (vmMap k space va pa flags).1.mem level' identity ⟨pdIndex va, pdIndex_lt va⟩ =
        .table child := by
  have rootLevel := paging.rootLevel known
  have identityLevel := paging.identityLevel
  obtain ⟨pdpt, slot, inner⟩ := paging.slot_zero known
  have pdptLevel := (paging.shape.child (by omega) slot).2
  have zero : (⟨pml4Index va, pml4Index_lt va⟩ : Fin 512) = 0 :=
    Fin.ext (show pml4Index va = 0 by rw [pml4Index_eq]; omega)
  have zero' : (⟨pdptIndex va, pdptIndex_lt va⟩ : Fin 512) = 0 :=
    Fin.ext (show pdptIndex va = 0 by rw [pdptIndex_eq]; omega)
  have wasAbsent : tables k.mem level identity ⟨pdIndex va, pdIndex_lt va⟩ = .absent :=
    decode_eq_absent.mpr absent
  -- the third stage finds the absent entry and a free frame, so it links a table
  have third : ∃ frame ∈ freeSet k.pmm.bitmap, vmWalkLevel k
      (identity + 8 * (⟨pdIndex va, pdIndex_lt va⟩ : Fin 512)) true =
        (linkTable k identity (⟨pdIndex va, pdIndex_lt va⟩ : Fin 512) frame,
          some (frame * pmmFrameSize)) := by
    rcases paging.vmWalkLevel_cases (show 2 ≤ level identity by omega)
      ⟨pdIndex va, pdIndex_lt va⟩ true with ⟨_, slot', _⟩ | ⟨frame, free, _, _, _, run⟩ |
        ⟨⟨_, impossible | exhausted⟩ | ⟨_, large⟩, _⟩
    · rw [wasAbsent] at slot'
      cases slot'
    · exact ⟨frame, free, run⟩
    · cases impossible
    · have := valid.alloc_zero_iff.mp exhausted
      omega
    · rw [wasAbsent] at large
      cases large
  obtain ⟨frame, free, third⟩ := third
  have walk : walkTables k space (upperPath va) true =
      (linkTable k identity (pdIndex va) frame, some (frame * pmmFrameSize)) := by
    rw [upperPath, zero, zero', walkTables, paging.vmWalkLevel_table (by omega) slot]
    simp only
    rw [walkTables, paging.vmWalkLevel_table (by omega) inner]
    simp only
    rw [walkTables, third]
    simp only
    rw [walkTables]
  obtain ⟨level', paging', _, _, outcome⟩ :=
    paging.walkTables_spec true (upperPath va) (by rw [rootLevel, upperPath_length]; decide)
  rw [walk] at paging' outcome
  have linked : tables (linkTable k identity (pdIndex va) frame).mem level' identity
      ⟨pdIndex va, pdIndex_lt va⟩ = .table (frame * pmmFrameSize) := by
    have reached := outcome.1
    rw [upperPath, zero, zero'] at reached
    obtain ⟨node, toNode, slot'⟩ := Store.descend_snoc.mp (show
      (tables (linkTable k identity (pdIndex va) frame).mem level').descend space
        ([0, 0] ++ [⟨pdIndex va, pdIndex_lt va⟩]) = some (frame * pmmFrameSize) from reached)
    rw [paging'.window known] at toNode
    cases toNode
    exact slot'
  have notNull : space ≠ 0 := by
    have := paging.aligned (show level space ≠ 0 by omega)
    omega
  rcases vmMap_eq notNull va pa flags with ⟨refused, _⟩ | ⟨_, run⟩
  · exact absurd guards refused
  rw [run, walk]
  simp only
  split_ifs
  · exact ⟨level', _, paging', linked⟩
  · exact ⟨level', _, paging', linked⟩
  · have isBottom := paging'.bottomLevel known outcome.1
    have identityLevel' := paging'.identityLevel
    refine ⟨level', frame * pmmFrameSize, (paging'.leaf isBottom _ _).invlpg va, ?_⟩
    have other : identity ≠ frame * pmmFrameSize := by
      rintro same
      rw [same] at identityLevel'
      omega
    exact ((paging'.setLeaf isBottom (leafIndex va) _).same (by omega) (.inl other)).trans linked

variable {image : Image} {mbInfo : Nat} {start s : System}

/-- The condition is exact: after a splitting `vm_map` the window is not intact. -/
theorem splitting_breaks_window {identity : Nat} (sound : Sound identity s) {event : Event}
    (enabled : s.Enabled event) (splits : SplitsIdentity s event) :
    ¬ IdentityIntact start (s.apply event) := by
  obtain ⟨level, paging⟩ := sound.paging
  cases event with
  | map space va pa flags =>
      obtain ⟨guards, alias', frames, absent⟩ := splits
      rw [paging.identityDirectory_eq enabled.1] at absent
      obtain ⟨level', child, paging', slot⟩ := @Paging.vmMap_splits s.kernel s.spaces level identity
        space va pa flags paging sound.valid enabled.1 guards alias' absent frames
      intro intact
      have known : space ∈ (s.apply (.map space va pa flags)).spaces := enabled.1
      have kind := intact.kinds known (pdIndex va) (pdIndex_lt va)
      obtain ⟨present, _, small, _⟩ := decode_eq_table.mp slot
      simp only [System.apply] at kind
      rw [paging'.identityDirectory_eq enabled.1, largeEntry_eq] at kind
      rcases kind with gone | large
      · exact present gone
      · simp only [large] at small
        rw [huge_eq_zero, largeEntry] at small
        omega
  | _ => exact splits.elim

end Split

section Sample

/-- A space is created, and a page is mapped right above the window. -/
theorem identity_window_intact_sample : ∃ s k', Step sampleSystem .create s ∧
    vmMap s.kernel 0x110000 0x40000000 0x200000 3 = (k', 0) ∧
    IdentityIntact sampleSystem { s with kernel := k' } := by
  obtain ⟨s, space, k', step, _, _, spaces, _, _, _, mapped⟩ :=
    @sample_maps_beside 0x40000000 (by decide) (by decide) (by decide) (by decide)
  have known : 0x110000 ∈ s.spaces := by simp [spaces]
  have mapStep : Step s (.map 0x110000 0x40000000 0x200000 3) { s with kernel := k' } :=
    ⟨⟨known, by decide, by decide, by decide⟩, by rw [System.apply, mapped]⟩
  have above : ¬ SplitsIdentity s (.map 0x110000 0x40000000 0x200000 3) :=
    fun splits => absurd splits.2.1 (by decide)
  exact ⟨s, k', step, mapped,
    identity_window_intact sample_started (.snoc (.single ⟨step, id⟩) ⟨mapStep, above⟩)⟩

/-- `vm_map` of an address with bit 48 set splits the identity directory at 128 MB. -/
theorem identity_window_split :
    sampleSystem.Enabled (.map 0x110000 0x0001000008000000 0x200000 3) ∧
      ¬ IdentityIntact sampleSystem
        (sampleSystem.apply (.map 0x110000 0x0001000008000000 0x200000 3)) := by
  have enabled : sampleSystem.Enabled (.map 0x110000 0x0001000008000000 0x200000 3) :=
    ⟨List.mem_singleton_self _, by decide, by decide, by decide⟩
  have startPaging : Paging sampleSystem.kernel sampleSystem.spaces sampleImage.level
      sampleImage.pd := sample_booted.state.paging
  have frames := sample_frames
  have index : pdIndex 0x0001000008000000 = 64 := by decide
  have vacant : entryAt sampleSystem.kernel.mem
      (identityDirectory sampleSystem.kernel.mem 0x110000) (pdIndex 0x0001000008000000) &&&
        vmPtePresent = 0 := by
    rw [startPaging.identityDirectory_eq (List.mem_singleton_self _), index]
    have absent := sample_absent
    rw [show sampleSystem.kernel.mem = sampleKernel.mem from rfl, absent]
    rfl
  refine ⟨enabled, splitting_breaks_window sample_started.sound enabled ?_⟩
  exact ⟨⟨by decide, by decide, by decide, by decide⟩, by decide, by omega, vacant⟩

end Sample

end GodOs
