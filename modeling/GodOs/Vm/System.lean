import GodOs.Lib.Transition
import GodOs.Vm.Boot
import GodOs.Vm.Create
import GodOs.Vm.Fault

/-!
# Runs of the memory layer

A `System` is the kernel with what its clients know: the spaces they were given
and the frames they hold. An `Event` is one call of the memory layer, one TLB
fill of the processor, or one store of a byte. `System.step_next` says what a
step can do to the page tables.
-/

namespace GodOs

open Lib Lib.Forest

/-- The kernel, its address spaces, and the frames its clients hold. -/
structure System where
  kernel : Kernel
  spaces : List Nat
  held : Finset Nat

/-- What can happen to the memory layer in one step. -/
inductive Event where
  | alloc
  | free (pa : Nat)
  | create
  | map (space va pa flags : Nat)
  | unmap (space va : Nat)
  | switch (space : Nat)
  | fault (cr2 errorCode : Nat)
  | fill (va : Nat)
  | store (va : Nat) (value : UInt8)

/-- The page tables of the spaces with their levels: the PML4s, and whatever a
present entry of an upper table that is no large page leads to. -/
inductive PageTable (mem : Memory) (spaces : List Nat) : Nat → Nat → Prop where
  | root {space : Nat} (known : space ∈ spaces) : PageTable mem spaces 4 space
  | next {level table index : Nat} (above : PageTable mem spaces (level + 2) table)
      (bound : index < 512) (present : entryAt mem table index &&& vmPtePresent ≠ 0)
      (small : entryAt mem table index &&& vmPteHuge = 0) :
      PageTable mem spaces (level + 1) (entryAt mem table index &&& vmAddrMask)

/-- The physical address of an access: the TLB answers when it has the page,
and the tables otherwise. -/
def Kernel.access (k : Kernel) (va : Nat) : Option Nat :=
  match k.tlb (pageNumber va) with
  | some page => some (page + va % vmPageSize)
  | none => translate k.mem k.cr3 va

/-- The processor caches the translation of a page of the current space. -/
def Kernel.fill (k : Kernel) (va : Nat) : Kernel :=
  match translate k.mem k.cr3 va with
  | some pa => { k with tlb := Function.update k.tlb (pageNumber va) (some (pa - va % vmPageSize)) }
  | none => k

/-- An access stores one byte. -/
def Kernel.storeByte (k : Kernel) (va : Nat) (value : UInt8) : Kernel :=
  match k.access va with
  | some pa => { k with mem := Function.update k.mem pa value }
  | none => k

/-- The effect of one event. A frame handed out is held; a created space is known. -/
def System.apply (s : System) : Event → System
  | .alloc =>
      let (kernel, pa) := s.kernel.allocFrame
      { s with
        kernel := kernel
        held := if pa = 0 then s.held else insert (pa / pmmFrameSize) s.held }
  | .free pa =>
      { s with kernel := s.kernel.freeFrame pa, held := s.held.erase (pa / pmmFrameSize) }
  | .create =>
      let (kernel, space) := vmCreateSpace s.kernel
      { s with kernel := kernel, spaces := if space = 0 then s.spaces else space :: s.spaces }
  | .map space va pa flags => { s with kernel := (vmMap s.kernel space va pa flags).1 }
  | .unmap space va => { s with kernel := (vmUnmap s.kernel space va).1 }
  | .switch space => { s with kernel := vmSwitch s.kernel space }
  | .fault cr2 errorCode => { s with kernel := (vmHandlePageFault s.kernel cr2 errorCode).1 }
  | .fill va => { s with kernel := s.kernel.fill va }
  | .store va value => { s with kernel := s.kernel.storeByte va value }

/-- What callers and hardware promise: operations name known spaces, no page
table is given back to the pool, and only `vm.c` writes to page tables. -/
def System.Enabled (s : System) : Event → Prop
  | .free pa => ∀ level, ¬ PageTable s.kernel.mem s.spaces level pa
  | .map space va pa flags => space ∈ s.spaces ∧ va < 2 ^ 64 ∧ pa < 2 ^ 64 ∧ flags < 2 ^ 64
  | .unmap space va => space ∈ s.spaces ∧ va < 2 ^ 64
  | .switch space => space ∈ s.spaces
  | .fault cr2 _ => cr2 < 2 ^ 64
  | .fill va => Canonical va
  | .store va _ => Canonical va ∧ ∀ pa, s.kernel.access va = some pa → ∀ level,
      ¬ PageTable s.kernel.mem s.spaces level (pa / pmmFrameSize * pmmFrameSize)
  | .alloc | .create => True

/-- One step of the memory layer. -/
def Step (s : System) (event : Event) (s' : System) : Prop := s.Enabled event ∧ s' = s.apply event

/-- The first state of a run: booted, with the kernel space and nothing handed out. -/
def Started (image : Image) (mbInfo : Nat) (s : System) : Prop :=
  Booted image mbInfo s.kernel ∧ s.spaces = [image.pml4] ∧ s.held = ∅

section Tables

variable {k k' : Kernel} {spaces : List Nat} {level : Nat → Nat} {identity table : Nat}

/-- The levels of the invariant are those of the page tables. -/
theorem Paging.pageTable_iff (paging : Paging k spaces level identity) {n : Nat} :
    PageTable k.mem spaces n table ↔ level table = n ∧ n ≠ 0 := by
  constructor
  · intro isTable
    induction isTable with
    | root known => exact ⟨paging.rootLevel known, by decide⟩
    | @next n table index above bound present small ih =>
        have slot : tables k.mem level table ⟨index, bound⟩ =
            .table (entryAt k.mem table index &&& vmAddrMask) :=
          decode_eq_table.mpr ⟨present, by omega, small, rfl⟩
        have below := (paging.shape.child (by omega) slot).2
        omega
  · rintro ⟨isLevel, nonzero⟩
    obtain ⟨space, known, path, reached⟩ := paging.rooted (show level table ≠ 0 by omega)
    -- along the path from the root, every table slot is a present entry
    induction path using List.reverseRecOn generalizing table n with
    | nil =>
        cases reached
        rw [paging.rootLevel known] at isLevel
        exact isLevel ▸ .root known
    | append_singleton init index ih =>
        obtain ⟨parent, toParent, slot⟩ := Store.descend_snoc.mp reached
        have parentLevel := (paging.shape.descend_level
          (by rw [paging.rootLevel known]; decide) toParent).1
        have below := (paging.shape.child parentLevel slot).2
        obtain ⟨present, _, small, rfl⟩ := decode_eq_table.mp slot
        obtain ⟨n, rfl⟩ := Nat.exists_eq_succ_of_ne_zero nonzero
        exact .next (ih (show level parent = n + 2 by omega) (by omega) toParent) index.isLt
          present small

end Tables

/-- A leaf slot that an event may write, by space and address: to clear it, or
to fill it while it is absent. -/
structure Target where
  space : Nat
  va : Nat
  clear : Bool

/-- The leaf slot that an event aims at. -/
def Event.target? (s : System) : Event → Option Target
  | .map space va _ _ => some ⟨space, va, false⟩
  | .unmap space va => some ⟨space, va, true⟩
  | .fault cr2 _ =>
      if vmHeapBase ≤ cr2 ∧ cr2 < vmHeapBase + vmHeapSize then
        some ⟨s.kernel.cr3, faultPage cr2, false⟩
      else none
  | _ => none

/-- What a step can do to the page tables: grow them, write one leaf slot below
the target of the event, or add a space. -/
inductive Change (s : System) (level : Nat → Nat) (identity : Nat) (target : Option Target)
    (s' : System) (level' : Nat → Nat) : Prop where
  | grow (spaces : s'.spaces = s.spaces)
      (forest : Grows (tables s.kernel.mem level) level (tables s'.kernel.mem level') level')
  | leaf {aim : Target} {bottom value : Nat} {k : Kernel} (isTarget : target = some aim)
      (known : aim.space ∈ s.spaces) (spaces : s'.spaces = s.spaces)
      (forest : Grows (tables s.kernel.mem level) level (tables k.mem level') level')
      (paging : Paging k s.spaces level' identity) (bottomLevel : level' bottom = 1)
      (reached : (tables k.mem level').descend aim.space (upperPath aim.va) = some bottom)
      (vacant : aim.clear = false → tables k.mem level' bottom (leafIndex aim.va) = .absent)
      (cleared : aim.clear = true → value = 0)
      (written : s'.kernel.mem = (writeLeaf k bottom (leafIndex aim.va) value).mem)
  | create {space : Nat} (spaces : s'.spaces = space :: s.spaces)
      (add : AddRoot (tables s.kernel.mem level) level (tables s'.kernel.mem level') level' 4 Shared
        s.kernel.kernelSpace space)

section Step

variable {s s' : System} {level level' : Nat → Nat} {identity : Nat} {target : Option Target}

/-- A step that spares the bytes of the tables changes nothing about them. -/
theorem Change.quiet (paging : Paging s.kernel s.spaces level identity)
    (bytes : ∀ address, level (address / 4096 * 4096) ≠ 0 →
      s'.kernel.mem address = s.kernel.mem address)
    (spaces : s'.spaces = s.spaces) : Change s level identity target s' level :=
  .grow spaces (paging.shape.grows_of_same fun isTable => paging.tables_congr bytes isTable)

/-- A frame taken from the pool keeps the invariant. -/
theorem Paging.allocFrame {k : Kernel} {spaces : List Nat}
    (paging : Paging k spaces level identity) : Paging k.allocFrame.1 spaces level identity := by
  refine paging.congr (fun _ _ => rfl) ?_ rfl paging.current
  intro frame free
  have old : frame ∈ freeSet k.pmm.bitmap := by
    rcases pmmAllocFrame_cases k.pmm with ⟨other, _, taken⟩ | failed
    · rw [Kernel.allocFrame_eq taken] at free
      simp only [pmmTake, freeSet_set] at free
      exact Finset.mem_of_mem_erase free
    · rwa [Kernel.allocFrame_eq failed] at free
  exact ⟨fun zero => paging.reserved (zero ▸ old), paging.not_free old⟩

/-- A frame given back to the pool keeps the invariant when it is no table. -/
theorem Paging.freeFrame {k : Kernel} {spaces : List Nat} {pa : Nat}
    (paging : Paging k spaces level identity) (unused : level pa = 0) :
    Paging (k.freeFrame pa) spaces level identity := by
  refine paging.congr (fun _ _ => rfl) ?_ rfl paging.current
  intro frame free
  rcases mem_freeSet_pmmFreeFrame.mp free with old | ⟨notZero, aligned, _, rfl⟩
  · exact ⟨fun zero => paging.reserved (zero ▸ old), paging.not_free old⟩
  · simp only [pmmFrameSize] at aligned ⊢
    rw [show pa / 4096 * 4096 = pa by omega]
    exact ⟨by omega, unused⟩

/-- The state after a step: the invariants again, and what changed. -/
structure Next (s : System) (level : Nat → Nat) (identity : Nat) (target : Option Target)
    (s' : System) (level' : Nat → Nat) : Prop where
  paging : Paging s'.kernel s'.spaces level' identity
  change : Change s level identity target s' level'
  valid : s.kernel.pmm.Valid → s'.kernel.pmm.Valid
  kernelSpace : s'.kernel.kernelSpace = s.kernel.kernelSpace

theorem Next.quiet (paging : Paging s.kernel s.spaces level identity)
    (paging' : Paging s'.kernel s'.spaces level identity)
    (bytes : ∀ address, level (address / 4096 * 4096) ≠ 0 →
      s'.kernel.mem address = s.kernel.mem address)
    (spaces : s'.spaces = s.spaces) (valid : s.kernel.pmm.Valid → s'.kernel.pmm.Valid)
    (kernelSpace : s'.kernel.kernelSpace = s.kernel.kernelSpace) :
    Next s level identity target s' level :=
  ⟨paging', .quiet paging bytes spaces, valid, kernelSpace⟩

theorem Next.refl (paging : Paging s.kernel s.spaces level identity) :
    Next s level identity target s level :=
  .quiet paging paging (fun _ _ => rfl) rfl id rfl

theorem System.create_next (paging : Paging s.kernel s.spaces level identity) :
    ∃ level', Next s level identity target (s.apply .create) level' := by
  simp only [System.apply]
  rcases paging.vmCreateSpace_cases with ⟨_, run⟩ | ⟨frame, free, nonzero, taken, run⟩
  · rw [run]
    exact ⟨level, .refl paging⟩
  · have address : frame * pmmFrameSize ≠ 0 := by simpa [pmmFrameSize] using nonzero
    rw [run]
    simp only [if_neg address]
    refine ⟨newLevel level frame, paging.created free, .create rfl (paging.addRoot free), ?_, rfl⟩
    intro valid
    have next := valid.alloc
    rwa [taken] at next

/-- With a frame in the pool a space can be created. -/
theorem System.create_succeeds (paging : Paging s.kernel s.spaces level identity)
    (valid : s.kernel.pmm.Valid) (frames : 0 < s.kernel.pmm.freeFrames) :
    ∃ space, vmCreateSpace s.kernel = ((s.apply .create).kernel, space) ∧ space ≠ 0 ∧
      space ∉ s.spaces ∧ (s.apply .create).spaces = space :: s.spaces ∧
      s.kernel.pmm.freeFrames ≤ (s.apply .create).kernel.pmm.freeFrames + 1 := by
  simp only [System.apply]
  rcases paging.vmCreateSpace_cases with ⟨exhausted, _⟩ | ⟨frame, free, nonzero, taken, run⟩
  · have empty := valid.alloc_zero_iff.mp exhausted
    omega
  · have address : frame * pmmFrameSize ≠ 0 := by simpa [pmmFrameSize] using nonzero
    have fresh : frame * pmmFrameSize ∉ s.spaces := by
      intro known
      have rootLevel := paging.rootLevel known
      have unused := paging.not_free free
      omega
    rw [run]
    simp only [if_neg address]
    exact ⟨_, rfl, address, fresh, rfl, by simp only [newSpace, pmmTake]; omega⟩

theorem System.map_next (paging : Paging s.kernel s.spaces level identity) {space : Nat}
    (known : space ∈ s.spaces) (va pa flags : Nat) :
    ∃ level', Next s level identity (some ⟨space, va, false⟩) (s.apply (.map space va pa flags)) level' := by
  simp only [System.apply]
  rcases paging.vmMap_cases known va pa flags with
    ⟨_, run⟩ | ⟨_, k', level', paging', grown, _, ⟨_, run⟩ | ⟨bottom, walked, absent, run⟩⟩
  · rw [run]
    exact ⟨level, .refl paging⟩
  · rw [run]
    exact ⟨level', paging', .grow rfl grown.forest, grown.valid, grown.kernelSpace⟩
  · rw [run]
    have isBottom := paging'.bottomLevel known walked.1
    exact ⟨level', (paging'.leaf isBottom _ _).invlpg va,
      .leaf rfl known rfl grown.forest paging' isBottom walked.1 (fun _ => absent)
        (fun clears => nomatch clears) rfl,
      grown.valid, grown.kernelSpace⟩

theorem System.unmap_next (paging : Paging s.kernel s.spaces level identity) {space : Nat}
    (known : space ∈ s.spaces) (va : Nat) :
    ∃ level', Next s level identity (some ⟨space, va, true⟩) (s.apply (.unmap space va)) level' := by
  simp only [System.apply]
  rcases paging.vmUnmap_cases known va with ⟨_, run⟩ | ⟨bottom, entry, reached, isBottom, _, run⟩
  · rw [run]
    exact ⟨level, .refl paging⟩
  · rw [run]
    exact ⟨level, (paging.leaf isBottom _ _).invlpg va,
      .leaf rfl known rfl (.refl _ _) paging isBottom reached (fun keep => nomatch keep)
        (fun _ => rfl) rfl, id, rfl⟩

theorem System.fault_next (paging : Paging s.kernel s.spaces level identity) (cr2 errorCode : Nat) :
    ∃ level', Next s level identity (Event.target? s (.fault cr2 errorCode))
      (s.apply (.fault cr2 errorCode)) level' := by
  simp only [System.apply]
  rcases paging.vmHandlePageFault_cases cr2 errorCode with
    ⟨_, run⟩ | ⟨_, _, run⟩ | ⟨filter, frame, free, taken, k', level', paging', grown, _, outcome⟩
  · rw [run]
    exact ⟨level, .refl paging⟩
  · rw [run]
    exact ⟨level, .refl paging⟩
  · have start : Grows (tables s.kernel.mem level) level
        (tables (faultStart s.kernel frame).mem level) level := by
      refine paging.shape.grows_of_same fun isTable => paging.tables_congr ?_ isTable
      exact fun address isTable => paging.faultStart_bytes free isTable
    have forest := start.trans grown.forest
    have valid : s.kernel.pmm.Valid → k'.pmm.Valid := by
      intro valid
      have next := valid.alloc
      rw [taken] at next
      exact grown.valid next
    rcases outcome with ⟨_, run⟩ | ⟨bottom, walked, absent, run⟩
    · rw [run]
      have dataFrame := grown.dataFrame_unused (paging.not_free free)
        (by simp [faultStart, pmmTake, freeSet_set])
      exact ⟨level', { paging'.freeFrame dataFrame with }, .grow rfl forest,
        fun before => (valid before).free _, grown.kernelSpace⟩
    · rw [run]
      have isBottom := paging'.bottomLevel paging.current walked.1
      have isTarget : Event.target? s (.fault cr2 errorCode) =
          some ⟨s.kernel.cr3, faultPage cr2, false⟩ := if_pos filter.2.2.2.2
      exact ⟨level', { paging'.leaf isBottom (leafIndex (faultPage cr2))
          (frame * pmmFrameSize + 3) with },
        .leaf isTarget paging.current rfl forest paging' isBottom walked.1 (fun _ => absent)
          (fun clears => absurd clears Bool.false_ne_true) rfl,
        valid, grown.kernelSpace⟩

/-- What one step can do: the invariants hold again, and the tables changed as
the target of the event allows. -/
theorem System.step_next (paging : Paging s.kernel s.spaces level identity) {event : Event}
    (step : Step s event s') : ∃ level', Next s level identity (event.target? s) s' level' := by
  obtain ⟨enabled, rfl⟩ := step
  cases event with
  | alloc =>
      exact ⟨level, .quiet paging paging.allocFrame (fun _ _ => rfl) rfl
        (fun valid => valid.alloc) rfl⟩
  | free pa =>
      have unused : level pa = 0 := by
        by_contra isTable
        exact enabled _ (paging.pageTable_iff.mpr ⟨rfl, isTable⟩)
      exact ⟨level, .quiet paging (paging.freeFrame unused) (fun _ _ => rfl) rfl
        (fun valid => valid.free pa) rfl⟩
  | create => exact System.create_next paging
  | map space va pa flags => exact System.map_next paging enabled.1 va pa flags
  | unmap space va => exact System.unmap_next paging enabled.1 va
  | switch space =>
      have rootLevel := paging.rootLevel enabled
      have notNull : space ≠ 0 := by
        have := paging.aligned (show level space ≠ 0 by omega)
        omega
      have switched : vmSwitch s.kernel space = vmWriteCr3 s.kernel space := if_neg notNull
      simp only [System.apply, switched]
      exact ⟨level, .quiet paging { paging with current := enabled } (fun _ _ => rfl) rfl id rfl⟩
  | fault cr2 errorCode => exact System.fault_next paging cr2 errorCode
  | fill va =>
      simp only [System.apply]
      unfold Kernel.fill
      split
      · exact ⟨level, .quiet paging { paging with } (fun _ _ => rfl) rfl id rfl⟩
      · exact ⟨level, .refl paging⟩
  | store va value =>
      simp only [System.apply]
      cases access : s.kernel.access va with
      | none =>
          rw [Kernel.storeByte, access]
          exact ⟨level, .refl paging⟩
      | some pa =>
          rw [Kernel.storeByte, access]
          have spared : ∀ address, level (address / 4096 * 4096) ≠ 0 →
              Function.update s.kernel.mem pa value address = s.kernel.mem address := by
            intro address isTable
            refine Function.update_of_ne ?_ _ _
            rintro rfl
            exact enabled.2 address access _ (paging.pageTable_iff.mpr ⟨rfl, isTable⟩)
          have unused : ∀ frame ∈ freeSet s.kernel.pmm.bitmap,
              frame ≠ 0 ∧ level (frame * pmmFrameSize) = 0 :=
            fun frame free => ⟨fun zero => paging.reserved (zero ▸ free), paging.not_free free⟩
          exact ⟨level, .quiet paging (paging.congr spared unused rfl paging.current) spared rfl id rfl⟩

end Step

section Change

variable {s s' : System} {level level' : Nat → Nat} {identity : Nat} {target : Option Target}
  {other va : Nat}

/-- A step keeps tables, their levels and their links. -/
theorem Change.keeps (change : Change s level identity target s' level') :
    Keeps (tables s.kernel.mem level) level (tables s'.kernel.mem level') level' := by
  cases change with
  | grow _ forest => exact forest.keeps
  | leaf _ _ _ forest paging' bottomLevel _ _ _ written =>
      refine forest.keeps.trans ?_
      rw [written]
      exact (paging'.setLeaf bottomLevel _ _).keeps paging'.shape
  | create _ add => exact add.keeps

/-- A step keeps the spaces. -/
theorem Change.known (change : Change s level identity target s' level')
    (known : other ∈ s.spaces) : other ∈ s'.spaces := by
  cases change with
  | grow spaces => rwa [spaces]
  | leaf _ _ spaces => rwa [spaces]
  | create spaces => rw [spaces]; exact List.mem_cons_of_mem _ known

/-- No step changes a lookup outside the target page, in any space. -/
theorem Change.lookup_other (paging : Paging s.kernel s.spaces level identity)
    (change : Change s level identity target s' level') (known : other ∈ s.spaces)
    (different : ∀ aim, target = some aim → path va ≠ path aim.va) :
    (tables s'.kernel.mem level').lookup other (path va) =
      (tables s.kernel.mem level).lookup other (path va) := by
  have rootLevel := paging.rootLevel known
  cases change with
  | grow _ forest => exact forest.lookups _ (by omega)
  | leaf isTarget known' _ forest paging' bottomLevel reached _ _ written =>
      rw [written, paging'.lookup_writeLeaf_other known' known bottomLevel reached
        (different _ isTarget)]
      exact forest.lookups _ (by omega)
  | create _ add => exact add.lookup paging.shape _ (by omega)

/-- No step aimed at a private slot of one space changes a lookup of another. -/
theorem Change.lookup_private (paging : Paging s.kernel s.spaces level identity)
    (change : Change s level identity target s' level') (known : other ∈ s.spaces)
    (apart : ∀ aim, target = some aim →
      other ≠ aim.space ∧ ¬ Shared ⟨pml4Index aim.va, pml4Index_lt aim.va⟩) :
    (tables s'.kernel.mem level').lookup other (path va) =
      (tables s.kernel.mem level).lookup other (path va) := by
  have rootLevel := paging.rootLevel known
  cases change with
  | grow _ forest => exact forest.lookups _ (by omega)
  | leaf isTarget known' _ forest paging' bottomLevel reached _ _ written =>
      have apart := apart _ isTarget
      rw [written, paging'.lookup_writeLeaf_private known' known bottomLevel reached apart.1 apart.2]
      exact forest.lookups _ (by omega)
  | create _ add => exact add.lookup paging.shape _ (by omega)

end Change

/-- What holds in every state of a run: the paging invariant, with the same
identity directory throughout, and a consistent allocator. -/
structure Sound (identity : Nat) (s : System) : Prop where
  paging : ∃ level, Paging s.kernel s.spaces level identity
  valid : s.kernel.pmm.Valid

section Run

variable {image : Image} {mbInfo identity : Nat} {s s' : System} {events : List Event}

theorem Started.sound (started : Started image mbInfo s) : Sound image.pd s where
  paging := ⟨image.level, started.2.1 ▸ started.1.state.paging⟩
  valid := started.1.state.valid

theorem Sound.step (sound : Sound identity s) {event : Event} (step : Step s event s') :
    Sound identity s' := by
  obtain ⟨level, paging⟩ := sound.paging
  obtain ⟨level', next⟩ := System.step_next paging step
  exact ⟨⟨level', next.paging⟩, next.valid sound.valid⟩

/-- Every reachable state is sound. -/
theorem Sound.run (sound : Sound identity s) (run : Steps Step s events s') : Sound identity s' :=
  run.invariant (fun sound step => sound.step step) sound

theorem Started.run (started : Started image mbInfo s) (run : Steps Step s events s') :
    Sound image.pd s' :=
  started.sound.run run

end Run

/-- A run that starts from the sample kernel. -/
def sampleSystem : System := ⟨sampleKernel, [0x110000], ∅⟩

section Sample

theorem sample_started : Started sampleImage 0x9000 sampleSystem := ⟨sample_booted, rfl, rfl⟩

theorem sample_frames : 100 ≤ sampleSystem.kernel.pmm.freeFrames := by
  have stretch : Finset.Ico 288 388 ⊆ freeSet sampleKernel.pmm.bitmap := by
    intro frame member
    rw [Finset.mem_Ico] at member
    exact sample_free member.1 (by omega)
  have count := Finset.card_le_card stretch
  rw [Nat.card_Ico] at count
  rw [show sampleSystem.kernel = sampleKernel from rfl, sample_booted.state.valid.count]
  omega

/-- The sample can create a space. -/
theorem sample_created : ∃ s space, Step sampleSystem .create s ∧
    vmCreateSpace sampleSystem.kernel = (s.kernel, space) ∧ space ≠ 0 ∧ space ≠ 0x110000 ∧
    s.spaces = [space, 0x110000] ∧ 99 ≤ s.kernel.pmm.freeFrames := by
  obtain ⟨level, paging⟩ := sample_started.sound.paging
  have frames := sample_frames
  obtain ⟨space, made, notNull, fresh, spaces, left⟩ :=
    System.create_succeeds paging sample_started.sound.valid (by omega)
  exact ⟨_, space, ⟨trivial, rfl⟩, made, notNull,
    fun same => fresh (by rw [same]; exact List.mem_singleton_self _), spaces, by omega⟩

end Sample

end GodOs
