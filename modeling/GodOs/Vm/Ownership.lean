import GodOs.Vm.Coherence

/-!
# Who owns a frame

A frame is in the pool, a page table, a page of the demand-paged heap, held by a
client, or reserved at boot. `Owned` is the invariant behind this partition; every
operation but a served page fault only moves frames between the pool, the tables and
the clients, which `Owned.transport` treats once.
-/

namespace GodOs

open Lib Lib.Forest

/-- The window of the demand-paged heap. -/
def InHeap (va : Nat) : Prop := vmHeapBase ≤ va ∧ va < vmHeapBase + vmHeapSize

instance (va : Nat) : Decidable (InHeap va) := inferInstanceAs (Decidable (_ ∧ _))

/-- Client discipline: free only held frames, map only canonical addresses outside the
heap window, unmap outside it, and write only to held frames. -/
def System.Disciplined (s : System) : Event → Prop
  | .alloc | .create => True
  | .free pa => pa % pmmFrameSize = 0 ∧ pa / pmmFrameSize ∈ s.held
  | .map space va pa flags => space ∈ s.spaces ∧ Canonical va ∧ ¬ InHeap va ∧ pa < 2 ^ 64 ∧
      flags < 2 ^ 64
  | .unmap space va => space ∈ s.spaces ∧ va < 2 ^ 64 ∧ ¬ InHeap va
  | .switch space => space ∈ s.spaces
  | .fault cr2 _ => cr2 < 2 ^ 64
  | .fill va => Canonical va
  | .store va _ => Canonical va ∧ ∀ pa, s.kernel.access va = some pa → pa / pmmFrameSize ∈ s.held

/-- One step of a disciplined system. -/
def OwnStep (s : System) (event : Event) (s' : System) : Prop :=
  s.Disciplined event ∧ s' = s.apply event

/-- The frames of the pool. -/
def System.poolFrames (s : System) : Set Nat := {frame | frame ∈ freeSet s.kernel.pmm.bitmap}

/-- The frames that are page tables of some space. -/
def System.tableFrames (s : System) : Set Nat :=
  {frame | ∃ level, PageTable s.kernel.mem s.spaces level (frame * pmmFrameSize)}

/-- The frames behind the pages of the heap window, in any space. -/
def System.heapFrames (s : System) : Set Nat :=
  {frame | ∃ space ∈ s.spaces, ∃ va, InHeap va ∧
    translatePage s.kernel.mem space va = some (frame * pmmFrameSize, 2 ^ 12)}

/-- The frames that clients hold. -/
def System.heldFrames (s : System) : Set Nat := {frame | frame ∈ s.held}

/-- The frames that `pmm_init` reserves: the low 1 MB, the kernel image and the
multiboot2 structure. -/
def reservedFrames (image : Image) (mbInfo infoEnd : Nat) : Set Nat :=
  {frame | Reserved image.bssEnd mbInfo infoEnd frame}

/-- The frames of the three tables that `boot.asm` places in the kernel image. -/
def Image.bootFrames (image : Image) : Set Nat := {frame | image.level (frame * pmmFrameSize) ≠ 0}

/-- A leaf slot of the heap window that maps a frame. -/
structure HeapSlot (k : Kernel) (spaces : List Nat) (level : Nat → Nat) (bottom : Nat)
    (index : Fin 512) (frame : Nat) : Prop where
  reached : ∃ space ∈ spaces, ∃ va, InHeap va ∧
    (tables k.mem level).descend space (upperPath va) = some bottom
  mapped : ∃ entry, tables k.mem level bottom index = .page entry ∧
    entry &&& vmAddrMask = frame * pmmFrameSize

/-- A frame that is neither in the pool nor a table nor reserved. -/
def DataFrame (reserved : Set Nat) (k : Kernel) (level : Nat → Nat) (frame : Nat) : Prop :=
  frame ∉ freeSet k.pmm.bitmap ∧ level (frame * pmmFrameSize) = 0 ∧ frame ∉ reserved

/-- The ownership invariant: the frames of clients and of heap pages are data frames,
each with one owner, and only boot tables are reserved. -/
structure Owned (image : Image) (reserved : Set Nat) (k : Kernel) (spaces : List Nat)
    (held : Finset Nat) (level : Nat → Nat) : Prop where
  paging : Paging k spaces level image.pd
  pool : ∀ {frame}, frame ∈ freeSet k.pmm.bitmap → frame ∉ reserved
  boot : ∀ {table}, image.level table ≠ 0 → level table ≠ 0
  onlyBoot : ∀ {frame}, level (frame * pmmFrameSize) ≠ 0 → frame ∈ reserved →
    image.level (frame * pmmFrameSize) ≠ 0
  client : ∀ {frame}, frame ∈ held → DataFrame reserved k level frame
  heap : ∀ {bottom index frame}, HeapSlot k spaces level bottom index frame →
    DataFrame reserved k level frame ∧ frame ∉ held
  single : ∀ {bottom index bottom' index' frame}, HeapSlot k spaces level bottom index frame →
    HeapSlot k spaces level bottom' index' frame → bottom = bottom' ∧ index = index'

section Transport

variable {image : Image} {reserved : Set Nat} {k k' : Kernel} {spaces spaces' : List Nat}
  {held held' : Finset Nat} {level level' : Nat → Nat}

/-- Ownership survives when new tables come from the pool, frames enter the pool only
from clients and leave it to clients or tables, and no heap slot is new. -/
theorem Owned.transport (owned : Owned image reserved k spaces held level)
    (paging : Paging k' spaces' level' image.pd)
    (levels : ∀ {table}, level table ≠ 0 → level' table = level table)
    (fresh : ∀ {frame}, level (frame * pmmFrameSize) = 0 → level' (frame * pmmFrameSize) ≠ 0 →
      frame ∈ freeSet k.pmm.bitmap)
    (given : ∀ {frame}, frame ∈ freeSet k'.pmm.bitmap →
      frame ∈ freeSet k.pmm.bitmap ∨ frame ∈ held ∧ frame ∉ held')
    (taken : ∀ {frame}, frame ∈ held' → frame ∈ held ∨ frame ∈ freeSet k.pmm.bitmap ∧
      frame ∉ freeSet k'.pmm.bitmap ∧ level' (frame * pmmFrameSize) = 0)
    (slots : ∀ {bottom index frame}, HeapSlot k' spaces' level' bottom index frame →
      HeapSlot k spaces level bottom index frame) :
    Owned image reserved k' spaces' held' level' := by
  have unused : ∀ {frame}, DataFrame reserved k level frame → level' (frame * pmmFrameSize) = 0 := by
    intro frame data
    by_contra isTable
    exact data.1 (fresh data.2.1 isTable)
  refine
    { paging := paging, pool := ?_, boot := ?_, onlyBoot := ?_, client := ?_, heap := ?_,
      single := fun slot slot' => owned.single (slots slot) (slots slot') }
  · intro frame free
    rcases given free with old | ⟨wasHeld, _⟩
    · exact owned.pool old
    · exact (owned.client wasHeld).2.2
  · intro table isBoot
    rw [levels (owned.boot isBoot)]
    exact owned.boot isBoot
  · intro frame isTable isReserved
    by_cases old : level (frame * pmmFrameSize) = 0
    · exact absurd isReserved (owned.pool (fresh old isTable))
    · exact owned.onlyBoot old isReserved
  · intro frame isHeld
    rcases taken isHeld with old | ⟨wasFree, isUsed, isData⟩
    · have data := owned.client old
      refine ⟨fun free => ?_, unused data, data.2.2⟩
      rcases given free with wasFree | ⟨_, notHeld⟩
      · exact data.1 wasFree
      · exact notHeld isHeld
    · exact ⟨isUsed, isData, owned.pool wasFree⟩
  · intro bottom index frame slot
    obtain ⟨data, notHeld⟩ := owned.heap (slots slot)
    refine ⟨⟨fun free => ?_, unused data, data.2.2⟩, fun isHeld => ?_⟩
    · rcases given free with wasFree | ⟨wasHeld, _⟩
      · exact data.1 wasFree
      · exact notHeld wasHeld
    · rcases taken isHeld with old | ⟨wasFree, _⟩
      · exact notHeld old
      · exact data.1 wasFree

/-- A bottom table that a later forest reaches was reached before by the same path. -/
theorem Paging.descend_back {identity : Nat} (paging : Paging k spaces level identity)
    (paging' : Paging k' spaces' level' identity)
    (keeps : Keeps (tables k.mem level) level (tables k'.mem level') level')
    (known : ∀ {space}, space ∈ spaces → space ∈ spaces')
    {space bottom va : Nat} (isSpace : space ∈ spaces')
    (reached : (tables k'.mem level').descend space (upperPath va) = some bottom)
    (old : level bottom ≠ 0) :
    ∃ space ∈ spaces, (tables k.mem level).descend space (upperPath va) = some bottom := by
  obtain ⟨space', isOld, path, reached'⟩ := paging.rooted old
  have root := paging.rootLevel isOld
  have root₁ := paging'.rootLevel isSpace
  have root₂ := paging'.rootLevel (known isOld)
  have kept := keeps.descend paging.shape (by omega) reached'
  have isBottom := paging'.bottomLevel isSpace reached
  have lengths := (paging'.shape.descend_level (by omega) kept).2
  have same := (paging'.shape.descend_unique (by decide) root₁ root₂ reached kept
    (by rw [upperPath_length]; omega)).1
  exact ⟨space', isOld, by rw [same]; exact reached'⟩

/-- Growth makes no heap slot. -/
theorem HeapSlot.grown {identity bottom frame : Nat} {index : Fin 512}
    (slot : HeapSlot k' spaces level' bottom index frame) (grown : Grown k level k' level')
    (paging : Paging k spaces level identity) (paging' : Paging k' spaces level' identity) :
    HeapSlot k spaces level bottom index frame := by
  obtain ⟨⟨space, known, va, inHeap, reached⟩, entry, page, address⟩ := slot
  have isBottom := paging'.bottomLevel known reached
  obtain ⟨old, oldPage⟩ := grown.forest.pages (by omega) page
  obtain ⟨space', known', reached'⟩ :=
    paging.descend_back paging' grown.forest.keeps id known reached old
  exact ⟨⟨space', known', va, inHeap, reached'⟩, entry, oldPage, address⟩

/-- Heap slots depend on the slots of tables only. -/
theorem HeapSlot.congr {identity bottom frame : Nat} {index : Fin 512}
    (slot : HeapSlot k' spaces level bottom index frame) (paging : Paging k spaces level identity)
    (same : ∀ {table index}, level table ≠ 0 →
      tables k'.mem level table index = tables k.mem level table index) :
    HeapSlot k spaces level bottom index frame := by
  obtain ⟨⟨space, known, va, inHeap, reached⟩, entry, page, address⟩ := slot
  have root := paging.rootLevel known
  rw [paging.shape.descend_congr same _ (by omega)] at reached
  have isBottom := paging.bottomLevel known reached
  rw [same (by omega)] at page
  exact ⟨⟨space, known, va, inHeap, reached⟩, entry, page, address⟩

/-- A step that keeps the pool, the clients and the slots of the tables keeps the owners. -/
theorem Owned.quiet (owned : Owned image reserved k spaces held level)
    (paging : Paging k' spaces level image.pd) (pmm : k'.pmm = k.pmm)
    (same : ∀ {table index}, level table ≠ 0 →
      tables k'.mem level table index = tables k.mem level table index) :
    Owned image reserved k' spaces held level :=
  owned.transport paging (fun _ => rfl) (fun unused used => absurd unused used)
    (fun free => .inl (pmm ▸ free)) .inl fun slot => slot.congr owned.paging same

/-- A frame taken from the pool goes to a client. -/
theorem Owned.take (owned : Owned image reserved k spaces held level) {frame : Nat}
    (free : frame ∈ freeSet k.pmm.bitmap) (paging : Paging k' spaces level image.pd)
    (pmm : k'.pmm = pmmTake k.pmm frame)
    (same : ∀ {table index}, level table ≠ 0 →
      tables k'.mem level table index = tables k.mem level table index) :
    Owned image reserved k' spaces (insert frame held) level := by
  have pool : freeSet k'.pmm.bitmap = (freeSet k.pmm.bitmap).erase frame := by
    rw [pmm]
    exact freeSet_set _ _
  refine owned.transport paging (fun _ => rfl) (fun unused used => absurd unused used) ?_ ?_
    fun slot => slot.congr owned.paging same
  · intro other stays
    rw [pool] at stays
    exact .inl (Finset.mem_of_mem_erase stays)
  · intro other isHeld
    rcases Finset.mem_insert.mp isHeld with rfl | old
    · exact .inr ⟨free, by simp [pool], owned.paging.not_free free⟩
    · exact .inl old

/-- A frame that a client gives back enters the pool. -/
theorem Owned.give (owned : Owned image reserved k spaces held level) {frame : Nat}
    (isHeld : frame ∈ held) :
    Owned image reserved (k.freeFrame (frame * pmmFrameSize)) spaces (held.erase frame) level := by
  have data := owned.client isHeld
  refine owned.transport (owned.paging.freeFrame data.2.1) (fun _ => rfl)
    (fun unused used => absurd unused used) ?_ (fun stays => .inl (Finset.mem_of_mem_erase stays))
    fun slot => slot.congr owned.paging fun _ => rfl
  intro other free
  rcases mem_freeSet_pmmFreeFrame.mp free with old | ⟨_, _, _, rfl⟩
  · exact .inl old
  · rw [Nat.mul_div_cancel _ (by decide)]
    exact .inr ⟨isHeld, Finset.notMem_erase _ _⟩

/-- Tables come from the pool. -/
theorem Owned.grown (owned : Owned image reserved k spaces held level)
    (grown : Grown k level k' level') (paging : Paging k' spaces level' image.pd) :
    Owned image reserved k' spaces held level' := by
  refine owned.transport paging grown.forest.levels ?_ (fun free => .inl (grown.free.mp free).1) .inl
    fun slot => slot.grown grown owned.paging paging
  intro frame unused used
  obtain ⟨other, free, same⟩ := grown.fresh unused used
  have : frame = other := by
    simp only [pmmFrameSize] at same
    omega
  rwa [this]

/-- A new space takes one frame from the pool. -/
theorem Owned.create (owned : Owned image reserved k spaces held level) {frame : Nat}
    (free : frame ∈ freeSet k.pmm.bitmap) :
    Owned image reserved (newSpace k frame) (frame * pmmFrameSize :: spaces) held
      (newLevel level frame) := by
  have add := owned.paging.addRoot free
  have paging := owned.paging.created free
  refine owned.transport paging add.keeps.levels ?_ ?_ .inl ?_
  · intro other unused used
    by_cases isFresh : other * pmmFrameSize = frame * pmmFrameSize
    · have : other = frame := by
        simp only [pmmFrameSize] at isFresh
        omega
      rwa [this]
    · rw [add.levels isFresh] at used
      exact absurd unused used
  · intro other stays
    simp only [newSpace_pmm, pmmTake, freeSet_set] at stays
    exact .inl (Finset.mem_of_mem_erase stays)
  · rintro bottom index other ⟨⟨space, known, va, inHeap, reached⟩, entry, page, address⟩
    have isBottom := paging.bottomLevel known reached
    have notFresh : bottom ≠ frame * pmmFrameSize := by
      rintro rfl
      rw [add.freshLevel] at isBottom
      cases isBottom
    rw [add.levels notFresh] at isBottom
    obtain ⟨space', known', reached'⟩ := owned.paging.descend_back paging add.keeps
      (List.mem_cons_of_mem _) known reached (by omega)
    rw [add.same (by omega)] at page
    exact ⟨⟨space', known', va, inHeap, reached'⟩, entry, page, address⟩

/-- Addresses below one bottom table are in the heap window together. -/
theorem inHeap_of_upperPath {va va' : Nat} (canonical : Canonical va) (inHeap : InHeap va')
    (same : upperPath va = upperPath va') : InHeap va := by
  simp only [upperPath, List.cons.injEq, Fin.mk.injEq, pml4Index_eq, pdptIndex_eq, pdIndex_eq] at same
  simp only [InHeap, vmHeapBase, vmHeapSize] at inHeap ⊢
  unfold Canonical at canonical
  omega

/-- Clearing a leaf, or writing one outside the heap window, makes no heap slot. -/
theorem Owned.leaf (owned : Owned image reserved k spaces held level) {space va bottom : Nat}
    (known : space ∈ spaces)
    (reached : (tables k.mem level).descend space (upperPath va) = some bottom) (value : Nat)
    (outside : value = 0 ∨ Canonical va ∧ ¬ InHeap va) :
    Owned image reserved (writeLeaf k bottom (leafIndex va) value) spaces held level := by
  have isBottom := owned.paging.bottomLevel known reached
  have edit := owned.paging.setLeaf isBottom (leafIndex va) value
  refine owned.transport (owned.paging.leaf isBottom _ _) (fun _ => rfl)
    (fun unused used => absurd unused used) .inl .inl ?_
  rintro other index frame ⟨⟨space', known', va', inHeap, reached'⟩, entry, page, address⟩
  have root := owned.paging.rootLevel known
  have root' := owned.paging.rootLevel known'
  rw [edit.descend owned.paging.shape (by omega)] at reached'
  have isBottom' := owned.paging.bottomLevel known' reached'
  refine ⟨⟨space', known', va', inHeap, reached'⟩, entry, ?_, address⟩
  by_cases here : other = bottom ∧ index = leafIndex va
  · obtain ⟨rfl, rfl⟩ := here
    rcases outside with rfl | ⟨canonical, notHeap⟩
    · rw [edit.written] at page
      cases page
    · have same := (owned.paging.shape.descend_unique (by decide) root root' reached reached'
        (by rw [upperPath_length, upperPath_length])).1
      exact absurd (inHeap_of_upperPath canonical inHeap same) notHeap
  · rw [← edit.same (by omega) (by tauto)]
    exact page

/-- The leaf that the page-fault handler writes moves its frame to the heap. -/
theorem Owned.mapHeap {frame space va bottom : Nat}
    (owned : Owned image reserved k spaces (insert frame held) level) (notHeld : frame ∉ held)
    (small : frame < pmmFrameCount) (known : space ∈ spaces)
    (reached : (tables k.mem level).descend space (upperPath va) = some bottom) :
    Owned image reserved (writeLeaf k bottom (leafIndex va) (frame * pmmFrameSize + 3)) spaces held
      level := by
  have isBottom := owned.paging.bottomLevel known reached
  have edit := owned.paging.setLeaf isBottom (leafIndex va) (frame * pmmFrameSize + 3)
  have data := owned.client (Finset.mem_insert_self frame held)
  have frameOf : ∀ {other}, HeapSlot (writeLeaf k bottom (leafIndex va) (frame * pmmFrameSize + 3))
      spaces level bottom (leafIndex va) other → other = frame := by
    rintro other ⟨_, entry, page, address⟩
    simp only [pmmFrameCount, pmmMaxPhys, pmmFrameSize] at small address page edit
    rw [edit.written, u64_of_lt (by omega)] at page
    obtain ⟨_, _, rfl⟩ := decode_eq_page.mp page
    rw [addrMask_eq] at address
    omega
  -- every other slot of the window is old
  have slots : ∀ {other index frame'}, HeapSlot (writeLeaf k bottom (leafIndex va)
      (frame * pmmFrameSize + 3)) spaces level other index frame' →
      other ≠ bottom ∨ index ≠ leafIndex va → HeapSlot k spaces level other index frame' := by
    rintro other index frame' ⟨⟨space', known', va', inHeap', reached'⟩, entry, page, address⟩ elsewhere
    have root' := owned.paging.rootLevel known'
    rw [edit.descend owned.paging.shape (by omega)] at reached'
    have isBottom' := owned.paging.bottomLevel known' reached'
    rw [edit.same (by omega) elsewhere] at page
    exact ⟨⟨space', known', va', inHeap', reached'⟩, entry, page, address⟩
  have otherFrame : ∀ {other index frame'}, HeapSlot (writeLeaf k bottom (leafIndex va)
      (frame * pmmFrameSize + 3)) spaces level other index frame' →
      other ≠ bottom ∨ index ≠ leafIndex va → frame' ≠ frame := by
    rintro other index frame' slot elsewhere rfl
    exact (owned.heap (slots slot elsewhere)).2 (Finset.mem_insert_self _ _)
  have place : ∀ {other : Nat} {index : Fin 512}, other = bottom ∧ index = leafIndex va ∨
      (other ≠ bottom ∨ index ≠ leafIndex va) := by
    intro other index
    tauto
  refine
    { paging := owned.paging.leaf isBottom _ _, pool := owned.pool, boot := owned.boot,
      onlyBoot := owned.onlyBoot,
      client := fun isHeld => owned.client (Finset.mem_insert_of_mem isHeld), heap := ?_,
      single := ?_ }
  · intro other index frame' slot
    rcases @place other index with ⟨rfl, rfl⟩ | elsewhere
    · rw [frameOf slot]
      exact ⟨data, notHeld⟩
    · have old := owned.heap (slots slot elsewhere)
      exact ⟨old.1, fun isHeld => old.2 (Finset.mem_insert_of_mem isHeld)⟩
  · intro first index second index' frame' slot slot'
    rcases @place first index with ⟨rfl, rfl⟩ | elsewhere
    · rcases @place second index' with ⟨rfl, rfl⟩ | elsewhere'
      · exact ⟨rfl, rfl⟩
      · exact absurd (frameOf slot) (otherFrame slot' elsewhere')
    · rcases @place second index' with ⟨rfl, rfl⟩ | elsewhere'
      · exact absurd (frameOf slot') (otherFrame slot elsewhere)
      · exact owned.single (slots slot elsewhere) (slots slot' elsewhere')

end Transport

section Step

variable {image : Image} {reserved : Set Nat} {s s' : System} {level : Nat → Nat}

/-- The owners in a state of the system. -/
abbrev System.Owned (image : Image) (reserved : Set Nat) (s : System) (level : Nat → Nat) : Prop :=
  GodOs.Owned image reserved s.kernel s.spaces s.held level

theorem Owned.alloc_step (owned : s.Owned image reserved level) :
    (s.apply .alloc).Owned image reserved level := by
  rcases pmmAllocFrame_cases s.kernel.pmm with ⟨frame, free, taken⟩ | failed
  · have nonzero : frame ≠ 0 := by
      rintro rfl
      exact owned.paging.reserved free
    have address : frame * pmmFrameSize ≠ 0 := by simpa [pmmFrameSize] using nonzero
    have paging := owned.paging.allocFrame
    rw [Kernel.allocFrame_eq taken] at paging
    have result := owned.take free paging rfl fun _ => rfl
    simpa only [System.Owned, System.apply, Kernel.allocFrame_eq taken, if_neg address,
      Nat.mul_div_cancel _ (show 0 < pmmFrameSize by decide)] using result
  · simpa only [System.Owned, System.apply, Kernel.allocFrame_eq failed, if_true] using owned

theorem Owned.create_step (owned : s.Owned image reserved level) :
    ∃ level', (s.apply .create).Owned image reserved level' := by
  simp only [System.Owned, System.apply]
  rcases owned.paging.vmCreateSpace_cases with ⟨_, run⟩ | ⟨frame, free, nonzero, _, run⟩
  · rw [run]
    exact ⟨level, owned⟩
  · have address : frame * pmmFrameSize ≠ 0 := by simpa [pmmFrameSize] using nonzero
    rw [run]
    simp only [if_neg address]
    exact ⟨_, owned.create free⟩

theorem Owned.map_step (owned : s.Owned image reserved level) {space va pa flags : Nat}
    (known : space ∈ s.spaces) (canonical : Canonical va) (outside : ¬ InHeap va) :
    ∃ level', (s.apply (.map space va pa flags)).Owned image reserved level' := by
  simp only [System.Owned, System.apply]
  rcases owned.paging.vmMap_cases known va pa flags with
    ⟨_, run⟩ | ⟨_, k', level', paging', grown, _, ⟨_, run⟩ | ⟨bottom, walked, _, run⟩⟩
  · rw [run]
    exact ⟨level, owned⟩
  · rw [run]
    exact ⟨level', owned.grown grown paging'⟩
  · rw [run]
    have written := (owned.grown grown paging').leaf known walked.1
      ((pa &&& vmAddrMask) ||| flags) (.inr ⟨canonical, outside⟩)
    exact ⟨level', written.quiet (written.paging.invlpg va) rfl fun _ => rfl⟩

theorem Owned.unmap_step (owned : s.Owned image reserved level) {space va : Nat}
    (known : space ∈ s.spaces) : (s.apply (.unmap space va)).Owned image reserved level := by
  simp only [System.Owned, System.apply]
  rcases owned.paging.vmUnmap_cases known va with ⟨_, run⟩ | ⟨bottom, entry, reached, _, _, run⟩
  · rw [run]
    exact owned
  · rw [run]
    have written := owned.leaf known reached 0 (.inl rfl)
    exact written.quiet (written.paging.invlpg va) rfl fun _ => rfl

/-- A served fault moves a frame from the pool to the heap, and a refused one at most
moves frames from the pool to the tables. -/
theorem Owned.fault_step (owned : s.Owned image reserved level) (cr2 errorCode : Nat) :
    ∃ level', (s.apply (.fault cr2 errorCode)).Owned image reserved level' := by
  simp only [System.Owned, System.apply]
  rcases owned.paging.vmHandlePageFault_cases cr2 errorCode with
    ⟨_, run⟩ | ⟨_, _, run⟩ | ⟨_, frame, free, _, k', level', paging', grown, _, outcome⟩
  · rw [run]
    exact ⟨level, owned⟩
  · rw [run]
    exact ⟨level, owned⟩
  have notHeld : frame ∉ s.held := fun isHeld => (owned.client isHeld).1 free
  have start := owned.take free (owned.paging.atFault free) rfl fun {table index} isTable =>
    owned.paging.tables_congr (fun _ => owned.paging.faultStart_bytes free) isTable
  have walked := start.grown grown paging'
  rcases outcome with ⟨_, run⟩ | ⟨bottom, reached, _, run⟩
  · rw [run]
    have back := walked.give (Finset.mem_insert_self _ _)
    rw [Finset.erase_insert notHeld] at back
    exact ⟨level', back.quiet { back.paging with } rfl fun _ => rfl⟩
  · rw [run]
    have written := walked.mapHeap notHeld (mem_freeSet.mp free).1 owned.paging.current reached.1
    exact ⟨level', written.quiet { written.paging with } rfl fun _ => rfl⟩

/-- A byte written outside the tables changes no owner. -/
theorem Owned.store_step (owned : s.Owned image reserved level) {va : Nat} {value : UInt8}
    (unused : ∀ pa, s.kernel.access va = some pa → level (pa / 4096 * 4096) = 0) :
    (s.apply (.store va value)).Owned image reserved level := by
  simp only [System.Owned, System.apply]
  cases access : s.kernel.access va with
  | none =>
      rw [Kernel.storeByte, access]
      exact owned
  | some pa =>
      rw [Kernel.storeByte, access]
      have spared : ∀ address, level (address / 4096 * 4096) ≠ 0 →
          Function.update s.kernel.mem pa value address = s.kernel.mem address := by
        intro address isTable
        refine Function.update_of_ne ?_ _ _
        rintro rfl
        exact isTable (unused address access)
      refine owned.quiet (owned.paging.congr spared (fun frame free => ?_) rfl owned.paging.current) rfl
        fun isTable => owned.paging.tables_congr spared isTable
      exact ⟨fun zero => owned.paging.reserved (zero ▸ free), owned.paging.not_free free⟩

/-- Every step of a disciplined system keeps the ownership invariant. -/
theorem Owned.step (owned : s.Owned image reserved level) {event : Event}
    (step : OwnStep s event s') : ∃ level', s'.Owned image reserved level' := by
  obtain ⟨allowed, rfl⟩ := step
  cases event with
  | alloc => exact ⟨level, owned.alloc_step⟩
  | free pa =>
      have result := owned.give allowed.2
      rw [Nat.div_mul_cancel (Nat.dvd_of_mod_eq_zero allowed.1)] at result
      exact ⟨level, result⟩
  | create => exact owned.create_step
  | map => exact owned.map_step allowed.1 allowed.2.1 allowed.2.2.1
  | unmap => exact ⟨level, owned.unmap_step allowed.1⟩
  | switch space =>
      have root := owned.paging.rootLevel allowed
      have notNull : space ≠ 0 := by
        have := owned.paging.aligned (show level space ≠ 0 by omega)
        omega
      have switched : vmSwitch s.kernel space = vmWriteCr3 s.kernel space := if_neg notNull
      simp only [System.Owned, System.apply, switched]
      exact ⟨level, owned.quiet { owned.paging with current := allowed } rfl fun _ => rfl⟩
  | fault cr2 errorCode => exact owned.fault_step cr2 errorCode
  | fill va =>
      simp only [System.Owned, System.apply]
      unfold Kernel.fill
      split
      · exact ⟨level, owned.quiet { owned.paging with } rfl fun _ => rfl⟩
      · exact ⟨level, owned⟩
  | store => exact ⟨level, owned.store_step fun pa access => (owned.client (allowed.2 pa access)).2.1⟩

end Step

section Partition

variable {image : Image} {mbInfo : Nat} {reserved : Set Nat} {start s : System}
  {level : Nat → Nat} {events : List Event} {frame : Nat}

theorem InHeap.canonical {va : Nat} (inHeap : InHeap va) : Canonical va := by
  simp only [InHeap, vmHeapBase, vmHeapSize] at inHeap
  unfold Canonical
  omega

/-- After boot the reserved frames are outside the pool, and only boot tables exist. -/
theorem Started.owned (started : Started image mbInfo start) :
    start.Owned image (reservedFrames image mbInfo start.kernel.pmm.infoEnd) image.level := by
  obtain ⟨booted, spaces, held⟩ := started
  have paging : Paging start.kernel start.spaces image.level image.pd := spaces ▸ booted.state.paging
  have noSlot : ∀ {bottom index frame},
      ¬ HeapSlot start.kernel start.spaces image.level bottom index frame := by
    rintro bottom index frame ⟨⟨space, known, va, _, reached⟩, _⟩
    have isBottom := paging.bottomLevel known reached
    rcases image.level_cases (show image.level bottom ≠ 0 by omega) with
      ⟨_, upper⟩ | ⟨_, upper⟩ | ⟨_, upper⟩ <;> omega
  refine
    { paging := paging, pool := fun free isReserved => booted.state.reserved isReserved free,
      boot := id, onlyBoot := fun isTable _ => isTable, client := ?_,
      heap := fun slot => absurd slot noSlot, single := fun slot => absurd slot noSlot }
  intro frame isHeld
  rw [held] at isHeld
  exact absurd isHeld (Finset.notMem_empty _)

theorem Started.owned_run (started : Started image mbInfo start)
    (run : Steps OwnStep start events s) :
    ∃ level, s.Owned image (reservedFrames image mbInfo start.kernel.pmm.infoEnd) level := by
  induction run with
  | refl => exact ⟨_, started.owned⟩
  | snoc _ last ih =>
      obtain ⟨level, owned⟩ := ih
      exact owned.step last

theorem Owned.mem_tableFrames (owned : s.Owned image reserved level) :
    frame ∈ s.tableFrames ↔ level (frame * pmmFrameSize) ≠ 0 := by
  simp only [System.tableFrames, Set.mem_ofPred_eq, owned.paging.pageTable_iff]
  constructor
  · rintro ⟨n, isLevel, nonzero⟩
    omega
  · exact fun isTable => ⟨_, rfl, isTable⟩

/-- A small page of the heap window is mapped by a heap slot, the one that a walk finds. -/
theorem Owned.heapSlot (owned : s.Owned image reserved level) {space va : Nat}
    (known : space ∈ s.spaces) (inHeap : InHeap va)
    (mapped : translatePage s.kernel.mem space va = some (frame * pmmFrameSize, 2 ^ 12)) :
    ∃ bottom, HeapSlot s.kernel s.spaces level bottom (leafIndex va) frame ∧
      (vmWalk s.kernel space va false).2 = bottom + 8 * leafIndex va := by
  obtain ⟨entry, found, address⟩ := (owned.paging.smallPage_iff known inHeap.canonical).mp mapped
  rw [path_eq] at found
  obtain ⟨bottom, reached, page⟩ := Store.lookup_snoc_full found
  refine ⟨bottom, ⟨⟨space, known, va, inHeap, reached⟩, entry, page, address⟩, ?_⟩
  rw [owned.paging.vmWalk_false known, reached]

/-- **Every frame has one owner.** In every reachable state the pool, the page tables,
the heap pages, the clients and the reserved frames share no frame, but for the three
boot tables, which are reserved. A page table is the target of one entry, but for the
PML4 slots that spaces share, and a frame of the heap is mapped by one leaf slot. -/
theorem frames_partitioned (started : Started image mbInfo start)
    (run : Steps OwnStep start events s) :
    List.Pairwise Disjoint [s.poolFrames, s.tableFrames \ image.bootFrames, s.heapFrames,
      s.heldFrames, reservedFrames image mbInfo start.kernel.pmm.infoEnd] ∧
    image.bootFrames ⊆
      s.tableFrames ∩ reservedFrames image mbInfo start.kernel.pmm.infoEnd ∧
    (∀ {n n' table table' : Nat} {index index' : Fin 512},
      PageTable s.kernel.mem s.spaces (n + 2) table →
      PageTable s.kernel.mem s.spaces (n' + 2) table' →
      entryAt s.kernel.mem table index &&& vmPtePresent ≠ 0 →
      entryAt s.kernel.mem table index &&& vmPteHuge = 0 →
      entryAt s.kernel.mem table' index' &&& vmPtePresent ≠ 0 →
      entryAt s.kernel.mem table' index' &&& vmPteHuge = 0 →
      entryAt s.kernel.mem table index &&& vmAddrMask =
        entryAt s.kernel.mem table' index' &&& vmAddrMask →
      index = index' ∧
        (table = table' ∨ table ∈ s.spaces ∧ table' ∈ s.spaces ∧ Shared index)) ∧
    ∀ {space space' va va' frame : Nat}, space ∈ s.spaces → space' ∈ s.spaces → InHeap va →
      InHeap va' → translatePage s.kernel.mem space va = some (frame * pmmFrameSize, 2 ^ 12) →
      translatePage s.kernel.mem space' va' = some (frame * pmmFrameSize, 2 ^ 12) →
      (vmWalk s.kernel space va false).2 = (vmWalk s.kernel space' va' false).2 := by
  obtain ⟨level, owned⟩ := started.owned_run run
  have heap : ∀ {frame}, frame ∈ s.heapFrames →
      DataFrame (reservedFrames image mbInfo start.kernel.pmm.infoEnd) s.kernel level frame ∧
        frame ∉ s.held := by
    rintro frame ⟨space, known, va, inHeap, mapped⟩
    obtain ⟨bottom, slot, _⟩ := owned.heapSlot known inHeap mapped
    exact owned.heap slot
  refine ⟨?_, ?_, ?_, ?_⟩
  · simp only [List.pairwise_cons, List.mem_cons, List.not_mem_nil, or_false, forall_eq_or_imp,
      forall_eq, Set.disjoint_left, List.Pairwise.nil, and_true, IsEmpty.forall_iff, implies_true]
    refine ⟨⟨?_, ?_, ?_, ?_⟩, ⟨?_, ?_, ?_⟩, ⟨?_, ?_⟩, ?_⟩
    · exact fun frame free isTable => owned.mem_tableFrames.mp isTable.1 (owned.paging.not_free free)
    · exact fun frame free isHeap => (heap isHeap).1.1 free
    · exact fun frame free isHeld => (owned.client isHeld).1 free
    · exact fun frame free isReserved => owned.pool free isReserved
    · exact fun frame isTable isHeap => owned.mem_tableFrames.mp isTable.1 (heap isHeap).1.2.1
    · exact fun frame isTable isHeld =>
        owned.mem_tableFrames.mp isTable.1 (owned.client isHeld).2.1
    · exact fun frame isTable isReserved =>
        isTable.2 (owned.onlyBoot (owned.mem_tableFrames.mp isTable.1) isReserved)
    · exact fun frame isHeap isHeld => (heap isHeap).2 isHeld
    · exact fun frame isHeap isReserved => (heap isHeap).1.2.2 isReserved
    · exact fun frame isHeld isReserved => (owned.client isHeld).2.2 isReserved
  · intro frame isBoot
    refine ⟨owned.mem_tableFrames.mpr (owned.boot isBoot), .inl ?_⟩
    have inside := image.inside
    have places : image.pdpt = image.pml4 + 0x1000 ∧ image.pd = image.pml4 + 0x2000 := ⟨rfl, rfl⟩
    rcases image.level_cases isBoot with ⟨place, _⟩ | ⟨place, _⟩ | ⟨place, _⟩ <;> omega
  · intro n n' table table' index index' isTable isTable' present small present' small' same
    have upper := owned.paging.pageTable_iff.mp isTable
    have upper' := owned.paging.pageTable_iff.mp isTable'
    have slot : tables s.kernel.mem level table index =
        .table (entryAt s.kernel.mem table index &&& vmAddrMask) :=
      decode_eq_table.mpr ⟨present, by omega, small, rfl⟩
    have slot' : tables s.kernel.mem level table' index' =
        .table (entryAt s.kernel.mem table index &&& vmAddrMask) :=
      decode_eq_table.mpr ⟨present', by omega, small', same⟩
    obtain ⟨sameIndex, one⟩ := owned.paging.shape.parent (by omega) (by omega) slot slot'
    exact ⟨sameIndex, one.imp id fun top =>
      ⟨owned.paging.root.mp top.1, owned.paging.root.mp top.2.1, top.2.2⟩⟩
  · intro space space' va va' frame known known' inHeap inHeap' mapped mapped'
    obtain ⟨bottom, slot, walked⟩ := owned.heapSlot known inHeap mapped
    obtain ⟨bottom', slot', walked'⟩ := owned.heapSlot known' inHeap' mapped'
    obtain ⟨sameTable, sameIndex⟩ := owned.single slot slot'
    rw [walked, walked', sameTable, sameIndex]

theorem frames_partitioned_sample : ∃ s,
    Steps OwnStep sampleSystem [.alloc, .fault vmHeapBase 2] s ∧
      Disjoint s.poolFrames s.heapFrames := by
  have allocated : OwnStep sampleSystem .alloc (sampleSystem.apply .alloc) := ⟨trivial, rfl⟩
  have run := (Steps.single allocated).snoc
    (show OwnStep _ (.fault vmHeapBase 2) _ from ⟨show vmHeapBase < 2 ^ 64 by decide, rfl⟩)
  have partition := (frames_partitioned sample_started run).1
  simp only [List.pairwise_cons, List.mem_cons, forall_eq_or_imp] at partition
  exact ⟨_, run, partition.1.2.1⟩

/-- The PML4 that the kernel boots with is a page table inside the kernel image. -/
theorem boot_tables_reserved : Started sampleImage 0x9000 sampleSystem ∧
    Steps OwnStep sampleSystem [] sampleSystem ∧
    ¬ List.Pairwise Disjoint [sampleSystem.poolFrames, sampleSystem.tableFrames,
      sampleSystem.heapFrames, sampleSystem.heldFrames,
      reservedFrames sampleImage 0x9000 sampleSystem.kernel.pmm.infoEnd] := by
  refine ⟨sample_started, .refl, fun disjoint => ?_⟩
  simp only [List.pairwise_cons, List.mem_cons, forall_eq_or_imp] at disjoint
  have apart := disjoint.2.1.2.2.1
  have isTable : 0x110 ∈ sampleSystem.tableFrames :=
    ⟨4, .root (show 0x110 * pmmFrameSize ∈ [0x110000] by decide)⟩
  have isReserved : 0x110 ∈ reservedFrames sampleImage 0x9000 sampleSystem.kernel.pmm.infoEnd :=
    .inl (by decide)
  exact Set.disjoint_left.mp apart isTable isReserved

end Partition

end GodOs
