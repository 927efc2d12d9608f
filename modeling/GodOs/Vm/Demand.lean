import GodOs.Vm.Ownership

/-!
# The demand-paged heap is a flat array

The program reads and writes the heap window; pages appear on the first touch, through
the page-fault handler. `Demand` relates the system to one array that all spaces share,
and `Demand.step` says that each step of the system is a step of the array, or none.
-/

namespace GodOs

open Lib Lib.Forest

/-- What the heap window stands for: its bytes by address, and the pages touched. -/
structure FlatArray where
  bytes : Nat → UInt8
  touched : Finset Nat

/-- An access to the heap window, with the bytes read or written from an address up. -/
inductive HeapAccess where
  | read (va : Nat) (bytes : List UInt8)
  | write (va : Nat) (bytes : List UInt8)
deriving DecidableEq

/-- The pages of `width` bytes from `va`. -/
def pagesOf (va width : Nat) : Finset Nat :=
  (Finset.range width).image fun offset => pageNumber (va + offset)

/-- Bytes written from an address up. -/
def writeBytes (bytes : Nat → UInt8) (va : Nat) : List UInt8 → Nat → UInt8
  | [] => bytes
  | value :: rest => writeBytes (Function.update bytes va value) (va + 1) rest

/-- One access to the array. -/
inductive FlatStep : FlatArray → HeapAccess → FlatArray → Prop where
  | read (array : FlatArray) (va width : Nat) :
      FlatStep array (.read va ((List.range width).map fun offset => array.bytes (va + offset)))
        { array with touched := array.touched ∪ pagesOf va width }
  | write (array : FlatArray) (va : Nat) (bytes : List UInt8) :
      FlatStep array (.write va bytes)
        ⟨writeBytes array.bytes va bytes, array.touched ∪ pagesOf va bytes.length⟩

/-- The zeroed array. -/
def FlatArray.zero : FlatArray := ⟨fun _ => 0, ∅⟩

/-- The page faults of an access of `width` bytes at `va`: each byte without a
translation raises one, with CR2 at that byte, and the access is retried when the
handler has served it. -/
inductive Served (errorCode va width : Nat) : Kernel → Kernel → Prop where
  | hit {k : Kernel} (present : ∀ offset < width, k.access (va + offset) ≠ none) :
      Served errorCode va width k k
  | miss {k k' k'' : Kernel} {offset : Nat} (within : offset < width)
      (absent : k.access (va + offset) = none)
      (handled : vmHandlePageFault k (va + offset) errorCode = (k', 1))
      (retried : Served errorCode va width k' k'') : Served errorCode va width k k''

/-- The byte behind a translated address. -/
def Kernel.loadByte (k : Kernel) (va : Nat) : UInt8 := k.mem ((k.access va).getD 0)

def Kernel.storeBytes (k : Kernel) (va : Nat) : List UInt8 → Kernel
  | [] => k
  | value :: rest => (k.storeByte va value).storeBytes (va + 1) rest

/-- A call of the memory layer, or an access to the heap window. -/
inductive DemandEvent where
  | call (event : Event)
  | access (access : HeapAccess)

/-- One step of a system that uses its heap. A kernel read faults with error code `0`,
a write with the write bit; page faults come from accesses only. -/
inductive DemandStep : System → DemandEvent → System → Prop where
  | call {s : System} {event : Event} (allowed : s.Disciplined event)
      (noFault : ∀ cr2 errorCode, event ≠ .fault cr2 errorCode) :
      DemandStep s (.call event) (s.apply event)
  | read {s : System} {k' : Kernel} {va width : Nat} (inHeap : ∀ offset < width, InHeap (va + offset))
      (served : Served 0 va width s.kernel k') :
      DemandStep s
        (.access (.read va ((List.range width).map fun offset => k'.loadByte (va + offset))))
        { s with kernel := k' }
  | write {s : System} {k' : Kernel} {va : Nat} {bytes : List UInt8}
      (inHeap : ∀ offset < bytes.length, InHeap (va + offset))
      (served : Served 2 va bytes.length s.kernel k') :
      DemandStep s (.access (.write va bytes)) { s with kernel := k'.storeBytes va bytes }

/-- The access that an event is. -/
def DemandEvent.access? : DemandEvent → Option HeapAccess
  | .call _ => none
  | .access seen => some seen

section Calls

variable {image : Image} {reserved : Set Nat} {s : System} {level : Nat → Nat} {event : Event}

/-- Disciplined clients keep the promises of a step. -/
theorem Owned.enabled (owned : s.Owned image reserved level) (allowed : s.Disciplined event) :
    s.Enabled event := by
  have notTable : ∀ {frame n}, frame ∈ s.held →
      ¬ PageTable s.kernel.mem s.spaces n (frame * pmmFrameSize) := by
    intro frame n isHeld isTable
    have isLevel := owned.paging.pageTable_iff.mp isTable
    have unused := (owned.client isHeld).2.1
    omega
  cases event with
  | free pa =>
      intro n isTable
      rw [← Nat.div_mul_cancel (Nat.dvd_of_mod_eq_zero allowed.1)] at isTable
      exact notTable allowed.2 isTable
  | map space va pa flags =>
      refine ⟨allowed.1, ?_, allowed.2.2.2⟩
      have canonical := allowed.2.1
      unfold Canonical at canonical
      omega
  | unmap => exact ⟨allowed.1, allowed.2.1⟩
  | store => exact ⟨allowed.1, fun pa access n => notTable (allowed.2 pa access)⟩
  | alloc => trivial
  | create => trivial
  | switch => exact allowed
  | fault => exact allowed
  | fill => exact allowed

/-- Growth spares the bytes of frames that are in use and no tables. -/
theorem Grown.data_bytes {k k' : Kernel} {level' : Nat → Nat} {address : Nat}
    (grown : Grown k level k' level') (unused : level (address / 4096 * 4096) = 0)
    (inUse : address / 4096 ∉ freeSet k.pmm.bitmap) :
    level' (address / 4096 * 4096) = 0 ∧ k'.mem address = k.mem address := by
  have still := grown.dataFrame_unused (show level (address / 4096 * pmmFrameSize) = 0 from unused) inUse
  exact ⟨still, grown.bytes still inUse⟩

/-- A call changes no byte of a frame that is in use, no table, and of no client. -/
theorem Paging.call_bytes {identity address : Nat}
    (paging : Paging s.kernel s.spaces level identity) (allowed : s.Disciplined event)
    (noFault : ∀ cr2 errorCode, event ≠ .fault cr2 errorCode)
    (unused : level (address / 4096 * 4096) = 0)
    (inUse : address / 4096 ∉ freeSet s.kernel.pmm.bitmap) (notHeld : address / 4096 ∉ s.held) :
    (s.apply event).kernel.mem address = s.kernel.mem address := by
  cases event with
  | alloc => rfl
  | free => rfl
  | create =>
      simp only [System.apply]
      rcases paging.vmCreateSpace_cases with ⟨_, run⟩ | ⟨frame, free, _, _, run⟩
      · rw [run]
      · rw [run]
        have different : address / 4096 ≠ frame := by
          rintro rfl
          exact inUse free
        exact newSpace_mem (by simp only [pmmFrameSize]; omega)
  | map space va pa flags =>
      simp only [System.apply]
      rcases paging.vmMap_cases allowed.1 va pa flags with
        ⟨_, run⟩ | ⟨_, k', level', paging', grown, _, ⟨_, run⟩ | ⟨bottom, walked, _, run⟩⟩
      · rw [run]
      · rw [run]
        exact (grown.data_bytes unused inUse).2
      · rw [run]
        obtain ⟨still, same⟩ := grown.data_bytes unused inUse
        exact (paging'.writeLeaf_bytes (paging'.bottomLevel allowed.1 walked.1) still).trans same
  | unmap space va =>
      simp only [System.apply]
      rcases paging.vmUnmap_cases allowed.1 va with ⟨_, run⟩ | ⟨bottom, entry, _, isBottom, _, run⟩
      · rw [run]
      · rw [run]
        exact paging.writeLeaf_bytes isBottom unused
  | switch space =>
      simp only [System.apply]
      unfold vmSwitch
      split <;> rfl
  | fault cr2 errorCode => exact absurd rfl (noFault cr2 errorCode)
  | fill va =>
      simp only [System.apply]
      unfold Kernel.fill
      split <;> rfl
  | store va value =>
      simp only [System.apply]
      unfold Kernel.storeByte
      split
      next pa access =>
        refine Function.update_of_ne ?_ _ _
        rintro rfl
        exact notHeld (allowed.2 address access)
      next => rfl

/-- A call leaves the fault counter and the fault flag alone. -/
theorem Paging.call_registers {identity : Nat} (paging : Paging s.kernel s.spaces level identity)
    (allowed : s.Disciplined event) (noFault : ∀ cr2 errorCode, event ≠ .fault cr2 errorCode) :
    (s.apply event).kernel.faults = s.kernel.faults ∧
      (s.apply event).kernel.inFault = s.kernel.inFault := by
  cases event with
  | alloc => exact ⟨rfl, rfl⟩
  | free => exact ⟨rfl, rfl⟩
  | create =>
      simp only [System.apply]
      rcases paging.vmCreateSpace_cases with ⟨_, run⟩ | ⟨frame, _, _, _, run⟩ <;>
      · rw [run]
        exact ⟨rfl, rfl⟩
  | map space va pa flags =>
      simp only [System.apply]
      rcases paging.vmMap_cases allowed.1 va pa flags with
        ⟨_, run⟩ | ⟨_, k', level', _, grown, _, ⟨_, run⟩ | ⟨bottom, _, _, run⟩⟩
      · rw [run]
        exact ⟨rfl, rfl⟩
      · rw [run, grown.rest]
        exact ⟨rfl, rfl⟩
      · have rest := grown.rest
        rw [run]
        exact ⟨by rw [rest]; rfl, by rw [rest]; rfl⟩
  | unmap space va =>
      simp only [System.apply]
      rcases paging.vmUnmap_cases allowed.1 va with ⟨_, run⟩ | ⟨_, _, _, _, _, run⟩ <;>
      · rw [run]
        exact ⟨rfl, rfl⟩
  | switch space =>
      simp only [System.apply]
      unfold vmSwitch
      split <;> exact ⟨rfl, rfl⟩
  | fault cr2 errorCode => exact absurd rfl (noFault cr2 errorCode)
  | fill va =>
      simp only [System.apply]
      unfold Kernel.fill
      split <;> exact ⟨rfl, rfl⟩
  | store va value =>
      simp only [System.apply]
      unfold Kernel.storeByte
      split <;> exact ⟨rfl, rfl⟩

end Calls

/-- The state of the system and the flat array that its heap window shows: the touched
pages are mapped alike in all spaces and hold the bytes of the array, the others are
absent and zero, and each touched page counts one fault. -/
structure Demand (image : Image) (reserved : Set Nat) (s : System) (array : FlatArray) : Prop where
  owned : ∃ level, s.Owned image reserved level
  coherent : Coherent image.pd s
  idle : s.kernel.inFault = false
  shared : s.spaces = [s.kernel.kernelSpace] ∨
    ∃ child, ∀ space ∈ s.spaces, decode 4 (entryAt s.kernel.mem space 256) = .table child
  present : ∀ {va}, InHeap va → pageNumber va ∈ array.touched → ∃ frame,
    (∀ space ∈ s.spaces, translatePage s.kernel.mem space va = some (frame * pmmFrameSize, 2 ^ 12)) ∧
      s.kernel.mem (frame * pmmFrameSize + va % vmPageSize) = array.bytes va
  absent : ∀ {va}, InHeap va → pageNumber va ∉ array.touched →
    (∀ space ∈ s.spaces, translatePage s.kernel.mem space va = none) ∧ array.bytes va = 0
  window : ∀ page ∈ array.touched, ∃ va, InHeap va ∧ pageNumber va = page
  faults : s.kernel.faults = array.touched.card

section Heap

variable {image : Image} {reserved : Set Nat} {s s' : System} {level level' : Nat → Nat}
  {identity va va' : Nat} {array : FlatArray} {event : Event}

/-- The window consists of whole pages. -/
theorem InHeap.of_page (inHeap : InHeap va) (same : pageNumber va' = pageNumber va) : InHeap va' := by
  simp only [pageNumber, vmPageSize] at same
  simp only [InHeap, vmHeapBase, vmHeapSize] at inHeap ⊢
  omega

/-- All addresses of the window lie below PML4 slot 256. -/
theorem InHeap.slot (inHeap : InHeap va) : pml4Index va = 256 := by
  simp only [InHeap, vmHeapBase, vmHeapSize] at inHeap
  rw [pml4Index_eq]
  omega

/-- Spaces with one table in slot 256 translate the window alike. -/
theorem Paging.translatePage_heap {k : Kernel} {spaces : List Nat} {space other child : Nat}
    (paging : Paging k spaces level identity) (known : space ∈ spaces) (known' : other ∈ spaces)
    (inHeap : InHeap va) (slot : decode 4 (entryAt k.mem space 256) = .table child)
    (slot' : decode 4 (entryAt k.mem other 256) = .table child) :
    translatePage k.mem space va = translatePage k.mem other va := by
  have place : (⟨pml4Index va, pml4Index_lt va⟩ : Fin 512) = 256 := Fin.ext inHeap.slot
  refine paging.translatePage_congr paging known' known ?_
  rw [path, place]
  refine Store.lookup_congr_slot ?_
  rw [tables, tables, paging.rootLevel known, paging.rootLevel known']
  exact slot.trans slot'.symm

/-- Two addresses of the window in one frame lie in one page. -/
theorem Owned.heap_page (owned : s.Owned image reserved level) {space frame : Nat}
    (known : space ∈ s.spaces) (inHeap : InHeap va) (inHeap' : InHeap va')
    (mapped : translatePage s.kernel.mem space va = some (frame * pmmFrameSize, 2 ^ 12))
    (mapped' : translatePage s.kernel.mem space va' = some (frame * pmmFrameSize, 2 ^ 12)) :
    pageNumber va = pageNumber va' := by
  obtain ⟨entry, found, address⟩ := (owned.paging.smallPage_iff known inHeap.canonical).mp mapped
  obtain ⟨entry', found', address'⟩ := (owned.paging.smallPage_iff known inHeap'.canonical).mp mapped'
  rw [path_eq] at found found'
  obtain ⟨bottom, reached, page⟩ := Store.lookup_snoc_full found
  obtain ⟨bottom', reached', page'⟩ := Store.lookup_snoc_full found'
  obtain ⟨rfl, sameIndex⟩ := owned.single
    ⟨⟨space, known, va, inHeap, reached⟩, entry, page, address⟩
    ⟨⟨space, known, va', inHeap', reached'⟩, entry', page', address'⟩
  have root := owned.paging.rootLevel known
  have samePath := (owned.paging.shape.descend_unique (by decide) root root reached reached'
    (by rw [upperPath_length, upperPath_length])).1
  refine (path_eq_iff_of_canonical inHeap.canonical inHeap'.canonical).mp ?_
  rw [path_eq, path_eq, samePath, sameIndex]

/-- A frame behind the window is a data frame of no client. -/
theorem Owned.heap_data (owned : s.Owned image reserved level) {space frame : Nat}
    (known : space ∈ s.spaces) (inHeap : InHeap va)
    (mapped : translatePage s.kernel.mem space va = some (frame * pmmFrameSize, 2 ^ 12)) :
    DataFrame reserved s.kernel level frame ∧ frame ∉ s.held := by
  obtain ⟨bottom, slot, _⟩ := owned.heapSlot known inHeap mapped
  exact owned.heap slot

/-- A disciplined call with canonical addresses aims at no page of the window. -/
theorem System.Disciplined.target_outside (allowed : s.Disciplined event)
    (canonical : CanonicalEvent event) (noFault : ∀ cr2 errorCode, event ≠ .fault cr2 errorCode)
    (inHeap : InHeap va) : ∀ aim, event.target? s = some aim → path va ≠ path aim.va := by
  intro aim isTarget samePath
  have outside : ∀ {other}, Canonical other → ¬ InHeap other → path va ≠ path other := by
    intro other canonical' notHeap same
    have samePage := (path_eq_iff_of_canonical inHeap.canonical canonical').mp same
    exact notHeap (inHeap.of_page samePage.symm)
  cases event with
  | map space other pa flags =>
      cases isTarget
      exact outside canonical allowed.2.2.1 samePath
  | unmap space other =>
      cases isTarget
      exact outside canonical allowed.2.2 samePath
  | fault cr2 errorCode => exact absurd rfl (noFault cr2 errorCode)
  | _ => cases isTarget

/-- A step translates as before what it does not aim at, in every old space. -/
theorem Next.translatePage_other (paging : Paging s.kernel s.spaces level identity)
    {target : Option Target} (next : Next s level identity target s' level') {space : Nat}
    (known : space ∈ s.spaces) (spared : ∀ aim, target = some aim → path va ≠ path aim.va) :
    translatePage s'.kernel.mem space va = translatePage s.kernel.mem space va :=
  paging.translatePage_congr next.paging known (next.change.known known)
    (next.change.lookup_other paging known spared)

/-- Every space translates the window as the kernel space does. -/
theorem Paging.translatePage_shared {k : Kernel} {spaces : List Nat}
    (paging : Paging k spaces level identity)
    (shared : spaces = [k.kernelSpace] ∨
      ∃ child, ∀ space ∈ spaces, decode 4 (entryAt k.mem space 256) = .table child)
    (inHeap : InHeap va) {space : Nat} (known : space ∈ spaces) :
    translatePage k.mem space va = translatePage k.mem k.kernelSpace va := by
  rcases shared with alone | ⟨child, slots⟩
  · rw [alone, List.mem_singleton] at known
    rw [known]
  · exact paging.translatePage_heap known paging.kernel inHeap (slots _ known) (slots _ paging.kernel)

/-- A mapped page of the window links slot 256 of every space. -/
theorem Demand.linked (demand : Demand image reserved s array) (used : array.touched.Nonempty) :
    ∃ child, ∀ space ∈ s.spaces, decode 4 (entryAt s.kernel.mem space 256) = .table child := by
  rcases demand.shared with alone | linked
  · obtain ⟨level, owned⟩ := demand.owned
    obtain ⟨page, isTouched⟩ := used
    obtain ⟨va, inHeap, rfl⟩ := demand.window page isTouched
    obtain ⟨frame, mapped, _⟩ := demand.present inHeap isTouched
    obtain ⟨entry, found, _⟩ := (owned.paging.smallPage_iff owned.paging.kernel inHeap.canonical).mp
      (mapped _ owned.paging.kernel)
    have root := owned.paging.rootLevel owned.paging.kernel
    have place : (⟨pml4Index va, pml4Index_lt va⟩ : Fin 512) = 256 := Fin.ext inHeap.slot
    rw [path, place, Store.lookup] at found
    cases slot : tables s.kernel.mem level s.kernel.kernelSpace 256 with
    | table child =>
        refine ⟨child, fun space known => ?_⟩
        rw [alone, List.mem_singleton] at known
        rw [tables, root] at slot
        rw [known]
        exact slot
    | absent | page => simp [slot] at found
  · exact linked

/-- Linked slots stay linked, and a new space copies the link. -/
theorem Next.shared (paging : Paging s.kernel s.spaces level identity) {target : Option Target}
    (next : Next s level identity target s' level')
    (shared : s.spaces = [s.kernel.kernelSpace] ∨
      ∃ child, ∀ space ∈ s.spaces, decode 4 (entryAt s.kernel.mem space 256) = .table child)
    (ready : s'.spaces = s.spaces ∨
      ∃ child, ∀ space ∈ s.spaces, decode 4 (entryAt s.kernel.mem space 256) = .table child) :
    s'.spaces = [s'.kernel.kernelSpace] ∨
      ∃ child, ∀ space ∈ s'.spaces, decode 4 (entryAt s'.kernel.mem space 256) = .table child := by
  have kept : ∀ {space child}, space ∈ s.spaces →
      decode 4 (entryAt s.kernel.mem space 256) = .table child →
      decode 4 (entryAt s'.kernel.mem space 256) = .table child := by
    intro space child known slot
    have root := paging.rootLevel known
    have root' := next.paging.rootLevel (next.change.known known)
    have link := next.change.keeps.links (show level space ≠ 0 by omega)
      (show tables s.kernel.mem level space 256 = .table child by rw [tables, root]; exact slot)
    rw [tables, root'] at link
    exact link
  have linked : (∃ child, ∀ space ∈ s.spaces,
      decode 4 (entryAt s.kernel.mem space 256) = .table child) →
      ∃ child, ∀ space ∈ s'.spaces, decode 4 (entryAt s'.kernel.mem space 256) = .table child := by
    rintro ⟨child, slots⟩
    refine ⟨child, fun space known => ?_⟩
    cases next.change with
    | grow spaces => exact kept (spaces ▸ known) (slots space (spaces ▸ known))
    | leaf _ _ spaces => exact kept (spaces ▸ known) (slots space (spaces ▸ known))
    | create spaces add =>
        rw [spaces] at known
        rcases List.mem_cons.mp known with rfl | old
        · have root := paging.rootLevel paging.kernel
          have copied := add.copied (show Shared 256 from .inr (by decide))
          rw [tables, tables, add.freshLevel, root] at copied
          exact copied.trans (slots _ paging.kernel)
        · exact kept old (slots space old)
  rcases ready with same | already
  · rcases shared with alone | already
    · exact .inl (by rw [same, next.kernelSpace, alone])
    · exact .inr (linked already)
  · exact .inr (linked already)

/-- A disciplined call leaves the array alone. -/
theorem Demand.call (demand : Demand image reserved s array) (allowed : s.Disciplined event)
    (canonical : CanonicalEvent event) (noFault : ∀ cr2 errorCode, event ≠ .fault cr2 errorCode)
    (ready : event = .create → array.touched.Nonempty) :
    Demand image reserved (s.apply event) array := by
  obtain ⟨level, owned⟩ := demand.owned
  have step : Step s event (s.apply event) := ⟨owned.enabled allowed, rfl⟩
  obtain ⟨level', next⟩ := System.step_next owned.paging step
  obtain ⟨faults, idle⟩ := owned.paging.call_registers allowed noFault
  have shared := next.shared owned.paging demand.shared (by
    by_cases isCreate : event = .create
    · exact .inr (demand.linked (ready isCreate))
    · exact .inl (by cases event with | create => exact absurd rfl isCreate | _ => rfl))
  have old : ∀ {va space}, InHeap va → space ∈ (s.apply event).spaces →
      translatePage (s.apply event).kernel.mem space va =
        translatePage s.kernel.mem s.kernel.kernelSpace va := by
    intro va space inHeap known
    rw [next.paging.translatePage_shared shared inHeap known, next.kernelSpace]
    exact next.translatePage_other owned.paging owned.paging.kernel
      (allowed.target_outside canonical noFault inHeap)
  refine
    { owned := owned.step ⟨allowed, rfl⟩, coherent := demand.coherent.step step canonical,
      idle := idle.trans demand.idle, shared := shared, present := ?_, absent := ?_,
      window := demand.window, faults := faults.trans demand.faults }
  · intro va inHeap isTouched
    obtain ⟨frame, mapped, byte⟩ := demand.present inHeap isTouched
    have kernelMapped := mapped _ owned.paging.kernel
    obtain ⟨data, notHeld⟩ := owned.heap_data owned.paging.kernel inHeap kernelMapped
    refine ⟨frame, fun space known => (old inHeap known).trans kernelMapped, ?_⟩
    have place : (frame * pmmFrameSize + va % vmPageSize) / 4096 = frame := by
      simp only [pmmFrameSize, vmPageSize]
      omega
    rw [owned.paging.call_bytes allowed noFault (by rw [place]; exact data.2.1)
      (by rw [place]; exact data.1) (by rw [place]; exact notHeld)]
    exact byte
  · intro va inHeap untouched
    obtain ⟨unmapped, zero⟩ := demand.absent inHeap untouched
    exact ⟨fun space known => (old inHeap known).trans (unmapped _ owned.paging.kernel), zero⟩

/-- What a served fault did: the page of its address is backed by a cleared frame of the
pool, and the frames in use keep their bytes. -/
structure Backed (k k' : Kernel) (level : Nat → Nat) (va frame : Nat) : Prop where
  free : frame ∈ freeSet k.pmm.bitmap
  cr3 : k'.cr3 = k.cr3
  mapped : translatePage k'.mem k'.cr3 va = some (frame * pmmFrameSize, 2 ^ 12)
  zero : ∀ {offset}, offset < 4096 → k'.mem (frame * pmmFrameSize + offset) = 0
  bytes : ∀ {address}, level (address / 4096 * 4096) = 0 →
    address / 4096 ∉ freeSet k.pmm.bitmap → k'.mem address = k.mem address
  faults : k'.faults = u64 (k.faults + 1)
  idle : k'.inFault = false
  spent : k.pmm.freeFrames ≤ k'.pmm.freeFrames + 4

/-- A fault in the window that is served backs its page. -/
theorem Paging.vmHandlePageFault_backed {k k' : Kernel} {spaces : List Nat} {errorCode : Nat}
    (paging : Paging k spaces level identity) (inHeap : InHeap va)
    (handled : vmHandlePageFault k va errorCode = (k', 1)) : ∃ frame, Backed k k' level va frame := by
  rcases paging.vmHandlePageFault_cases va errorCode with
    ⟨_, run⟩ | ⟨_, _, run⟩ | ⟨_, frame, free, _, k₁, level₁, paging₁, grown, _, outcome⟩
  · rw [run] at handled
    cases handled
  · rw [run] at handled
    cases handled
  rcases outcome with ⟨_, run⟩ | ⟨bottom, ⟨reached, frames⟩, _, run⟩
  · rw [run] at handled
    cases handled
  rw [run] at handled
  obtain ⟨rfl, _⟩ := Prod.mk.inj handled
  obtain ⟨pageCanonical, samePage⟩ := faultPage_canonical inHeap.1 inHeap.2
  have small := (mem_freeSet.mp free).1
  simp only [pmmFrameCount, pmmMaxPhys, pmmFrameSize] at small
  have isBottom := paging₁.bottomLevel paging.current reached
  have sameCr3 : k₁.cr3 = k.cr3 := by
    rw [grown.rest]
    rfl
  have written := paging₁.leaf isBottom (leafIndex (faultPage va)) (frame * pmmFrameSize + 3)
  have taken : frame ∉ freeSet (faultStart k frame).pmm.bitmap := by
    simp [faultStart, pmmTake, freeSet_set]
  -- bytes of frames in use survive the walk and the leaf
  have bytes : ∀ {address}, level (address / 4096 * 4096) = 0 →
      address / 4096 ∉ freeSet (faultStart k frame).pmm.bitmap →
      (writeLeaf k₁ bottom (leafIndex (faultPage va)) (frame * pmmFrameSize + 3)).mem address =
        (faultStart k frame).mem address := by
    intro address unused inUse
    obtain ⟨still, same⟩ := grown.data_bytes unused inUse
    exact (paging₁.writeLeaf_bytes isBottom still).trans same
  refine ⟨frame, free, sameCr3, ?_, ?_, ?_, rfl, rfl, ?_⟩
  · show translatePage (writeLeaf k₁ bottom _ _).mem k₁.cr3 va = _
    rw [sameCr3, ← written.translatePage_page paging.current samePage]
    refine (written.smallPage_iff paging.current pageCanonical).mpr
      ⟨frame * pmmFrameSize + 3, ?_, ?_⟩
    · rw [paging₁.lookup_writeLeaf_self paging.current isBottom reached]
      have page : decode 1 (u64 (frame * pmmFrameSize + 3)) = .page (frame * pmmFrameSize + 3) := by
        simp only [pmmFrameSize]
        rw [u64_of_lt (by omega)]
        refine decode_eq_page.mpr ⟨?_, .inl rfl, rfl⟩
        rw [Ne, present_eq_zero]
        omega
      rw [page]
      rfl
    · rw [addrMask_eq]
      simp only [pmmFrameSize]
      omega
  · intro offset within
    have place : (frame * pmmFrameSize + offset) / 4096 = frame := by
      simp only [pmmFrameSize]
      omega
    refine (bytes ?_ ?_).trans (faultStart_zero within)
    · rw [place]
      exact paging.not_free free
    · rw [place]
      exact taken
  · intro address unused inUse
    have elsewhere : address / 4096 ≠ frame := by
      rintro rfl
      exact inUse free
    refine (bytes unused fun still => inUse ?_).trans (faultStart_mem ?_)
    · simp only [faultStart, pmmTake, freeSet_set, Finset.mem_erase] at still
      exact still.2
    · simp only [pmmFrameSize]
      omega
  · rw [upperPath_length] at frames
    simp only [faultStart, pmmTake] at frames
    show k.pmm.freeFrames ≤ k₁.pmm.freeFrames + 4
    omega

/-- A served fault maps the page of its address to a cleared frame, in every space. -/
theorem Demand.fault (demand : Demand image reserved s array) {errorCode : Nat} {k' : Kernel}
    (inHeap : InHeap va) (missed : s.kernel.access va = none)
    (handled : vmHandlePageFault s.kernel va errorCode = (k', 1)) :
    Demand image reserved { s with kernel := k' }
      { array with touched := insert (pageNumber va) array.touched } := by
  obtain ⟨level, owned⟩ := demand.owned
  have upper : va < 2 ^ 64 := by
    simp only [InHeap, vmHeapBase, vmHeapSize] at inHeap
    omega
  have applied : s.apply (.fault va errorCode) = { s with kernel := k' } := by
    rw [System.apply, handled]
  have target : Event.target? s (.fault va errorCode) =
      some ⟨s.kernel.cr3, faultPage va, false⟩ := if_pos inHeap
  have step : Step s (.fault va errorCode) { s with kernel := k' } := ⟨upper, applied.symm⟩
  obtain ⟨level', next⟩ := System.step_next owned.paging step
  rw [target] at next
  have shared := next.shared owned.paging demand.shared (.inl rfl)
  obtain ⟨pageCanonical, samePage⟩ := faultPage_canonical inHeap.1 inHeap.2
  have untouched : pageNumber va ∉ array.touched := by
    intro isTouched
    obtain ⟨frame, mapped, _⟩ := demand.present inHeap isTouched
    rw [demand.coherent.tlb.access inHeap.canonical, translate, mapped _ owned.paging.current] at missed
    cases missed
  -- other pages of the window keep their translation
  have others : ∀ {va' space}, InHeap va' → pageNumber va' ≠ pageNumber va → space ∈ s.spaces →
      translatePage k'.mem space va' = translatePage s.kernel.mem space va' := by
    intro va' space inHeap' different known
    refine next.translatePage_other owned.paging known fun aim isAim samePath => ?_
    cases isAim
    exact different
      (((path_eq_iff_of_canonical inHeap'.canonical pageCanonical).mp samePath).trans samePage)
  obtain ⟨frame, backed⟩ := owned.paging.vmHandlePageFault_backed inHeap handled
  have everywhere : ∀ {va' space}, pageNumber va' = pageNumber va → space ∈ s.spaces →
      translatePage k'.mem space va' = some (frame * pmmFrameSize, 2 ^ 12) := by
    intro va' space same known
    have page := next.paging.translatePage_page known same
    refine page.trans ?_
    exact ((next.paging.translatePage_shared shared inHeap known).trans
      (next.paging.translatePage_shared shared inHeap next.paging.current).symm).trans backed.mapped
  have ownedNext := owned.step (⟨upper, rfl⟩ : OwnStep s (.fault va errorCode) _)
  rw [applied] at ownedNext
  refine
    { owned := ownedNext, coherent := demand.coherent.step step trivial, idle := backed.idle,
      shared := shared, present := ?_, absent := ?_, window := ?_, faults := ?_ }
  · intro va' inHeap' isTouched
    by_cases same : pageNumber va' = pageNumber va
    · refine ⟨frame, fun space known => everywhere same known, ?_⟩
      exact (backed.zero (Nat.mod_lt _ (by decide))).trans
        (demand.absent inHeap' (same ▸ untouched)).2.symm
    · have old := (Finset.mem_insert.mp isTouched).resolve_left same
      obtain ⟨other, mappedOther, byte⟩ := demand.present inHeap' old
      refine ⟨other, fun space known => (others inHeap' same known).trans (mappedOther space known), ?_⟩
      obtain ⟨data, _⟩ :=
        owned.heap_data owned.paging.kernel inHeap' (mappedOther _ owned.paging.kernel)
      have place : (other * pmmFrameSize + va' % vmPageSize) / 4096 = other := by
        simp only [pmmFrameSize, vmPageSize]
        omega
      refine (backed.bytes ?_ ?_).trans byte
      · rw [place]
        exact data.2.1
      · rw [place]
        exact data.1
  · intro va' inHeap' notTouched
    simp only [Finset.mem_insert, not_or] at notTouched
    obtain ⟨unmapped, zero⟩ := demand.absent inHeap' notTouched.2
    exact ⟨fun space known => (others inHeap' notTouched.1 known).trans (unmapped space known), zero⟩
  · intro page isTouched
    rcases Finset.mem_insert.mp isTouched with rfl | old
    · exact ⟨va, inHeap, rfl⟩
    · exact demand.window page old
  · have few : array.touched.card ≤ 4096 := by
      have range : array.touched ⊆ Finset.Ico (vmHeapBase / 4096) (vmHeapBase / 4096 + 4096) := by
        intro page isTouched
        obtain ⟨va', inHeap', rfl⟩ := demand.window page isTouched
        simp only [InHeap, vmHeapBase, vmHeapSize] at inHeap'
        simp only [Finset.mem_Ico, pageNumber, vmPageSize, vmHeapBase]
        omega
      simpa using Finset.card_le_card range
    rw [Finset.card_insert_of_notMem untouched]
    refine backed.faults.trans ?_
    rw [demand.faults]
    exact u64_of_lt (by omega)

/-- An access finds the byte of the array. -/
theorem Demand.access (demand : Demand image reserved s array) (inHeap : InHeap va)
    (isTouched : pageNumber va ∈ array.touched) : ∃ pa, s.kernel.access va = some pa ∧
      s.kernel.mem pa = array.bytes va := by
  obtain ⟨level, owned⟩ := demand.owned
  obtain ⟨frame, mapped, byte⟩ := demand.present inHeap isTouched
  refine ⟨frame * pmmFrameSize + va % vmPageSize, ?_, byte⟩
  rw [demand.coherent.tlb.access inHeap.canonical, translate, mapped _ owned.paging.current]
  rfl

/-- An access without a translation is to an untouched page. -/
theorem Demand.access_none (demand : Demand image reserved s array) (inHeap : InHeap va) :
    s.kernel.access va = none ↔ pageNumber va ∉ array.touched := by
  constructor
  · intro missed isTouched
    obtain ⟨pa, hit, _⟩ := demand.access inHeap isTouched
    rw [hit] at missed
    cases missed
  · intro untouched
    obtain ⟨level, owned⟩ := demand.owned
    rw [demand.coherent.tlb.access inHeap.canonical, translate_eq_none]
    exact (demand.absent inHeap untouched).1 _ owned.paging.current

/-- A byte stored through the window is stored in the array. -/
theorem Demand.storeByte (demand : Demand image reserved s array) (inHeap : InHeap va)
    (isTouched : pageNumber va ∈ array.touched) (value : UInt8) :
    Demand image reserved { s with kernel := s.kernel.storeByte va value }
      { array with bytes := Function.update array.bytes va value } := by
  obtain ⟨level, owned⟩ := demand.owned
  obtain ⟨frame, mapped, byte⟩ := demand.present inHeap isTouched
  obtain ⟨data, _⟩ := owned.heap_data owned.paging.kernel inHeap (mapped _ owned.paging.kernel)
  have hit : s.kernel.access va = some (frame * pmmFrameSize + va % vmPageSize) := by
    rw [demand.coherent.tlb.access inHeap.canonical, translate, mapped _ owned.paging.current]
    rfl
  have unused : ∀ pa, s.kernel.access va = some pa → level (pa / 4096 * 4096) = 0 := by
    intro pa isAccess
    obtain rfl := Option.some.inj (hit.symm.trans isAccess)
    have place : (frame * pmmFrameSize + va % vmPageSize) / 4096 = frame := by
      simp only [pmmFrameSize, vmPageSize]
      omega
    rw [place]
    exact data.2.1
  have step : Step s (.store va value) { s with kernel := s.kernel.storeByte va value } := by
    refine ⟨⟨inHeap.canonical, fun pa isAccess n isTable => ?_⟩, rfl⟩
    have isLevel := owned.paging.pageTable_iff.mp isTable
    have none' := unused pa isAccess
    simp only [pmmFrameSize] at isLevel
    omega
  have ownedNext := @Owned.store_step _ _ _ _ owned va value unused
  have stored : s.kernel.storeByte va value = { s.kernel with
      mem := Function.update s.kernel.mem (frame * pmmFrameSize + va % vmPageSize) value } := by
    rw [Kernel.storeByte, hit]
  have coherent := demand.coherent.step step trivial
  rw [System.apply] at ownedNext
  rw [stored] at step coherent ownedNext ⊢
  obtain ⟨level', next⟩ := System.step_next owned.paging step
  rw [show Event.target? s (.store va value) = none from rfl] at next
  have same : ∀ {va' space}, space ∈ s.spaces →
      translatePage (Function.update s.kernel.mem (frame * pmmFrameSize + va % vmPageSize) value) space
        va' = translatePage s.kernel.mem space va' :=
    fun known => next.translatePage_other owned.paging known fun aim isTarget =>
      absurd isTarget.symm (Option.some_ne_none aim)
  refine
    { owned := ⟨level, ownedNext⟩, coherent := coherent, idle := demand.idle,
      shared := next.shared owned.paging demand.shared (.inl rfl), present := ?_, absent := ?_,
      window := demand.window, faults := demand.faults }
  · intro va' inHeap' isTouched'
    obtain ⟨frame', mapped', byte'⟩ := demand.present inHeap' isTouched'
    refine ⟨frame', fun space known => (same known).trans (mapped' space known), ?_⟩
    by_cases here : va' = va
    · subst here
      have sameFrame := Option.some.inj ((mapped _ owned.paging.kernel).symm.trans
        (mapped' _ owned.paging.kernel))
      rw [← (Prod.mk.inj sameFrame).1]
      simp only [Function.update_self]
    · have elsewhere : frame' * pmmFrameSize + va' % vmPageSize ≠
          frame * pmmFrameSize + va % vmPageSize := by
        intro clash
        simp only [pmmFrameSize, vmPageSize] at clash
        obtain rfl : frame' = frame := by omega
        have samePage := owned.heap_page owned.paging.kernel inHeap inHeap'
          (mapped _ owned.paging.kernel) (mapped' _ owned.paging.kernel)
        simp only [pageNumber, vmPageSize] at samePage
        omega
      simp only [Function.update_of_ne elsewhere, Function.update_of_ne here]
      exact byte'
  · intro va' inHeap' untouched
    obtain ⟨unmapped, zero⟩ := demand.absent inHeap' untouched
    refine ⟨fun space known => (same known).trans (unmapped space known), ?_⟩
    have different : va' ≠ va := by
      rintro rfl
      exact untouched isTouched
    simp only [Function.update_of_ne different]
    exact zero

/-- The page of a byte of an access is one of its pages. -/
theorem mem_pagesOf {width offset : Nat} (within : offset < width) :
    pageNumber (va + offset) ∈ pagesOf va width :=
  Finset.mem_image.mpr ⟨offset, Finset.mem_range.mpr within, rfl⟩

/-- The faults of an access touch the pages of its bytes. -/
theorem Demand.served {errorCode width : Nat} {k k' : Kernel} {spaces : List Nat} {held : Finset Nat}
    {bytes : Nat → UInt8} {touched : Finset Nat} (served : Served errorCode va width k k')
    (inHeap : ∀ offset < width, InHeap (va + offset))
    (demand : Demand image reserved ⟨k, spaces, held⟩ ⟨bytes, touched⟩) :
    Demand image reserved ⟨k', spaces, held⟩ ⟨bytes, touched ∪ pagesOf va width⟩ := by
  induction served generalizing touched with
  | hit present =>
      have already : touched ∪ pagesOf va width = touched := by
        refine Finset.union_eq_left.mpr fun page isPage => ?_
        obtain ⟨offset, within, rfl⟩ := Finset.mem_image.mp isPage
        rw [Finset.mem_range] at within
        by_contra untouched
        exact present offset within ((demand.access_none (inHeap offset within)).mpr untouched)
      rw [already]
      exact demand
  | miss within absent handled _ ih =>
      have result := ih (demand.fault (inHeap _ within) absent handled)
      simp only [Finset.insert_union] at result
      rwa [Finset.insert_eq_of_mem (Finset.mem_union_right _ (mem_pagesOf within))] at result

/-- Bytes stored through the window are stored in the array. -/
theorem Demand.storeBytes {k : Kernel} {spaces : List Nat} {held : Finset Nat}
    {content : Nat → UInt8} {touched : Finset Nat} {bytes : List UInt8}
    (demand : Demand image reserved ⟨k, spaces, held⟩ ⟨content, touched⟩)
    (inHeap : ∀ offset < bytes.length, InHeap (va + offset))
    (isTouched : ∀ offset < bytes.length, pageNumber (va + offset) ∈ touched) :
    Demand image reserved ⟨k.storeBytes va bytes, spaces, held⟩ ⟨writeBytes content va bytes, touched⟩ := by
  induction bytes generalizing k content va with
  | nil => exact demand
  | cons value rest ih =>
      have first := demand.storeByte (inHeap 0 (by simp)) (isTouched 0 (by simp)) value
      refine ih first (fun offset within => ?_) (fun offset within => ?_)
      · rw [Nat.add_assoc, Nat.add_comm 1]
        exact inHeap (offset + 1) (by simpa using within)
      · rw [Nat.add_assoc, Nat.add_comm 1]
        exact isTouched (offset + 1) (by simpa using within)

/-- Every step of the system is a step of the array, or none. -/
theorem Demand.step {event : DemandEvent} (demand : Demand image reserved s array)
    (step : DemandStep s event s')
    (canonical : ∀ call, event = .call call → CanonicalEvent call)
    (ready : event = .call .create → array.touched.Nonempty) :
    ∃ array', Demand image reserved s' array' ∧ Labelled FlatStep array event.access? array' := by
  cases step with
  | call allowed noFault =>
      exact ⟨array, demand.call allowed (canonical _ rfl) noFault fun isCreate => ready (by rw [isCreate]),
        rfl⟩
  | @read k' va width inHeap served =>
      have after := demand.served served inHeap
      refine ⟨_, after, ?_⟩
      have seen : ((List.range width).map fun offset => k'.loadByte (va + offset)) =
          (List.range width).map fun offset => array.bytes (va + offset) := by
        refine List.map_congr_left fun offset member => ?_
        have within := List.mem_range.mp member
        obtain ⟨pa, hit, byte⟩ := after.access (inHeap offset within)
          (Finset.mem_union_right _ (mem_pagesOf within))
        rw [Kernel.loadByte, hit, Option.getD_some]
        exact byte
      simp only [DemandEvent.access?, seen]
      exact .read array va width
  | @write k' va bytes inHeap served =>
      have after := demand.served served inHeap
      exact ⟨_, after.storeBytes inHeap fun offset within =>
        Finset.mem_union_right _ (mem_pagesOf within), .write array va bytes⟩

/-- After boot the window is absent in the kernel space, the only one. -/
theorem Started.demand {mbInfo : Nat} {start : System} (started : Started image mbInfo start) :
    Demand image (reservedFrames image mbInfo start.kernel.pmm.infoEnd) start FlatArray.zero := by
  have state := started.1.state
  have paging : Paging start.kernel start.spaces image.level image.pd := started.owned.paging
  refine
    { owned := ⟨_, started.owned⟩, coherent := started.coherent, idle := state.idle,
      shared := .inl (by rw [started.2.1, state.kernelSpace]),
      present := fun _ isTouched => absurd isTouched (Finset.notMem_empty _), absent := ?_,
      window := fun page isTouched => absurd isTouched (Finset.notMem_empty _),
      faults := state.faults }
  intro va inHeap _
  refine ⟨fun space known => ?_, rfl⟩
  have outside := state.lookup_outside (show pml4Index va ≠ 0 ∨ pdptIndex va ≠ 0 from
    .inl (by rw [inHeap.slot]; decide))
  rw [paging.translatePage_eq_lookup known inHeap.canonical]
  rw [started.2.1, List.mem_singleton] at known
  rw [known, outside]
  rfl

end Heap

end GodOs
