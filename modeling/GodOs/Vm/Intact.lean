import GodOs.Vm.FlatHeap

/-!
# What the memory layer never writes

Boot reserves the low 1 MB, the kernel image and the multiboot2 structure. But for the three
boot tables, no call of the memory layer, no page fault and no access to the heap window
writes to them: `reserved_bytes_kept`.
-/

namespace GodOs

open Lib Lib.Forest

/-- A frame that boot reserves, and that is no boot table. -/
def Image.Spared (image : Image) (reserved : Set Nat) (frame : Nat) : Prop :=
  frame ∈ reserved ∧ frame ∉ image.bootFrames

section Bytes

variable {image : Image} {reserved : Set Nat} {k : Kernel} {spaces : List Nat} {s s' : System}
  {level : Nat → Nat} {identity address : Nat} {array : FlatArray}

/-- The handler writes to frames of the pool and to page tables only. -/
theorem Paging.vmHandlePageFault_bytes (paging : Paging k spaces level identity)
    (unused : level (address / 4096 * 4096) = 0) (inUse : address / 4096 ∉ freeSet k.pmm.bitmap)
    (cr2 errorCode : Nat) :
    (vmHandlePageFault k cr2 errorCode).1.mem address = k.mem address := by
  rcases paging.vmHandlePageFault_cases cr2 errorCode with
    ⟨_, run⟩ | ⟨_, _, run⟩ | ⟨_, frame, free, _, k', level', paging', grown, _, outcome⟩
  · rw [run]
  · rw [run]
  have elsewhere : address / 4096 ≠ frame := by
    rintro rfl
    exact inUse free
  have taken : address / 4096 ∉ freeSet (faultStart k frame).pmm.bitmap := by
    intro still
    simp only [faultStart, pmmTake, freeSet_set, Finset.mem_erase] at still
    exact inUse still.2
  have outside : (faultStart k frame).mem address = k.mem address := by
    refine faultStart_mem ?_
    simp only [pmmFrameSize]
    omega
  obtain ⟨still, same⟩ := grown.data_bytes unused taken
  rcases outcome with ⟨_, run⟩ | ⟨bottom, ⟨reached, _⟩, _, run⟩
  · rw [run]
    exact same.trans outside
  · rw [run]
    have isBottom := paging'.bottomLevel paging.current reached
    exact (paging'.writeLeaf_bytes isBottom still).trans (same.trans outside)

/-- A spared frame is no table, not in the pool, and of no client. -/
theorem Owned.spared {frame : Nat} (owned : s.Owned image reserved level)
    (spared : image.Spared reserved frame) :
    level (frame * pmmFrameSize) = 0 ∧ frame ∉ freeSet s.kernel.pmm.bitmap ∧ frame ∉ s.held := by
  refine ⟨?_, fun free => owned.pool free spared.1, fun isHeld => (owned.client isHeld).2.2 spared.1⟩
  by_contra isTable
  exact spared.2 (owned.onlyBoot isTable spared.1)

/-- The faults of an access spare it. -/
theorem Demand.served_bytes {errorCode width va : Nat} {k k' : Kernel} {held : Finset Nat}
    {bytes : Nat → UInt8} {touched : Finset Nat} (served : Served errorCode va width k k')
    (inHeap : ∀ offset < width, InHeap (va + offset))
    (demand : Demand image reserved ⟨k, spaces, held⟩ ⟨bytes, touched⟩)
    (spared : image.Spared reserved (address / 4096)) : k'.mem address = k.mem address := by
  induction served generalizing touched with
  | hit => rfl
  | @miss k k' k'' offset within absent handled _ ih =>
      obtain ⟨level, owned⟩ := demand.owned
      obtain ⟨unused, inUse, _⟩ := owned.spared spared
      have first := owned.paging.vmHandlePageFault_bytes unused inUse (va + offset) errorCode
      rw [handled] at first
      exact (ih (demand.fault (inHeap _ within) absent handled)).trans first

/-- A byte stored through the window spares it. -/
theorem Demand.storeByte_bytes {va : Nat} (demand : Demand image reserved s array) (inHeap : InHeap va)
    (isTouched : pageNumber va ∈ array.touched) (value : UInt8)
    (spared : image.Spared reserved (address / 4096)) :
    (s.kernel.storeByte va value).mem address = s.kernel.mem address := by
  obtain ⟨level, owned⟩ := demand.owned
  obtain ⟨frame, mapped, _⟩ := demand.present inHeap isTouched
  obtain ⟨data, _⟩ := owned.heap_data owned.paging.kernel inHeap (mapped _ owned.paging.kernel)
  have hit : s.kernel.access va = some (frame * pmmFrameSize + va % vmPageSize) := by
    rw [demand.coherent.tlb.access inHeap.canonical, translate, mapped _ owned.paging.current]
    rfl
  rw [Kernel.storeByte, hit]
  refine Function.update_of_ne ?_ _ _
  rintro rfl
  have place : (frame * pmmFrameSize + va % vmPageSize) / 4096 = frame := by
    simp only [pmmFrameSize, vmPageSize]
    omega
  rw [place] at spared
  exact data.2.2 spared.1

theorem Demand.storeBytes_bytes {va : Nat} {k : Kernel} {held : Finset Nat} {content : Nat → UInt8}
    {touched : Finset Nat} {bytes : List UInt8}
    (demand : Demand image reserved ⟨k, spaces, held⟩ ⟨content, touched⟩)
    (inHeap : ∀ offset < bytes.length, InHeap (va + offset))
    (isTouched : ∀ offset < bytes.length, pageNumber (va + offset) ∈ touched)
    (spared : image.Spared reserved (address / 4096)) :
    (k.storeBytes va bytes).mem address = k.mem address := by
  induction bytes generalizing k content va with
  | nil => rfl
  | cons value rest ih =>
      have here := inHeap 0 (by simp)
      have known := isTouched 0 (by simp)
      refine (ih (demand.storeByte here known value) (fun offset within => ?_)
        (fun offset within => ?_)).trans (demand.storeByte_bytes here known value spared)
      · rw [Nat.add_assoc, Nat.add_comm 1]
        exact inHeap (offset + 1) (by simpa using within)
      · rw [Nat.add_assoc, Nat.add_comm 1]
        exact isTouched (offset + 1) (by simpa using within)

/-- One step spares it. -/
theorem Demand.step_bytes {event : DemandEvent} (demand : Demand image reserved s array)
    (step : DemandStep s event s') (spared : image.Spared reserved (address / 4096)) :
    s'.kernel.mem address = s.kernel.mem address := by
  obtain ⟨level, owned⟩ := demand.owned
  obtain ⟨unused, inUse, notHeld⟩ := owned.spared spared
  cases step with
  | call allowed noFault => exact owned.paging.call_bytes allowed noFault unused inUse notHeld
  | read inHeap served => exact demand.served_bytes served inHeap spared
  | write inHeap served =>
      have after := demand.served served inHeap
      refine (after.storeBytes_bytes inHeap (fun offset within => ?_) spared).trans
        (demand.served_bytes served inHeap spared)
      exact Finset.mem_union_right _ (mem_pagesOf within)

/-- A run spares it. -/
theorem Demand.run_bytes {events : List DemandEvent} (run : Steps DemandStep s events s')
    (demand : Demand image reserved s array)
    (canonical : ∀ call, .call call ∈ events → CanonicalEvent call)
    (ready : array.touched.Nonempty ∨ .call .create ∉ events)
    (spared : image.Spared reserved (address / 4096)) :
    s'.kernel.mem address = s.kernel.mem address := by
  induction run with
  | refl => rfl
  | @snoc earlierEvents _ _ _ prior last ih =>
      have earlier : ∀ call, .call call ∈ earlierEvents → CanonicalEvent call :=
        fun call member => canonical call (List.mem_append_left _ member)
      have ready' := ready.imp_right fun absent member => absent (List.mem_append_left _ member)
      obtain ⟨middle, demandMiddle, _⟩ := demand.run prior earlier ready'
      exact (demandMiddle.step_bytes last spared).trans (ih earlier ready')

end Bytes

section Run

variable {image : Image} {mbInfo : Nat} {start s : System} {events : List DemandEvent} {address : Nat}

/-- After `heap_init` every run is one of a heap that has been used. -/
theorem Started.demand_run (started : Started image mbInfo start)
    (run : Steps DemandStep start (heapInitWrites.map .access ++ events) s)
    (canonical : ∀ call, .call call ∈ events → CanonicalEvent call) :
    (∃ array, Demand image (reservedFrames image mbInfo start.kernel.pmm.infoEnd) s array) ∧
      ∀ address, image.Spared (reservedFrames image mbInfo start.kernel.pmm.infoEnd) (address / 4096) →
        s.kernel.mem address = start.kernel.mem address := by
  obtain ⟨middle, init, later⟩ := run.split
  obtain ⟨array₁, demand₁, flat₁, _⟩ := started.demand.run init (by simp) (.inr (by simp))
  have visible : (heapInitWrites.map .access).filterMap DemandEvent.access? = heapInitWrites := rfl
  rw [visible] at flat₁
  have used : array₁.touched.Nonempty := by
    rw [FlatStep.run_eq flat₁, heapInitWrites_touched]
    exact ⟨_, Finset.mem_union_right _ (Finset.mem_singleton_self _)⟩
  obtain ⟨array, demand, _⟩ := demand₁.run later canonical (.inl used)
  refine ⟨⟨array, demand⟩, fun address spared => ?_⟩
  exact (demand₁.run_bytes later canonical (.inl used) spared).trans
    (started.demand.run_bytes init (by simp) (.inr (by simp)) spared)

end Run

end GodOs
