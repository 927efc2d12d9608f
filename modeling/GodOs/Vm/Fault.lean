import GodOs.Vm.Map

/-!
# The page-fault handler

`vmHandlePageFault_cases` says what the handler can do for the current space:
nothing, a growth of the tables that maps nothing, or a mapping of the faulting
page to a cleared frame from the pool.
-/

namespace GodOs

open Lib Lib.Forest

/-- The faults the handler takes on: outside a handler run, no protection,
reserved-bit or instruction-fetch fault, and an address in the heap window. -/
def FaultFilter (k : Kernel) (cr2 errorCode : Nat) : Prop :=
  k.inFault = false ∧ errorCode &&& 1 = 0 ∧ errorCode &&& 8 = 0 ∧ errorCode &&& 16 = 0 ∧
    vmHeapBase ≤ cr2 ∧ cr2 < vmHeapBase + vmHeapSize

/-- The state in which the handler maps its cleared data frame. -/
def faultStart (k : Kernel) (frame : Nat) : Kernel :=
  { k with
    inFault := true
    pmm := pmmTake k.pmm frame
    mem := zeroEntries k.mem (frame * pmmFrameSize) 512 }

/-- The page of a fault address. -/
def faultPage (cr2 : Nat) : Nat := cr2 &&& 0xFFFFFFFFFFFFF000

theorem faultPage_eq {cr2 : Nat} (fits : cr2 < 2 ^ 64) : faultPage cr2 = cr2 / 4096 * 4096 :=
  @Bits.align_down cr2 12 52 fits

section Fault

variable {k : Kernel} {spaces : List Nat} {level : Nat → Nat} {identity frame : Nat}

/-- Clearing the data frame changes no other byte. -/
theorem faultStart_mem {address : Nat}
    (outside : address < frame * pmmFrameSize ∨ frame * pmmFrameSize + 4096 ≤ address) :
    (faultStart k frame).mem address = k.mem address := by
  unfold faultStart
  simp only
  rw [zeroEntries_apply, if_neg (by omega)]

/-- The data frame is cleared. -/
theorem faultStart_zero {offset : Nat} (within : offset < 4096) :
    (faultStart k frame).mem (frame * pmmFrameSize + offset) = 0 := by
  unfold faultStart
  simp only
  rw [zeroEntries_apply, if_pos (by omega)]

/-- Clearing the data frame spares the tables. -/
theorem Paging.faultStart_bytes (paging : Paging k spaces level identity)
    (free : frame ∈ freeSet k.pmm.bitmap) {address : Nat}
    (isTable : level (address / 4096 * 4096) ≠ 0) :
    (faultStart k frame).mem address = k.mem address := by
  have unused := paging.not_free free
  have different : address / 4096 * 4096 ≠ frame * pmmFrameSize := by
    intro same
    rw [same] at isTable
    exact isTable unused
  simp only [pmmFrameSize] at different
  exact faultStart_mem (by simp only [pmmFrameSize]; omega)

/-- Taking a data frame keeps the paging invariant. -/
theorem Paging.atFault (paging : Paging k spaces level identity)
    (free : frame ∈ freeSet k.pmm.bitmap) :
    Paging (faultStart k frame) spaces level identity := by
  refine paging.congr (fun _ isTable => paging.faultStart_bytes free isTable) ?_ rfl paging.current
  · intro other still
    simp only [faultStart, pmmTake, freeSet_set, Finset.mem_erase] at still
    refine ⟨?_, paging.not_free still.2⟩
    rintro rfl
    exact paging.reserved still.2

/-- What the handler does with a fault that passes its filter. -/
theorem vmHandlePageFault_eq {cr2 errorCode : Nat} (filter : FaultFilter k cr2 errorCode) :
    vmHandlePageFault k cr2 errorCode =
      match ({ k with inFault := true } : Kernel).allocFrame with
      | (k, frame) =>
          if frame = 0 then ({ k with inFault := false }, 0)
          else
            match vmMap { k with mem := zeroEntries k.mem frame 512 } (vmCurrentSpace k)
              (faultPage cr2) frame (vmPtePresent ||| vmPteWrite) with
            | (k, status) =>
                if status ≠ 0 then ({ k.freeFrame frame with inFault := false }, 0)
                else ({ k with faults := u64 (k.faults + 1), inFault := false }, 1) := by
  obtain ⟨idle, protection, reserved, fetch, lower, upper⟩ := filter
  unfold vmHandlePageFault
  rw [if_neg (by simp [idle]), if_neg (not_not_intro protection), if_neg (not_not_intro reserved),
    if_neg (not_not_intro fetch), if_neg (by omega)]
  rfl

theorem vmHandlePageFault_filtered {cr2 errorCode : Nat} (blocked : ¬ FaultFilter k cr2 errorCode) :
    vmHandlePageFault k cr2 errorCode = (k, 0) := by
  unfold vmHandlePageFault
  split_ifs with busy protection reserved fetch outside
  any_goals rfl
  exact absurd ⟨by simpa using busy, not_not.mp protection, not_not.mp reserved, not_not.mp fetch,
    by omega, by omega⟩ blocked

/-- A fault that passes the filter takes a data frame, clears it, and is served when
`vm_map` maps the page to it; otherwise the frame goes back to the pool. -/
theorem Paging.vmHandlePageFault_map (paging : Paging k spaces level identity) {cr2 errorCode : Nat}
    (filter : FaultFilter k cr2 errorCode) :
    ((pmmAllocFrame k.pmm).2 = 0 ∧ vmHandlePageFault k cr2 errorCode = (k, 0)) ∨
    ∃ frame ∈ freeSet k.pmm.bitmap,
      pmmAllocFrame k.pmm = (pmmTake k.pmm frame, frame * pmmFrameSize) ∧
      MapGuards (faultPage cr2) (frame * pmmFrameSize) ∧
      vmHandlePageFault k cr2 errorCode =
        match vmMap (faultStart k frame) k.cr3 (faultPage cr2) (frame * pmmFrameSize)
          (vmPtePresent ||| vmPteWrite) with
        | (k, status) =>
            if status ≠ 0 then ({ k.freeFrame (frame * pmmFrameSize) with inFault := false }, 0)
            else ({ k with faults := u64 (k.faults + 1), inFault := false }, 1) := by
  have ⟨idle, _, _, _, lower, upper⟩ := filter
  rw [vmHandlePageFault_eq filter]
  rcases pmmAllocFrame_cases k.pmm with ⟨frame, free, taken⟩ | failed
  · have nonzero : frame ≠ 0 := by
      rintro rfl
      exact paging.reserved free
    have address : frame * pmmFrameSize ≠ 0 := by simpa [pmmFrameSize] using nonzero
    have inRange := (mem_freeSet.mp free).1
    have currentLevel := paging.rootLevel paging.current
    have aligned := paging.aligned (show level k.cr3 ≠ 0 by omega)
    have space : k.cr3 &&& vmAddrMask = k.cr3 := addrMask_of_aligned aligned.1 (by omega)
    have inFrame : frame * pmmFrameSize % 4096 = 0 ∧ frame * pmmFrameSize < 2 ^ 30 := by
      simp only [pmmFrameCount, pmmMaxPhys, pmmFrameSize] at inRange ⊢
      omega
    have guards : MapGuards (faultPage cr2) (frame * pmmFrameSize) := by
      simp only [vmHeapBase, vmHeapSize] at lower upper
      have page : faultPage cr2 = cr2 / 4096 * 4096 := faultPage_eq (by omega)
      exact ⟨by omega, inFrame.1, inFrame.2, by omega⟩
    have start : ({ ({ k with inFault := true, pmm := pmmTake k.pmm frame } : Kernel) with
        mem := zeroEntries k.mem (frame * pmmFrameSize) 512 } : Kernel) = faultStart k frame := rfl
    refine .inr ⟨frame, free, taken, guards, ?_⟩
    rw [@Kernel.allocFrame_eq { k with inFault := true } _ _ taken]
    simp only [if_neg address, vmCurrentSpace, space, start]
  · refine .inl ⟨by rw [failed], ?_⟩
    rw [@Kernel.allocFrame_eq { k with inFault := true } _ _ failed]
    simp only [if_true]
    rw [← idle]

/-- What the page-fault handler can do. -/
theorem Paging.vmHandlePageFault_cases (paging : Paging k spaces level identity)
    (cr2 errorCode : Nat) :
    (¬ FaultFilter k cr2 errorCode ∧ vmHandlePageFault k cr2 errorCode = (k, 0)) ∨
    (FaultFilter k cr2 errorCode ∧ (pmmAllocFrame k.pmm).2 = 0 ∧
      vmHandlePageFault k cr2 errorCode = (k, 0)) ∨
    (FaultFilter k cr2 errorCode ∧ ∃ frame ∈ freeSet k.pmm.bitmap,
      pmmAllocFrame k.pmm = (pmmTake k.pmm frame, frame * pmmFrameSize) ∧
      ∃ k' level', Paging k' spaces level' identity ∧
        Grown (faultStart k frame) level k' level' ∧
        LinksAlong (faultStart k frame) level k' level' k.cr3 (upperPath (faultPage cr2)) ∧
        ((MapRefused (faultStart k frame) k' level' k.cr3 (faultPage cr2) ∧
            vmHandlePageFault k cr2 errorCode =
              ({ k'.freeFrame (frame * pmmFrameSize) with inFault := false }, 0)) ∨
          ∃ bottom, WalkOutcome (faultStart k frame) k' level' k.cr3
              (upperPath (faultPage cr2)) true (some bottom) ∧
            tables k'.mem level' bottom (leafIndex (faultPage cr2)) = .absent ∧
            vmHandlePageFault k cr2 errorCode =
              ({ vmInvlpg (writeLeaf k' bottom (leafIndex (faultPage cr2))
                  (frame * pmmFrameSize + 3)) (faultPage cr2) with
                faults := u64 (k.faults + 1), inFault := false }, 1))) := by
  by_cases filter : FaultFilter k cr2 errorCode
  swap
  · exact .inl ⟨filter, vmHandlePageFault_filtered filter⟩
  refine .inr ?_
  rcases paging.vmHandlePageFault_map filter with ⟨failed, run⟩ | ⟨frame, free, taken, guards, run⟩
  · exact .inl ⟨filter, failed, run⟩
  refine .inr ⟨filter, frame, free, taken, ?_⟩
  have inFrame := guards.paBelow
  have entry : (frame * pmmFrameSize &&& vmAddrMask) ||| (vmPtePresent ||| vmPteWrite) =
      frame * pmmFrameSize + 3 := by
    rw [← Nat.or_assoc]
    exact tableEntry_eq guards.paAligned (by omega)
  rw [run]
  rcases (paging.atFault free).vmMap_cases paging.current (faultPage cr2) (frame * pmmFrameSize)
    (vmPtePresent ||| vmPteWrite) with ⟨refused, _⟩ | ⟨_, k', level', paging', grown, along, outcome⟩
  · exact absurd guards refused
  refine ⟨k', level', paging', grown, along, ?_⟩
  rcases outcome with ⟨refused, mapped⟩ | ⟨bottom, walked, absent, mapped⟩
  · exact .inl ⟨refused, by rw [mapped]; rfl⟩
  · refine .inr ⟨bottom, walked, absent, ?_⟩
    have faults : k'.faults = k.faults := by rw [grown.rest]; rfl
    rw [mapped, entry]
    simp only [ne_eq, not_true_eq_false, if_false, vmInvlpg, writeLeaf, faults]

end Fault

end GodOs
