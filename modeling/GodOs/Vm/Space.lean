import GodOs.Machine.Mmu
import GodOs.Pmm.Frame

/-!
# Address spaces of `vm.c`

The kernel state and the functions of `vm.c`, over physical memory: the low
1 GB is identity mapped, so a physical address is also a pointer. A null pointer
is `0`, as in the source. The three table-creating stages of `vm_walk` are the
same code at three shifts, which is `vmWalkLevel` here.
-/

namespace GodOs

open Lib

def vmHeapBase : Nat := 0xFFFF800000000000
def vmHeapSize : Nat := 0x01000000
def vmScratchBase : Nat := 0xFFFF800001000000
def vmSpaceTestBase : Nat := 0x0000400000000000

/-- Physical memory, the static variables of `pmm.c` and `vm.c`, and the paging
state of the processor. -/
structure Kernel where
  mem : Memory
  pmm : Pmm
  kernelSpace : Nat
  faults : Nat
  inFault : Bool
  cr3 : Nat
  tlb : Tlb

/-- `pmm_alloc_frame` on the kernel state. -/
def Kernel.allocFrame (k : Kernel) : Kernel × Nat :=
  let (pmm, pa) := pmmAllocFrame k.pmm
  ({ k with pmm := pmm }, pa)

theorem Kernel.allocFrame_eq {k : Kernel} {pmm : Pmm} {pa : Nat}
    (run : pmmAllocFrame k.pmm = (pmm, pa)) : k.allocFrame = ({ k with pmm := pmm }, pa) := by
  rw [Kernel.allocFrame, run]

/-- `pmm_free_frame` on the kernel state. -/
def Kernel.freeFrame (k : Kernel) (pa : Nat) : Kernel :=
  { k with pmm := pmmFreeFrame k.pmm pa }

def vmInvlpg (k : Kernel) (va : Nat) : Kernel := { k with tlb := k.tlb.invlpg va }

/-- Writing CR3 drops every cached translation: no page is global. -/
def vmWriteCr3 (k : Kernel) (value : Nat) : Kernel := { k with cr3 := value, tlb := Tlb.empty }

def vmInit (k : Kernel) : Kernel :=
  { k with kernelSpace := k.cr3 &&& vmAddrMask, faults := 0, inFault := false }

def vmCurrentSpace (k : Kernel) : Nat := k.cr3 &&& vmAddrMask

/-- The loop that clears the first `count` entries of a table. -/
def zeroEntries (mem : Memory) (table : Nat) : Nat → Memory
  | 0 => mem
  | count + 1 => (zeroEntries mem table count).store (table + 8 * count) 8 0

/-- One stage of `vm_walk`: the table behind the entry at `pte`, made on demand
when `create` is set. -/
def vmWalkLevel (k : Kernel) (pte : Nat) (create : Bool) : Kernel × Option Nat :=
  let entry := k.mem.load pte 8
  if entry &&& vmPtePresent = 0 then
    if create then
      let (k, pa) := k.allocFrame
      if pa = 0 then (k, none)
      else
        let mem := zeroEntries k.mem pa 512
        let mem := mem.store pte 8 ((pa &&& vmAddrMask) ||| vmPtePresent ||| vmPteWrite)
        ({ k with mem := mem }, some (mem.load pte 8 &&& vmAddrMask))
    else (k, none)
  else if entry &&& vmPteHuge ≠ 0 then (k, none)
  else (k, some (entry &&& vmAddrMask))

/-- `vm_walk`: the address of the bottom-level entry of `va`, or `0`. -/
def vmWalk (k : Kernel) (space va : Nat) (create : Bool) : Kernel × Nat :=
  if space = 0 then (k, 0)
  else
    match vmWalkLevel k (space + 8 * ((va >>> 39) &&& 0x1FF)) create with
    | (k, none) => (k, 0)
    | (k, some table) =>
        match vmWalkLevel k (table + 8 * ((va >>> 30) &&& 0x1FF)) create with
        | (k, none) => (k, 0)
        | (k, some table) =>
            match vmWalkLevel k (table + 8 * ((va >>> 21) &&& 0x1FF)) create with
            | (k, none) => (k, 0)
            | (k, some table) => (k, table + 8 * ((va >>> 12) &&& 0x1FF))

def vmMap (k : Kernel) (space va pa flags : Nat) : Kernel × Int :=
  if space = 0 then (k, -1)
  else if va &&& (vmPageSize - 1) ≠ 0 ∨ pa &&& (vmPageSize - 1) ≠ 0 then (k, -1)
  else if pa ≥ pmmMaxPhys then (k, -1)
  else if va < pmmMaxPhys then (k, -1)
  else
    let (k, pte) := vmWalk k space va true
    if pte = 0 then (k, -1)
    else if k.mem.load pte 8 &&& vmPtePresent ≠ 0 then (k, -1)
    else
      let k := { k with mem := k.mem.store pte 8 ((pa &&& vmAddrMask) ||| flags) }
      (vmInvlpg k va, 0)

def vmUnmap (k : Kernel) (space va : Nat) : Kernel × Nat :=
  if space = 0 then (k, 0)
  else
    let (k, pte) := vmWalk k space va false
    if pte = 0 ∨ k.mem.load pte 8 &&& vmPtePresent = 0 then (k, 0)
    else
      let oldPa := k.mem.load pte 8 &&& vmAddrMask
      let k := { k with mem := k.mem.store pte 8 0 }
      (vmInvlpg k va, oldPa)

/-- The loop that copies `count` entries from index `first` of one table to another. -/
def copyEntries (mem : Memory) (source target first : Nat) : Nat → Memory
  | 0 => mem
  | count + 1 =>
      let mem := copyEntries mem source target first count
      mem.store (target + 8 * (first + count)) 8 (mem.load (source + 8 * (first + count)) 8)

def vmCreateSpace (k : Kernel) : Kernel × Nat :=
  if k.kernelSpace = 0 then (k, 0)
  else
    let (k, pa) := k.allocFrame
    if pa = 0 then (k, 0)
    else
      let mem := zeroEntries k.mem pa 512
      let mem := mem.store pa 8 (mem.load k.kernelSpace 8)
      let mem := copyEntries mem k.kernelSpace pa 256 256
      ({ k with mem := mem }, pa)

def vmSwitch (k : Kernel) (space : Nat) : Kernel :=
  if space = 0 then k else vmWriteCr3 k space

def vmSwitchKernel (k : Kernel) : Kernel := vmSwitch k k.kernelSpace

/-- `vm_handle_page_fault` for the fault address in CR2 and the error code of
the interrupt frame; `1` means that the faulting instruction is retried. -/
def vmHandlePageFault (k : Kernel) (cr2 errorCode : Nat) : Kernel × Nat :=
  if k.inFault then (k, 0)
  else if errorCode &&& 1 ≠ 0 then (k, 0)
  else if errorCode &&& 8 ≠ 0 then (k, 0)
  else if errorCode &&& 16 ≠ 0 then (k, 0)
  else if cr2 < vmHeapBase ∨ cr2 ≥ vmHeapBase + vmHeapSize then (k, 0)
  else
    let k := { k with inFault := true }
    let (k, frame) := k.allocFrame
    if frame = 0 then ({ k with inFault := false }, 0)
    else
      let k := { k with mem := zeroEntries k.mem frame 512 }
      let page := cr2 &&& 0xFFFFFFFFFFFFF000
      let (k, status) :=
        vmMap k (vmCurrentSpace k) page frame (vmPtePresent ||| vmPteWrite)
      if status ≠ 0 then
        let k := k.freeFrame frame
        ({ k with inFault := false }, 0)
      else ({ k with faults := u64 (k.faults + 1), inFault := false }, 1)

def vmFaultCount (k : Kernel) : Nat := k.faults

end GodOs
