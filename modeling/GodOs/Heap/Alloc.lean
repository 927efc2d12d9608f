import GodOs.Lib.Memory
import GodOs.Lib.Outcome
import GodOs.Vm.Space

/-!
# The allocator of `heap.c`

First fit over a row of blocks whose 16-byte headers lie in the heap itself. The
heap is seen as flat memory; the pages behind it appear on demand. The loops run
with a budget of `2 ^ 64` rounds, more than there are addresses.
-/

namespace GodOs

open Lib

def heapMagic : Nat := 0x48454150

/-- `sizeof(block_t)`. -/
def blockHeader : Nat := 16

/-- The heap: memory and the two static pointers. -/
structure Heap where
  mem : Memory
  start : Nat
  finish : Nat

/-- The fields of the block header at `b`. -/
def blockMagic (mem : Memory) (b : Nat) : Nat := mem.load b 4
def blockFree (mem : Memory) (b : Nat) : Nat := mem.load (b + 4) 4
def blockSize (mem : Memory) (b : Nat) : Nat := mem.load (b + 8) 8

def setMagic (mem : Memory) (b value : Nat) : Memory := mem.store b 4 value
def setFree (mem : Memory) (b value : Nat) : Memory := mem.store (b + 4) 4 value
def setSize (mem : Memory) (b value : Nat) : Memory := mem.store (b + 8) 8 value

/-- The block after the one at `b`. -/
def blockNext (mem : Memory) (b : Nat) : Nat := u64 (b + blockHeader + blockSize mem b)

/-- `heap_init` on a heap that has any content. -/
def heapInit (mem : Memory) : Heap :=
  let start := vmHeapBase
  let finish := vmHeapBase + vmHeapSize
  let mem := setMagic mem start heapMagic
  let mem := setFree mem start 1
  let mem := setSize mem start (vmHeapSize - blockHeader)
  { mem, start, finish }

/-- Split the free block at `b` if that is worth it, and take its front. -/
def kmallocTake (mem : Memory) (b need : Nat) : Memory :=
  let remain := blockSize mem b - need
  let mem :=
    if remain ≥ blockHeader + 16 then
      let nb := u64 (b + blockHeader + need)
      let mem := setMagic mem nb heapMagic
      let mem := setFree mem nb 1
      let mem := setSize mem nb (remain - blockHeader)
      setSize mem b need
    else mem
  setFree mem b 0

/-- The search loop of `kmalloc`, from the block at `b`. -/
def kmallocFrom (h : Heap) (need : Nat) : Nat → Nat → Outcome (Heap × Nat)
  | 0, _ => .loop
  | budget + 1, b =>
      if b < h.finish then
        if blockMagic h.mem b ≠ heapMagic then .halted "M8/HEAP: corrupt magic in kmalloc"
        else if blockFree h.mem b ≠ 0 ∧ blockSize h.mem b ≥ need then
          .done ({ h with mem := kmallocTake h.mem b need }, u64 (b + blockHeader))
        else
          let next := blockNext h.mem b
          if next ≥ h.finish then .done (h, 0) else kmallocFrom h need budget next
      else .done (h, 0)

def kmalloc (h : Heap) (size : Nat) : Outcome (Heap × Nat) :=
  if size = 0 ∨ size > vmHeapSize ∨ h.start = 0 then .done (h, 0)
  else
    let need := u64 (size + 15) &&& 0xFFFFFFFFFFFFFFF0
    kmallocFrom h need (2 ^ 64) h.start

/-- The loop that merges the blocks behind `b` into it. -/
def kfreeForward (finish b : Nat) : Nat → Memory → Outcome Memory
  | 0, _ => .loop
  | budget + 1, mem =>
      let next := blockNext mem b
      if next ≥ finish then .done mem
      else if blockMagic mem next ≠ heapMagic then .halted "M8/HEAP: bad magic in forward merge"
      else if blockFree mem next = 0 then .done mem
      else
        kfreeForward finish b budget
          (setSize mem b (blockSize mem b + (blockHeader + blockSize mem next)))

/-- The loop that walks to the block before `b`. -/
def kfreePrev (mem : Memory) (b : Nat) : Nat → Nat → Nat → Outcome Nat
  | 0, _, _ => .loop
  | budget + 1, prev, cur =>
      if cur < b then kfreePrev mem b budget cur (blockNext mem cur) else .done prev

def kfree (h : Heap) (ptr : Nat) : Outcome Heap :=
  if ptr = 0 then .done h
  else
    let b := u64 (ptr + (2 ^ 64 - blockHeader))
    if b < h.start ∨ b ≥ h.finish then .halted "M8/HEAP: kfree out of range"
    else if blockMagic h.mem b ≠ heapMagic then .halted "M8/HEAP: kfree bad magic"
    else if blockFree h.mem b ≠ 0 then .halted "M8/HEAP: double free"
    else
      (kfreeForward h.finish b (2 ^ 64) (setFree h.mem b 1)).bind fun mem =>
      (kfreePrev mem b (2 ^ 64) 0 h.start).bind fun prev =>
      if prev ≠ 0 ∧ blockFree mem prev ≠ 0 then
        .done { h with mem := setSize mem prev (blockSize mem prev + (blockHeader + blockSize mem b)) }
      else .done { h with mem := mem }

/-- The loop of `heap_free_bytes` from the block at `b`. -/
def heapFreeBytesFrom (h : Heap) : Nat → Nat → Nat → Outcome Nat
  | 0, _, _ => .loop
  | budget + 1, b, total =>
      if b < h.finish then
        if blockMagic h.mem b ≠ heapMagic then .halted "M8/HEAP: corrupt magic in free_bytes"
        else
          let total := if blockFree h.mem b ≠ 0 then u64 (total + blockSize h.mem b) else total
          let next := blockNext h.mem b
          if next ≥ h.finish then .done total else heapFreeBytesFrom h budget next total
      else .done total

def heapFreeBytes (h : Heap) : Outcome Nat := heapFreeBytesFrom h (2 ^ 64) h.start 0

section Fields

variable {mem mem' : Memory} {b value : Nat}

/-- A header depends on its own 16 bytes. -/
theorem header_congr (same : ∀ address, b ≤ address → address < b + 16 → mem' address = mem address) :
    blockMagic mem' b = blockMagic mem b ∧ blockFree mem' b = blockFree mem b ∧
      blockSize mem' b = blockSize mem b :=
  ⟨Memory.load_congr fun address lower upper => same address (by omega) (by omega),
    Memory.load_congr fun address lower upper => same address (by omega) (by omega),
    Memory.load_congr fun address lower upper => same address (by omega) (by omega)⟩

theorem setMagic_outside {address : Nat} (outside : address < b ∨ b + 16 ≤ address) :
    setMagic mem b value address = mem address :=
  Memory.store_outside (by omega)

theorem setFree_outside {address : Nat} (outside : address < b ∨ b + 16 ≤ address) :
    setFree mem b value address = mem address :=
  Memory.store_outside (by omega)

theorem setSize_outside {address : Nat} (outside : address < b ∨ b + 16 ≤ address) :
    setSize mem b value address = mem address :=
  Memory.store_outside (by omega)

@[simp] theorem blockMagic_setMagic (fits : value < 2 ^ 32) :
    blockMagic (setMagic mem b value) b = value := by
  rw [blockMagic, setMagic, Memory.load_store_same]
  exact Nat.mod_eq_of_lt fits

@[simp] theorem blockFree_setFree (fits : value < 2 ^ 32) : blockFree (setFree mem b value) b = value := by
  rw [blockFree, setFree, Memory.load_store_same]
  exact Nat.mod_eq_of_lt fits

@[simp] theorem blockSize_setSize (fits : value < 2 ^ 64) : blockSize (setSize mem b value) b = value := by
  rw [blockSize, setSize, Memory.load_store_same]
  exact Nat.mod_eq_of_lt fits

@[simp] theorem blockMagic_setFree : blockMagic (setFree mem b value) b = blockMagic mem b :=
  Memory.load_store_disjoint (by omega)

@[simp] theorem blockMagic_setSize : blockMagic (setSize mem b value) b = blockMagic mem b :=
  Memory.load_store_disjoint (by omega)

@[simp] theorem blockFree_setSize : blockFree (setSize mem b value) b = blockFree mem b :=
  Memory.load_store_disjoint (by omega)

@[simp] theorem blockFree_setMagic : blockFree (setMagic mem b value) b = blockFree mem b :=
  Memory.load_store_disjoint (by omega)

@[simp] theorem blockSize_setMagic : blockSize (setMagic mem b value) b = blockSize mem b :=
  Memory.load_store_disjoint (by omega)

@[simp] theorem blockSize_setFree : blockSize (setFree mem b value) b = blockSize mem b :=
  Memory.load_store_disjoint (by omega)

end Fields

end GodOs
