import GodOs.Vm.Walk

/-!
# Creating an address space

`vm_create_space` takes a frame, clears it, and copies PML4 slots 0 and 256 to
511 of the kernel space: in the forest it adds a root that shares exactly these
slots with the kernel.
-/

namespace GodOs

open Lib Lib.Forest

section Copy

variable {mem : Memory} {source target first count : Nat}

/-- Copying entries changes only the copied range of the target. -/
theorem copyEntries_outside {address : Nat}
    (outside : address < target + 8 * first ∨ target + 8 * (first + count) ≤ address) :
    copyEntries mem source target first count address = mem address := by
  induction count with
  | zero => rfl
  | succ count ih =>
      simp only [copyEntries]
      rw [Memory.store_outside (by omega), ih (by omega)]

/-- A copied entry equals its source, which the copy does not touch. -/
theorem copyEntries_inside {index : Nat} (lower : first ≤ index) (upper : index < first + count)
    (disjoint : source + 8 * (first + count) ≤ target + 8 * first ∨
      target + 8 * (first + count) ≤ source + 8 * first) :
    entryAt (copyEntries mem source target first count) target index = entryAt mem source index := by
  induction count with
  | zero => omega
  | succ count ih =>
      simp only [copyEntries, entryAt]
      have sourceKept : (copyEntries mem source target first count).load
          (source + 8 * (first + count)) 8 = mem.load (source + 8 * (first + count)) 8 :=
        Memory.load_congr fun address below above => copyEntries_outside (by omega)
      by_cases last : index = first + count
      · rw [last, Memory.load_store_same, sourceKept]
        exact Nat.mod_eq_of_lt (Memory.load_lt _ _ _)
      · rw [Memory.load_store_disjoint (by omega)]
        exact ih (by omega) (by omega)

end Copy

/-- The state after the frame of a new PML4 has been filled. -/
def newSpace (k : Kernel) (frame : Nat) : Kernel :=
  let mem := zeroEntries k.mem (frame * pmmFrameSize) 512
  let mem := mem.store (frame * pmmFrameSize) 8 (mem.load k.kernelSpace 8)
  { k with
    pmm := pmmTake k.pmm frame
    mem := copyEntries mem k.kernelSpace (frame * pmmFrameSize) 256 256 }

/-- The levels after a new PML4. -/
def newLevel (level : Nat → Nat) (frame : Nat) : Nat → Nat :=
  Function.update level (frame * pmmFrameSize) 4

section NewSpace

variable {k : Kernel} {frame : Nat}

@[simp] theorem newSpace_pmm (k : Kernel) (frame : Nat) :
    (newSpace k frame).pmm = pmmTake k.pmm frame := rfl

/-- Filling a PML4 changes only its frame. -/
theorem newSpace_mem {address : Nat}
    (outside : address < frame * pmmFrameSize ∨ frame * pmmFrameSize + 4096 ≤ address) :
    (newSpace k frame).mem address = k.mem address := by
  unfold newSpace
  simp only
  rw [copyEntries_outside (by omega), Memory.store_outside (by omega), zeroEntries_apply,
    if_neg (by omega)]

/-- The entries of a new PML4. -/
theorem newSpace_entry
    (disjoint : k.kernelSpace + 4096 ≤ frame * pmmFrameSize ∨
      frame * pmmFrameSize + 4096 ≤ k.kernelSpace) (index : Fin 512) :
    entryAt (newSpace k frame).mem (frame * pmmFrameSize) index =
      if Shared index then entryAt k.mem k.kernelSpace index else 0 := by
  have bound := index.isLt
  have untouched : ∀ {mem : Memory} {offset : Nat}, offset < 512 →
      (∀ address, k.kernelSpace ≤ address → address < k.kernelSpace + 4096 →
        mem address = k.mem address) →
      mem.load (k.kernelSpace + 8 * offset) 8 = k.mem.load (k.kernelSpace + 8 * offset) 8 :=
    fun small same => Memory.load_congr fun address below above => same address (by omega) (by omega)
  have cleared : ∀ address, k.kernelSpace ≤ address → address < k.kernelSpace + 4096 →
      zeroEntries k.mem (frame * pmmFrameSize) 512 address = k.mem address := by
    intro address below above
    rw [zeroEntries_apply, if_neg (by omega)]
  unfold newSpace
  simp only
  by_cases high : 256 ≤ index.val
  · have shared : Shared index := .inr high
    rw [if_pos shared, copyEntries_inside high (by omega) (by omega), entryAt, untouched bound]
    · rfl
    · intro address below above
      rw [Memory.store_outside (by omega)]
      exact cleared address below above
  · have notCopied : ∀ mem : Memory,
        (copyEntries mem k.kernelSpace (frame * pmmFrameSize) 256 256).load
          (frame * pmmFrameSize + 8 * index.val) 8 =
            mem.load (frame * pmmFrameSize + 8 * index.val) 8 :=
      fun mem => Memory.load_congr fun address below above => copyEntries_outside (by omega)
    rw [entryAt, notCopied]
    by_cases zero : index.val = 0
    · have shared : Shared index := .inl zero
      rw [if_pos shared, zero, Nat.mul_zero, Nat.add_zero, Memory.load_store_same,
        Nat.mod_eq_of_lt (Memory.load_lt _ _ _)]
      have kept := untouched (show 0 < 512 by decide) cleared
      rw [Nat.mul_zero, Nat.add_zero] at kept
      rw [kept, entryAt, Nat.mul_zero, Nat.add_zero]
    · have notShared : ¬ Shared index := by
        rintro (low | up)
        · exact zero low
        · exact high up
      rw [if_neg notShared, Memory.load_store_disjoint (by omega)]
      refine Memory.load_zero fun offset within => ?_
      rw [zeroEntries_apply, if_pos (by omega)]

end NewSpace

section Create

variable {k : Kernel} {spaces : List Nat} {level : Nat → Nat} {identity frame : Nat}

/-- What a new PML4 does to the forest of tables. -/
theorem Paging.addRoot (paging : Paging k spaces level identity)
    (free : frame ∈ freeSet k.pmm.bitmap) :
    AddRoot (tables k.mem level) level (tables (newSpace k frame).mem (newLevel level frame))
      (newLevel level frame) 4 Shared k.kernelSpace (frame * pmmFrameSize) := by
  have isFresh : level (frame * pmmFrameSize) = 0 := paging.not_free free
  have apart : ∀ {other}, level other ≠ 0 →
      other + 4096 ≤ frame * pmmFrameSize ∨ frame * pmmFrameSize + 4096 ≤ other := by
    intro other isTable
    have aligned := paging.aligned isTable
    have notFresh : other ≠ frame * pmmFrameSize := by
      rintro rfl
      exact isTable isFresh
    simp only [pmmFrameSize] at notFresh ⊢
    omega
  have kernelLevel := paging.rootLevel paging.kernel
  have levels : ∀ {other}, other ≠ frame * pmmFrameSize → newLevel level frame other = level other :=
    fun other => Function.update_of_ne other _ _
  have freshLevel : newLevel level frame (frame * pmmFrameSize) = 4 := Function.update_self _ _ _
  have entry := newSpace_entry (apart (show level k.kernelSpace ≠ 0 by omega))
  refine
    { modelTop := kernelLevel, isFresh := isFresh, freshLevel := freshLevel, copied := ?_,
      empty := ?_, same := ?_, levels := levels }
  · intro index shared
    rw [tables, tables, entry, if_pos shared, freshLevel, kernelLevel]
  · intro index notShared
    rw [tables, entry, if_neg notShared]
    exact decode_eq_absent.mpr rfl
  · intro other index isTable
    have otherApart := apart isTable
    have bound := index.isLt
    have notFresh : other ≠ frame * pmmFrameSize := by
      rintro rfl
      exact isTable isFresh
    have sameEntry : entryAt (newSpace k frame).mem other index = entryAt k.mem other index :=
      Memory.load_congr fun address below above => newSpace_mem (by omega)
    rw [tables, tables, levels notFresh, sameEntry]

/-- Creating a space keeps the paging invariant, with the new space known. -/
theorem Paging.created (paging : Paging k spaces level identity)
    (free : frame ∈ freeSet k.pmm.bitmap) :
    Paging (newSpace k frame) (frame * pmmFrameSize :: spaces) (newLevel level frame) identity := by
  have add := paging.addRoot free
  have kernelLevel := paging.rootLevel paging.kernel
  refine
    { shape := add.shape (by decide) paging.shape, root := ?_, bounded := ?_, rooted := ?_,
      frame := ?_,
      kernel := List.mem_cons_of_mem _ paging.kernel,
      current := List.mem_cons_of_mem _ paging.current, reserved := ?_, window := ?_, huge := ?_ }
  · intro table
    rw [List.mem_cons]
    by_cases isFresh : table = frame * pmmFrameSize
    · rw [isFresh, add.freshLevel]
      simp
    · rw [add.levels isFresh, paging.root]
      simp [isFresh]
  · intro table
    by_cases isFresh : table = frame * pmmFrameSize
    · rw [isFresh, add.freshLevel]
    · rw [add.levels isFresh]
      exact paging.bounded table
  · intro table isTable
    by_cases isFresh : table = frame * pmmFrameSize
    · exact ⟨table, by simp [isFresh], [], rfl⟩
    · rw [add.levels isFresh] at isTable
      obtain ⟨space, known, path, reached⟩ := paging.rooted isTable
      have rootLevel := paging.rootLevel known
      refine ⟨space, List.mem_cons_of_mem _ known, path, ?_⟩
      rwa [add.descend paging.shape _ (by omega)]
  · intro table isTable
    simp only [newSpace_pmm, pmmTake, freeSet_set, Finset.mem_erase]
    by_cases isFresh : table = frame * pmmFrameSize
    · refine ⟨frame, ?_, (mem_freeSet.mp free).1, isFresh, fun still => still.1 rfl⟩
      rintro rfl
      exact paging.reserved free
    · rw [add.levels isFresh] at isTable
      obtain ⟨other, nonzero, small, rfl, used⟩ := paging.frame isTable
      exact ⟨other, nonzero, small, rfl, fun still => used still.2⟩
  · simp only [newSpace_pmm, pmmTake, freeSet_set, Finset.mem_erase]
    exact fun still => paging.reserved still.2
  · intro space known
    rw [List.mem_cons] at known
    have shared : Shared 0 := .inl rfl
    have kernelWindow := paging.window paging.kernel
    rw [← add.descend paging.shape _ (show level k.kernelSpace ≠ 0 by omega)] at kernelWindow
    rcases known with rfl | known
    · have same : tables (newSpace k frame).mem (newLevel level frame) (frame * pmmFrameSize) 0 =
          tables (newSpace k frame).mem (newLevel level frame) k.kernelSpace 0 := by
        rw [add.copied shared, add.same (by omega)]
      rw [Store.descend, same]
      exact kernelWindow
    · have rootLevel := paging.rootLevel known
      rw [add.descend paging.shape _ (by omega)]
      exact paging.window known
  · intro table index entry isTable upper slot
    by_cases isFresh : table = frame * pmmFrameSize
    · -- the kernel's PML4 holds no large page, so its copy holds none
      subst isFresh
      by_cases shared : Shared index
      · rw [add.copied shared] at slot
        have impossible := paging.huge (by omega) (by omega) slot
        have identityLevel := paging.identityLevel
        rw [← impossible] at identityLevel
        omega
      · rw [add.empty shared] at slot
        cases slot
    · rw [add.levels isFresh] at isTable upper
      rw [add.same isTable] at slot
      exact paging.huge isTable upper slot

/-- What `vm_create_space` can do. -/
theorem Paging.vmCreateSpace_cases (paging : Paging k spaces level identity) :
    ((pmmAllocFrame k.pmm).2 = 0 ∧ vmCreateSpace k = (k, 0)) ∨
    ∃ frame ∈ freeSet k.pmm.bitmap, frame ≠ 0 ∧
      pmmAllocFrame k.pmm = (pmmTake k.pmm frame, frame * pmmFrameSize) ∧
      vmCreateSpace k = (newSpace k frame, frame * pmmFrameSize) := by
  have kernelLevel := paging.rootLevel paging.kernel
  have notNull : k.kernelSpace ≠ 0 := by
    have := paging.aligned (show level k.kernelSpace ≠ 0 by omega)
    omega
  unfold vmCreateSpace
  rw [if_neg notNull]
  rcases pmmAllocFrame_cases k.pmm with ⟨frame, free, taken⟩ | failed
  · have nonzero : frame ≠ 0 := by
      rintro rfl
      exact paging.reserved free
    have address : frame * pmmFrameSize ≠ 0 := by simpa [pmmFrameSize] using nonzero
    refine .inr ⟨frame, free, nonzero, taken, ?_⟩
    rw [Kernel.allocFrame_eq taken]
    simp only [if_neg address]
    rfl
  · refine .inl ⟨by rw [failed], ?_⟩
    rw [Kernel.allocFrame_eq failed]
    rfl

end Create

end GodOs
