import GodOs.Lib.Forest
import GodOs.Vm.Space

/-!
# Page tables as a shared forest

`tables` reads the physical memory of the kernel as a store of table slots, and
`Paging` is the invariant that every operation of `vm.c` keeps: the tables form
a forest shared only through PML4 slots 0 and 256 to 511, every table is a
frame in use, and large pages occur only in the directory of the identity
window. `translatePage_eq_lookup` connects the hardware walk to the forest.
-/

namespace GodOs

open Lib Lib.Forest

/-- A table entry as a slot of a table at some level. -/
def decode (level entry : Nat) : Slot Nat Nat :=
  if entry &&& vmPtePresent = 0 then .absent
  else if level = 1 then .page entry
  else if entry &&& vmPteHuge ≠ 0 then .page entry
  else .table (entry &&& vmAddrMask)

theorem decode_eq_absent {level entry : Nat} :
    decode level entry = .absent ↔ entry &&& vmPtePresent = 0 := by
  unfold decode
  split
  next absent => simp [absent]
  next present => split_ifs <;> simpa using present

theorem decode_eq_page {level entry value : Nat} :
    decode level entry = .page value ↔
      entry &&& vmPtePresent ≠ 0 ∧ (level = 1 ∨ entry &&& vmPteHuge ≠ 0) ∧ value = entry := by
  unfold decode
  split_ifs with absent bottom huge <;> simp_all [eq_comm]

theorem decode_eq_table {level entry child : Nat} :
    decode level entry = .table child ↔
      entry &&& vmPtePresent ≠ 0 ∧ level ≠ 1 ∧ entry &&& vmPteHuge = 0 ∧
        child = entry &&& vmAddrMask := by
  unfold decode
  split_ifs with absent bottom huge <;> simp_all [eq_comm]

/-- The slots of every table, read with the level of the table. -/
def tables (mem : Memory) (level : Nat → Nat) : Store Nat (Fin 512) Nat :=
  fun table index => decode (level table) (entryAt mem table index)

/-- The PML4 slots that `vm_create_space` copies. -/
def Shared (index : Fin 512) : Prop := index.val = 0 ∨ 256 ≤ index.val

instance (index : Fin 512) : Decidable (Shared index) := inferInstanceAs (Decidable (_ ∨ _))

/-- The paging invariant, for the page tables of `spaces` with their levels and
the page directory of the identity window. -/
structure Paging (k : Kernel) (spaces : List Nat) (level : Nat → Nat) (identity : Nat) : Prop where
  shape : Shape (tables k.mem level) level 4 Shared
  root : ∀ {table}, level table = 4 ↔ table ∈ spaces
  bounded : ∀ table, level table ≤ 4
  rooted : ∀ {table}, level table ≠ 0 → ∃ space ∈ spaces, ∃ path,
    (tables k.mem level).descend space path = some table
  frame : ∀ {table}, level table ≠ 0 → ∃ frame, frame ≠ 0 ∧ frame < pmmFrameCount ∧
    table = frame * pmmFrameSize ∧ frame ∉ freeSet k.pmm.bitmap
  kernel : k.kernelSpace ∈ spaces
  current : k.cr3 ∈ spaces
  reserved : 0 ∉ freeSet k.pmm.bitmap
  window : ∀ {space}, space ∈ spaces →
    (tables k.mem level).descend space [0, 0] = some identity
  huge : ∀ {table index entry}, level table ≠ 0 → level table ≠ 1 →
    tables k.mem level table index = .page entry → table = identity

section Paging

variable {k : Kernel} {spaces : List Nat} {level : Nat → Nat} {identity space table va : Nat}

/-- Tables are page-aligned, non-null and below 1 GB. -/
theorem Paging.aligned (paging : Paging k spaces level identity) (isTable : level table ≠ 0) :
    table % 4096 = 0 ∧ 0 < table ∧ table + 4096 ≤ 2 ^ 30 := by
  obtain ⟨frame, nonzero, small, rfl, _⟩ := paging.frame isTable
  simp only [pmmFrameSize, pmmFrameCount, pmmMaxPhys] at *
  omega

/-- The frame of a table is in use. -/
theorem Paging.not_free (paging : Paging k spaces level identity) {frame : Nat}
    (free : frame ∈ freeSet k.pmm.bitmap) : level (frame * pmmFrameSize) = 0 := by
  by_contra isTable
  obtain ⟨frame', _, _, same, used⟩ := paging.frame isTable
  have : frame = frame' := by simp only [pmmFrameSize] at same; omega
  exact used (this ▸ free)

theorem Paging.rootLevel (paging : Paging k spaces level identity) (known : space ∈ spaces) :
    level space = 4 :=
  paging.root.mpr known

/-- The identity directory lies two levels below every root. -/
theorem Paging.identityLevel (paging : Paging k spaces level identity) : level identity = 2 := by
  have rootLevel := paging.rootLevel paging.kernel
  have reached := paging.shape.descend_level (by omega) (paging.window paging.kernel)
  simp only [List.length_cons, List.length_nil] at reached
  omega

/-- A table entry of an upper level that is present and not a large page. -/
theorem Paging.entry_cases (paging : Paging k spaces level identity) (isTable : 2 ≤ level table)
    (other : table ≠ identity) (index : Fin 512) :
    entryAt k.mem table index &&& vmPtePresent = 0 ∨
      entryAt k.mem table index &&& vmPteHuge = 0 := by
  by_contra both
  push Not at both
  have slot : tables k.mem level table index = .page (entryAt k.mem table index) :=
    decode_eq_page.mpr ⟨both.1, .inr both.2, rfl⟩
  exact other (paging.huge (by omega) (by omega) slot)

/-- The slots of the tables after a change of state that spares table frames. -/
theorem Paging.tables_congr (paging : Paging k spaces level identity) {mem : Memory}
    (bytes : ∀ address, level (address / 4096 * 4096) ≠ 0 → mem address = k.mem address)
    {index : Fin 512} (isTable : level table ≠ 0) :
    tables mem level table index = tables k.mem level table index := by
  have aligned := paging.aligned isTable
  have bound := index.isLt
  have sameEntry : entryAt mem table index = entryAt k.mem table index := by
    refine Memory.load_congr fun address lower upper => bytes address ?_
    rwa [show address / 4096 * 4096 = table by omega]
  rw [tables, tables, sameEntry]

/-- The invariant survives whatever spares table frames and keeps them in use. -/
theorem Paging.congr (paging : Paging k spaces level identity) {k' : Kernel}
    (bytes : ∀ address, level (address / 4096 * 4096) ≠ 0 → k'.mem address = k.mem address)
    (unused : ∀ frame ∈ freeSet k'.pmm.bitmap, frame ≠ 0 ∧ level (frame * pmmFrameSize) = 0)
    (kernel : k'.kernelSpace = k.kernelSpace) (current : k'.cr3 ∈ spaces) :
    Paging k' spaces level identity where
  shape := paging.shape.congr fun isTable => paging.tables_congr bytes isTable
  root := paging.root
  bounded := paging.bounded
  rooted := by
    intro table isTable
    obtain ⟨space, known, path, reached⟩ := paging.rooted isTable
    have rootLevel := paging.rootLevel known
    refine ⟨space, known, path, ?_⟩
    rw [paging.shape.descend_congr (fun isTable => paging.tables_congr bytes isTable) _ (by omega)]
    exact reached
  frame := by
    intro table isTable
    obtain ⟨frame, nonzero, small, rfl, _⟩ := paging.frame isTable
    exact ⟨frame, nonzero, small, rfl, fun free => isTable (unused frame free).2⟩
  kernel := kernel ▸ paging.kernel
  current := current
  reserved := fun free => (unused 0 free).1 rfl
  window := by
    intro space known
    have rootLevel := paging.rootLevel known
    rw [paging.shape.descend_congr (fun isTable => paging.tables_congr bytes isTable) _ (by omega)]
    exact paging.window known
  huge := by
    intro table index entry isTable upper slot
    rw [paging.tables_congr bytes isTable] at slot
    exact paging.huge isTable upper slot

/-- The page a lookup found: the unused indices tell its size. -/
def pageOf : Nat × List (Fin 512) → Nat × Nat
  | (entry, []) => (entry &&& vmAddrMask, 2 ^ 12)
  | (entry, [_]) => (entry &&& 0x000FFFFFFFE00000, 2 ^ 21)
  | (entry, _) => (entry &&& 0x000FFFFFC0000000, 2 ^ 30)

/-- The hardware walk of a canonical address is a lookup in the forest. -/
theorem Paging.translatePage_eq_lookup (paging : Paging k spaces level identity)
    (known : space ∈ spaces) (canonical : Canonical va) :
    translatePage k.mem space va = ((tables k.mem level).lookup space (path va)).map pageOf := by
  have rootLevel := paging.rootLevel known
  have spaceMask : space &&& vmAddrMask = space := by
    have aligned := paging.aligned (show level space ≠ 0 by omega)
    exact addrMask_of_aligned aligned.1 (by omega)
  have identityLevel := paging.identityLevel
  -- one case for each entry of the walk: absent, large page, table
  have stage : ∀ {table child : Nat} (index : Fin 512), 2 ≤ level table →
      entryAt k.mem table index &&& vmPtePresent ≠ 0 →
      entryAt k.mem table index &&& vmPteHuge = 0 → child = entryAt k.mem table index &&& vmAddrMask →
      tables k.mem level table index = .table child ∧ level child + 1 = level table := by
    intro table child index upper present small target
    have slot : tables k.mem level table index = .table child :=
      decode_eq_table.mpr ⟨present, by omega, small, target⟩
    exact ⟨slot, (paging.shape.child (by omega) slot).2⟩
  unfold translatePage
  rw [if_neg (not_not_intro canonical), spaceMask]
  simp only [path]
  rw [Store.lookup]
  by_cases absent : entryAt k.mem space (pml4Index va) &&& vmPtePresent = 0
  · rw [if_pos (.inl absent), tables, decode_eq_absent.mpr absent]
    rfl
  have rootSmall : entryAt k.mem space (pml4Index va) &&& vmPteHuge = 0 := by
    have other : space ≠ identity := by rintro rfl; omega
    exact (paging.entry_cases (by omega) other ⟨_, pml4Index_lt va⟩).resolve_left absent
  rw [if_neg (not_or.mpr ⟨absent, not_not_intro rootSmall⟩)]
  obtain ⟨slot, pdptLevel⟩ := stage ⟨_, pml4Index_lt va⟩ (by omega) absent rootSmall rfl
  rw [slot]
  simp only
  generalize entryAt k.mem space (pml4Index va) &&& vmAddrMask = pdpt at *
  rw [Store.lookup]
  by_cases absent : entryAt k.mem pdpt (pdptIndex va) &&& vmPtePresent = 0
  · rw [if_pos absent, tables, decode_eq_absent.mpr absent]
    rfl
  rw [if_neg absent]
  by_cases large : entryAt k.mem pdpt (pdptIndex va) &&& vmPteHuge ≠ 0
  · rw [if_pos large, tables, decode_eq_page.mpr ⟨absent, .inr large, rfl⟩]
    rfl
  rw [if_neg large]
  obtain ⟨slot, pdLevel⟩ := stage ⟨_, pdptIndex_lt va⟩ (by omega) absent
    (not_not.mp large) rfl
  rw [slot]
  simp only
  generalize entryAt k.mem pdpt (pdptIndex va) &&& vmAddrMask = pd at *
  rw [Store.lookup]
  by_cases absent : entryAt k.mem pd (pdIndex va) &&& vmPtePresent = 0
  · rw [if_pos absent, tables, decode_eq_absent.mpr absent]
    rfl
  rw [if_neg absent]
  by_cases large : entryAt k.mem pd (pdIndex va) &&& vmPteHuge ≠ 0
  · rw [if_pos large, tables, decode_eq_page.mpr ⟨absent, .inr large, rfl⟩]
    rfl
  rw [if_neg large]
  obtain ⟨slot, ptLevel⟩ := stage ⟨_, pdIndex_lt va⟩ (by omega) absent
    (not_not.mp large) rfl
  rw [slot]
  simp only
  generalize entryAt k.mem pd (pdIndex va) &&& vmAddrMask = pt at *
  rw [Store.lookup]
  by_cases absent : entryAt k.mem pt (ptIndex va) &&& vmPtePresent = 0
  · rw [if_pos absent, tables, decode_eq_absent.mpr absent]
    rfl
  · rw [if_neg absent, tables, decode_eq_page.mpr ⟨absent, .inl (by omega), rfl⟩]
    rfl

/-- Two states translate an address alike when its lookups agree. -/
theorem Paging.translatePage_congr {k' : Kernel} {spaces' : List Nat} {level' : Nat → Nat}
    {identity' space' : Nat} (paging : Paging k spaces level identity)
    (paging' : Paging k' spaces' level' identity') (known : space ∈ spaces)
    (known' : space' ∈ spaces')
    (same : (tables k'.mem level').lookup space' (path va) =
      (tables k.mem level).lookup space (path va)) :
    translatePage k'.mem space' va = translatePage k.mem space va := by
  by_cases canonical : Canonical va
  · rw [paging.translatePage_eq_lookup known canonical,
      paging'.translatePage_eq_lookup known' canonical, same]
  · rw [translatePage, if_pos canonical, translatePage, if_pos canonical]

end Paging

end GodOs
