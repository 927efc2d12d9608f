import GodOs.Lib.Bits
import GodOs.Lib.Memory

/-!
# The x86-64 memory management unit

The hardware side of paging, as the kernel relies on it: canonical addresses,
the four-level walk with 1 GB and 2 MB pages, and a translation lookaside
buffer which holds page translations until they are invalidated.
-/

namespace GodOs

open Lib

def vmPageSize : Nat := 4096
def vmPtePresent : Nat := 1
def vmPteWrite : Nat := 2
def vmPteUser : Nat := 4
def vmPteHuge : Nat := 128
def vmAddrMask : Nat := 0x000FFFFFFFFFF000

/-- A 64-bit address whose bits 47 to 63 agree. -/
def Canonical (va : Nat) : Prop := va < 2 ^ 47 ∨ 2 ^ 64 - 2 ^ 47 ≤ va ∧ va < 2 ^ 64

instance (va : Nat) : Decidable (Canonical va) := inferInstanceAs (Decidable (_ ∨ _))

/-- The four table indices of an address. -/
def pml4Index (va : Nat) : Nat := (va >>> 39) &&& 0x1FF
def pdptIndex (va : Nat) : Nat := (va >>> 30) &&& 0x1FF
def pdIndex (va : Nat) : Nat := (va >>> 21) &&& 0x1FF
def ptIndex (va : Nat) : Nat := (va >>> 12) &&& 0x1FF

/-- One table entry: 512 entries of 8 bytes make a table of one page. -/
def entryAt (mem : Memory) (table index : Nat) : Nat := mem.load (table + 8 * index) 8

/-- The page through which the hardware reaches an address: its physical base
and its size. A set page-size bit is reserved in the top level and ends the
walk in the two levels below it. -/
def translatePage (mem : Memory) (cr3 va : Nat) : Option (Nat × Nat) :=
  if ¬ Canonical va then none
  else
    let pml4e := entryAt mem (cr3 &&& vmAddrMask) (pml4Index va)
    if pml4e &&& vmPtePresent = 0 ∨ pml4e &&& vmPteHuge ≠ 0 then none
    else
      let pdpte := entryAt mem (pml4e &&& vmAddrMask) (pdptIndex va)
      if pdpte &&& vmPtePresent = 0 then none
      else if pdpte &&& vmPteHuge ≠ 0 then some (pdpte &&& 0x000FFFFFC0000000, 2 ^ 30)
      else
        let pde := entryAt mem (pdpte &&& vmAddrMask) (pdIndex va)
        if pde &&& vmPtePresent = 0 then none
        else if pde &&& vmPteHuge ≠ 0 then some (pde &&& 0x000FFFFFFFE00000, 2 ^ 21)
        else
          let pte := entryAt mem (pde &&& vmAddrMask) (ptIndex va)
          if pte &&& vmPtePresent = 0 then none
          else some (pte &&& vmAddrMask, 2 ^ 12)

/-- The physical address the hardware reaches through the tables of `cr3`. -/
def translate (mem : Memory) (cr3 va : Nat) : Option Nat :=
  (translatePage mem cr3 va).map fun page => page.1 + va % page.2

/-- Cached translations, from virtual page numbers to physical page addresses. -/
abbrev Tlb := Nat → Option Nat

/-- The page of an address, as the TLB is indexed. -/
def pageNumber (va : Nat) : Nat := va / vmPageSize

def Tlb.empty : Tlb := fun _ => none

def Tlb.invlpg (tlb : Tlb) (va : Nat) : Tlb := Function.update tlb (pageNumber va) none

section Indices

variable {va other : Nat}

private theorem index_eq (va shift : Nat) : (va >>> shift) &&& 0x1FF = va / 2 ^ shift % 512 := by
  rw [Nat.shiftRight_eq_div_pow]
  exact Bits.and_low _ 9

theorem pml4Index_eq (va : Nat) : pml4Index va = va / 2 ^ 39 % 512 := index_eq va 39
theorem pdptIndex_eq (va : Nat) : pdptIndex va = va / 2 ^ 30 % 512 := index_eq va 30
theorem pdIndex_eq (va : Nat) : pdIndex va = va / 2 ^ 21 % 512 := index_eq va 21
theorem ptIndex_eq (va : Nat) : ptIndex va = va / 2 ^ 12 % 512 := index_eq va 12

theorem pml4Index_lt (va : Nat) : pml4Index va < 512 := by rw [pml4Index_eq]; omega
theorem pdptIndex_lt (va : Nat) : pdptIndex va < 512 := by rw [pdptIndex_eq]; omega
theorem pdIndex_lt (va : Nat) : pdIndex va < 512 := by rw [pdIndex_eq]; omega
theorem ptIndex_lt (va : Nat) : ptIndex va < 512 := by rw [ptIndex_eq]; omega

/-- The path of an address through the four levels, top level first. -/
def path (va : Nat) : List (Fin 512) :=
  [⟨pml4Index va, pml4Index_lt va⟩, ⟨pdptIndex va, pdptIndex_lt va⟩,
    ⟨pdIndex va, pdIndex_lt va⟩, ⟨ptIndex va, ptIndex_lt va⟩]

/-- The path down to the bottom table. -/
def upperPath (va : Nat) : List (Fin 512) :=
  [⟨pml4Index va, pml4Index_lt va⟩, ⟨pdptIndex va, pdptIndex_lt va⟩,
    ⟨pdIndex va, pdIndex_lt va⟩]

/-- The slot of an address in its bottom table. -/
def leafIndex (va : Nat) : Fin 512 := ⟨ptIndex va, ptIndex_lt va⟩

@[simp] theorem upperPath_length (va : Nat) : (upperPath va).length = 3 := rfl

theorem path_eq (va : Nat) : path va = upperPath va ++ [leafIndex va] := rfl

/-- The low 48 bits, page by page, are what the path keeps of an address. -/
theorem path_eq_iff : path va = path other ↔ va % 2 ^ 48 / 2 ^ 12 = other % 2 ^ 48 / 2 ^ 12 := by
  simp only [path, List.cons.injEq, Fin.mk.injEq, and_true, pml4Index_eq, pdptIndex_eq, pdIndex_eq,
    ptIndex_eq]
  omega

/-- Canonical addresses have the same path exactly when they lie in one page. -/
theorem path_eq_iff_of_canonical (canonical : Canonical va) (canonical' : Canonical other) :
    path va = path other ↔ pageNumber va = pageNumber other := by
  rw [path_eq_iff]
  simp only [pageNumber, vmPageSize]
  unfold Canonical at canonical canonical'
  omega

end Indices

section Entries

variable {entry frame flags : Nat}

theorem addrMask_eq (entry : Nat) : entry &&& vmAddrMask = entry / 2 ^ 12 % 2 ^ 40 * 2 ^ 12 :=
  Bits.and_field entry 12 40

theorem present_eq_zero : entry &&& vmPtePresent = 0 ↔ entry % 2 = 0 := by
  simp [vmPtePresent]

theorem huge_eq_zero : entry &&& vmPteHuge = 0 ↔ entry / 2 ^ 7 % 2 = 0 :=
  @Bits.and_bit_eq_zero entry 7

/-- A page-aligned physical address below 1 GB is its own address field. -/
theorem addrMask_of_aligned (aligned : frame % 4096 = 0) (small : frame < 2 ^ 52) :
    frame &&& vmAddrMask = frame := by
  rw [addrMask_eq]
  omega

/-- The entry the kernel writes for a new table, as a number. -/
theorem tableEntry_eq (aligned : frame % 4096 = 0) (small : frame < 2 ^ 52) :
    (frame &&& vmAddrMask) ||| vmPtePresent ||| vmPteWrite = frame + 3 := by
  rw [addrMask_of_aligned aligned small, Nat.or_assoc]
  exact Bits.or_low (show 2 ^ 12 ∣ frame from Nat.dvd_of_mod_eq_zero aligned) (by decide)

end Entries

end GodOs
