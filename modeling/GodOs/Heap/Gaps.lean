import GodOs.Heap.Run

/-!
# When `kmalloc` succeeds

The gaps of the heap are the maximal intervals of the arena that no live block
covers. They are its free blocks, since no two of these are neighbours, and so
first fit finds the lowest gap that is large enough.
-/

namespace GodOs

open Lib Lib.Blocks

/-- The addresses of the live blocks: header and payload, as their headers say. -/
def HeapSystem.covered (system : HeapSystem) : Set Nat :=
  {address | ∃ allocation ∈ system.live, allocation.1 - 16 ≤ address ∧
    address < allocation.1 + blockSize system.heap.mem (allocation.1 - 16)}

/-- A maximal interval of the arena that no live block covers. -/
def HeapSystem.Gap (system : HeapSystem) (lo hi : Nat) : Prop :=
  IsGap system.covered vmHeapBase (vmHeapBase + vmHeapSize) lo hi

section Gaps

variable {h : Heap} {system : HeapSystem} {blocks : List Block} {address size lo hi : Nat}

/-- The header of a used block holds its size. -/
theorem HeapInv.blockSize_eq (inv : HeapInv h blocks) (extent : (address, size) ∈ used 16 h.start blocks) :
    blockSize h.mem address = size := by
  obtain ⟨before, after, rfl, rfl⟩ := mem_used_iff.mp extent
  have chain := inv.headers
  rw [headers_append] at chain
  exact chain.2.2.2.1

/-- The live blocks are the used ones. -/
theorem HeapSystem.Inv.covered_eq (inv : system.Inv blocks) :
    system.covered = Blocks.covered 16 vmHeapBase blocks := by
  have start := inv.heap.start
  ext address
  constructor
  · rintro ⟨⟨p, n⟩, member, lower, upper⟩
    obtain ⟨size, positive, extent, _⟩ := inv.held _ member
    rw [inv.heap.blockSize_eq extent] at upper
    rw [start] at extent
    exact ⟨_, extent, lower, by simp only at positive upper ⊢; omega⟩
  · rintro ⟨⟨place, size⟩, extent, lower, upper⟩
    rw [← start] at extent
    have pointer : place + 16 ∈ system.live.map Prod.fst :=
      inv.owned.mem_iff.mp (List.mem_map.mpr ⟨_, extent, rfl⟩)
    obtain ⟨allocation, member, same⟩ := List.mem_map.mp pointer
    refine ⟨allocation, member, ?_⟩
    rw [same, Nat.add_sub_cancel, inv.heap.blockSize_eq extent]
    exact ⟨lower, upper⟩

/-- The gaps are the free blocks. -/
theorem HeapSystem.Inv.gap_iff (inv : system.Inv blocks) : system.Gap lo hi ↔
    ∃ before size after, blocks = before ++ ⟨size, true⟩ :: after ∧
      lo = vmHeapBase + span 16 before ∧ hi = lo + 16 + size := by
  have covers := inv.heap.headers.span
  rw [inv.heap.finish, inv.heap.start] at covers
  rw [HeapSystem.Gap, inv.covered_eq, ← covers]
  exact inv.heap.merged.gap_iff (by decide)

end Gaps

/-- **First fit over gaps.** In every reachable state `kmalloc` succeeds exactly when some
gap holds the rounded request and a header. It takes the front of the lowest such gap,
wholly if only a header more would be left, and changes no live block. -/
theorem kmalloc_first_gap {mem : Memory} {events : List HeapEvent} {system : HeapSystem}
    (run : Steps HeapStep (HeapSystem.initial mem) events system) (n : Nat) :
    (n = 0 ∨ n > vmHeapSize → kmalloc system.heap n = .done (system.heap, 0)) ∧
    (1 ≤ n → n ≤ vmHeapSize → ∃ heap' r, kmalloc system.heap n = .done (heap', r) ∧
      (r ≠ 0 ↔ ∃ lo hi, system.Gap lo hi ∧ (n + 15) / 16 * 16 + 16 ≤ hi - lo) ∧
      (r = 0 → heap' = system.heap) ∧
      (r ≠ 0 → ∃ lo hi, system.Gap lo hi ∧ (n + 15) / 16 * 16 + 16 ≤ hi - lo ∧
        (∀ lo' hi', system.Gap lo' hi' → (n + 15) / 16 * 16 + 16 ≤ hi' - lo' → lo ≤ lo') ∧
        r = lo + 16 ∧
        blockSize heap'.mem lo =
          (if hi - lo = (n + 15) / 16 * 16 + 32 then (n + 15) / 16 * 16 + 16
            else (n + 15) / 16 * 16) ∧
        ∀ address ∈ system.covered, heap'.mem address = system.heap.mem address)) := by
  obtain ⟨blocks, inv⟩ := HeapSystem.reachable_wellFormed run
  have start := inv.heap.start
  constructor
  · intro refused
    rw [kmalloc, if_pos (by omega)]
  · intro positive bounded
    rcases inv.heap.kmalloc_cases n with ⟨result, why⟩ |
        ⟨before, size, after, rfl, _, _, fits, first, result⟩
    · refine ⟨_, 0, result, ?_, fun _ => rfl, fun nonNull => absurd rfl nonNull⟩
      constructor
      · exact fun nonNull => absurd rfl nonNull
      · rintro ⟨lo, hi, gap, large⟩
        obtain ⟨before, size, after, rfl, rfl, rfl⟩ := inv.gap_iff.mp gap
        rcases why with zero | big | none'
        · omega
        · omega
        · exact absurd ⟨rfl, by simp only; omega⟩ (none' ⟨size, true⟩ (by simp))
    · have gap : system.Gap (vmHeapBase + span 16 before) (vmHeapBase + span 16 before + 16 + size) :=
        inv.gap_iff.mpr ⟨before, size, after, rfl, rfl, rfl⟩
      have large : (n + 15) / 16 * 16 + 16 ≤
          vmHeapBase + span 16 before + 16 + size - (vmHeapBase + span 16 before) := by omega
      refine ⟨_, _, result, ?_, fun isNull => by omega, fun _ => ?_⟩
      · exact ⟨fun _ => ⟨_, _, gap, large⟩, fun _ => by omega⟩
      refine ⟨_, _, gap, large, ?_, by rw [start], ?_, ?_⟩
      · intro lo' hi' gap' large'
        obtain ⟨before', size', after', shape, rfl, rfl⟩ := inv.gap_iff.mp gap'
        by_contra lower
        have earlier := @mem_before 16 _ _ _ _ _ _ shape (by omega)
        exact first _ earlier ⟨rfl, by simp only; omega⟩
      · have taken := inv.heap.take (by omega) (by omega) fits
        have sized := inv.heap.sized ⟨size, true⟩ (by simp)
        simp only at sized
        have extent := @used_carve_inner 16 16 _ size system.heap.start before after fits
        rw [← start, taken.blockSize_eq (by rw [extent]; exact List.mem_append_right _ List.mem_cons_self)]
        unfold carved
        split_ifs <;> omega
      · intro address inside
        rw [inv.covered_eq, ← start] at inside
        exact inv.heap.take_frame fits inside

/-- A request of 100 bytes takes the place of a freed block of 112, and not the rest behind. -/
theorem kmalloc_first_gap_sample : ∃ heap heap',
    kmalloc heap 100 = .done (heap', 0xFFFF800000000010) ∧
    (∃ lo hi, HeapSystem.Gap ⟨heap, [(0xFFFF800000000090, 40)]⟩ lo hi ∧ 128 ≤ hi - lo ∧
      0xFFFF800000000010 = lo + 16 ∧
      ∀ lo' hi', HeapSystem.Gap ⟨heap, [(0xFFFF800000000090, 40)]⟩ lo' hi' → 128 ≤ hi' - lo' → lo ≤ lo') ∧
    ∀ address ∈ HeapSystem.covered ⟨heap, [(0xFFFF800000000090, 40)]⟩,
      heap'.mem address = heap.mem address := by
  obtain ⟨heap, heap', run, call⟩ := HeapSystem.sampleRun
  obtain ⟨_, _, call', _, _, taken⟩ := (kmalloc_first_gap run 100).2 (by decide) (by decide)
  obtain ⟨rfl, rfl⟩ := Prod.mk.inj (Outcome.done.inj (call'.symm.trans call))
  obtain ⟨lo, hi, gap, large, lowest, place, _, kept⟩ := taken (by decide)
  exact ⟨heap, _, call, ⟨lo, hi, gap, large, place, lowest⟩, kept⟩

end GodOs
