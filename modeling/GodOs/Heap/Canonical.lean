import GodOs.Heap.Gaps
import GodOs.Lib.Extents

/-!
# The row of blocks is canonical

The live blocks decide the whole row, whatever the run that led to it, because the
headers are a merged row. `heapBlocks` is the row as the memory shows it.
-/

namespace GodOs

open Lib Lib.Blocks

/-- The blocks from the one at `b`: address, free word and size of each. -/
def blockChain (mem : Memory) (finish : Nat) : Nat → Nat → List (Nat × Nat × Nat)
  | 0, _ => []
  | budget + 1, b =>
      if b < finish then
        (b, blockFree mem b, blockSize mem b) :: blockChain mem finish budget (blockNext mem b)
      else []

/-- The whole block list. -/
def heapBlocks (h : Heap) : List (Nat × Nat × Nat) := blockChain h.mem h.finish (2 ^ 64) h.start

/-- The live blocks: address and block size, as the header says. -/
def HeapSystem.extents (system : HeapSystem) : List (Nat × Nat) :=
  system.live.map fun allocation =>
    (allocation.1 - 16, blockSize system.heap.mem (allocation.1 - 16))

/-- Free the pointers of a list, one after the other. -/
def kfreeAll (h : Heap) : List Nat → Outcome Heap
  | [] => .done h
  | p :: rest => (kfree h p).bind fun h => kfreeAll h rest

section Chain

variable {h : Heap} {mem : Memory} {finish b budget total : Nat} {blocks : List Block}

/-- A row of headers is what the block list shows. -/
theorem blockChain_eq (headers : Headers mem finish b blocks) (small : finish < 2 ^ 64)
    (enough : blocks.length < budget) :
    blockChain mem finish budget b = (placed 16 b blocks).map fun place =>
      (place.1, if place.2.free then 1 else 0, place.2.size) := by
  have header : blockHeader = 16 := rfl
  obtain ⟨budget, rfl⟩ : ∃ fewer, budget = fewer + 1 := ⟨budget - 1, by omega⟩
  induction blocks generalizing b budget with
  | nil =>
      have ends : b = finish := headers
      rw [blockChain, if_neg (by omega)]
      rfl
  | cons block rest ih =>
      have covers := headers.span
      have next := headers.next small
      obtain ⟨_, free, sized, tail⟩ := headers
      rw [header] at tail
      rw [span_cons] at covers
      rw [List.length_cons] at enough
      obtain ⟨budget, rfl⟩ : ∃ fewer, budget = fewer + 1 := ⟨budget - 1, by omega⟩
      rw [blockChain, if_pos (by omega), next, ih tail budget (by omega), free, sized]
      rfl

/-- A row is known from its headers. -/
theorem Headers.unique {blocks' : List Block} (headers : Headers mem finish b blocks)
    (headers' : Headers mem finish b blocks') : blocks = blocks' := by
  have header : blockHeader = 16 := rfl
  induction blocks generalizing b blocks' with
  | nil =>
      have ends : b = finish := headers
      cases blocks' with
      | nil => rfl
      | cons other rest =>
          have covers := headers'.span
          rw [span_cons] at covers
          omega
  | cons block rest ih =>
      cases blocks' with
      | nil =>
          have ends : b = finish := headers'
          have covers := headers.span
          rw [span_cons] at covers
          omega
      | cons other rest' =>
          obtain ⟨_, free, sized, tail⟩ := headers
          obtain ⟨_, free', sized', tail'⟩ := headers'
          obtain ⟨size, isFree⟩ := block
          obtain ⟨size', isFree'⟩ := other
          obtain rfl : size = size' := sized.symm.trans sized'
          obtain rfl : isFree = isFree' := by
            have same := free.symm.trans free'
            cases isFree <;> cases isFree' <;> simp_all
          rw [ih tail tail']

/-- The free bytes of a row of headers. -/
theorem heapFreeBytesFrom_eq (headers : Headers h.mem h.finish b blocks) (small : h.finish < 2 ^ 64)
    (enough : blocks.length < budget) (fits : total + Blocks.span 16 blocks < 2 ^ 64) :
    heapFreeBytesFrom h budget b total = .done (total + freeBytes blocks) := by
  have header : blockHeader = 16 := rfl
  obtain ⟨budget, rfl⟩ : ∃ fewer, budget = fewer + 1 := ⟨budget - 1, by omega⟩
  induction blocks generalizing b budget total with
  | nil =>
      have ends : b = h.finish := headers
      rw [heapFreeBytesFrom, if_neg (by omega)]
      rfl
  | cons block rest ih =>
      have covers := headers.span
      have next := headers.next small
      obtain ⟨magic, free, sized, tail⟩ := headers
      rw [header] at tail
      rw [span_cons] at covers fits
      rw [List.length_cons] at enough
      have added : (if blockFree h.mem b ≠ 0 then u64 (total + blockSize h.mem b) else total) =
          total + if block.free then block.size else 0 := by
        rw [free, sized, u64_of_lt (by omega)]
        cases block.free <;> simp
      have bound : (if block.free then block.size else 0) ≤ block.size := by split <;> omega
      rw [heapFreeBytesFrom, if_pos (by omega), if_neg (not_not.mpr magic)]
      simp only [added, next, freeBytes]
      rw [← Nat.add_assoc]
      split
      next last =>
        have noMore : rest = [] := by
          cases rest with
          | nil => rfl
          | cons other others =>
              have length := tail.span
              rw [span_cons] at length
              omega
        rw [noMore]
        rfl
      next =>
        obtain ⟨budget, rfl⟩ : ∃ fewer, budget = fewer + 1 := ⟨budget - 1, by omega⟩
        exact ih tail (by omega) budget (by omega)

theorem HeapInv.span_eq (inv : HeapInv h blocks) : Blocks.span 16 blocks = vmHeapSize := by
  have covers := inv.headers.span
  rw [inv.start, inv.finish] at covers
  exact Nat.add_left_cancel covers

theorem HeapInv.heapBlocks_eq (inv : HeapInv h blocks) :
    heapBlocks h = (placed 16 vmHeapBase blocks).map fun place =>
      (place.1, if place.2.free then 1 else 0, place.2.size) := by
  rw [heapBlocks, blockChain_eq inv.headers inv.finish_lt inv.length_lt, inv.start]

theorem HeapInv.heapFreeBytes_eq (inv : HeapInv h blocks) :
    heapFreeBytes h = .done (freeBytes blocks) := by
  have covers := inv.span_eq
  have size : vmHeapSize = 0x1000000 := rfl
  rw [heapFreeBytes, heapFreeBytesFrom_eq inv.headers inv.finish_lt inv.length_lt (by omega),
    Nat.zero_add]

end Chain

section Unique

variable {h h' : Heap} {system other : HeapSystem} {n address size : Nat}
  {blocks blocks' before after : List Block} {ps qs : List Nat}

/-- Two heaps with the same used blocks have the same row. -/
theorem HeapInv.unique (inv : HeapInv h blocks) (inv' : HeapInv h' blocks')
    (same : ∀ extent, extent ∈ used 16 h.start blocks ↔ extent ∈ used 16 h'.start blocks') :
    blocks = blocks' := by
  rw [inv.start, inv'.start] at same
  exact inv.merged.unique inv'.merged (by decide) (inv.span_eq.trans inv'.span_eq.symm)
    (used_eq_of_mem_iff (by decide) same)

/-- The live blocks are the used ones, with their sizes. -/
theorem HeapSystem.Inv.extents_perm (inv : system.Inv blocks) :
    system.extents.Perm (used 16 system.heap.start blocks) := by
  have pointers := inv.owned.map fun p => (p - 16, blockSize system.heap.mem (p - 16))
  rw [List.map_map, List.map_map] at pointers
  refine pointers.symm.trans (.of_eq ?_)
  refine (List.map_congr_left fun extent member => ?_).trans (List.map_id _)
  simp only [Function.comp_apply, Nat.add_sub_cancel]
  rw [inv.heap.blockSize_eq member]
  rfl

/-- Freeing a used block takes its extent out, and nothing else. -/
theorem HeapInv.kfree_used (inv : HeapInv h blocks) (extent : (address, size) ∈ used 16 h.start blocks) :
    ∃ h' blocks', kfree h (address + 16) = .done h' ∧ HeapInv h' blocks' ∧
      (used 16 h.start blocks).Perm ((address, size) :: used 16 h'.start blocks') := by
  obtain ⟨before, after, rfl, rfl⟩ := mem_used_iff.mp extent
  obtain ⟨mem', call, inv', _⟩ := inv.kfree_spec
  refine ⟨_, _, call, inv', ?_⟩
  rw [used_coalesce]
  exact used_perm

/-- Freeing distinct used blocks, in any order, takes out their extents. -/
theorem HeapInv.kfreeAll_used (inv : HeapInv h blocks) (distinct : ps.Nodup)
    (held : ∀ p ∈ ps, ∃ extent ∈ used 16 h.start blocks, extent.1 + 16 = p) :
    ∃ h' blocks', kfreeAll h ps = .done h' ∧ HeapInv h' blocks' ∧
      ∀ extent, extent ∈ used 16 h'.start blocks' ↔
        extent ∈ used 16 h.start blocks ∧ extent.1 + 16 ∉ ps := by
  induction ps generalizing h blocks with
  | nil => exact ⟨h, blocks, rfl, inv, by simp⟩
  | cons p rest ih =>
      obtain ⟨fresh, others⟩ := List.nodup_cons.mp distinct
      obtain ⟨⟨address, size⟩, extent, rfl⟩ := held p List.mem_cons_self
      obtain ⟨h₁, blocks₁, call, inv₁, removed⟩ := inv.kfree_used extent
      have nodup := @used_nodup 16 h.start blocks (by decide)
      rw [(removed.map Prod.fst).nodup_iff, List.map_cons, List.nodup_cons] at nodup
      -- what is left are the other extents
      have left : ∀ other, other ∈ used 16 h₁.start blocks₁ ↔
          other ∈ used 16 h.start blocks ∧ other.1 ≠ address := by
        intro other
        rw [removed.mem_iff, List.mem_cons]
        constructor
        · intro member
          refine ⟨.inr member, fun same => nodup.1 ?_⟩
          exact List.mem_map.mpr ⟨other, member, same⟩
        · rintro ⟨rfl | member, different⟩
          · exact absurd rfl different
          · exact member
      obtain ⟨h', blocks', calls, inv', last⟩ := ih inv₁ others fun q member => by
        obtain ⟨other, otherExtent, rfl⟩ := held q (List.mem_cons_of_mem _ member)
        refine ⟨other, (left other).mpr ⟨otherExtent, ?_⟩, rfl⟩
        rintro same
        exact fresh (by simpa [same] using member)
      refine ⟨h', blocks', by rw [kfreeAll, call, Outcome.bind_done, calls], inv', fun other => ?_⟩
      rw [last, left, List.mem_cons, not_or, and_assoc]
      simp

/-- Freeing what was just allocated takes out what was put in. -/
theorem HeapInv.kfree_kmalloc (inv : HeapInv h blocks) {p : Nat} (call : kmalloc h n = .done (h', p))
    (nonNull : p ≠ 0) :
    ∃ h'' blocks'', kfree h' p = .done h'' ∧ HeapInv h'' blocks'' ∧
      ∀ extent, extent ∈ used 16 h''.start blocks'' ↔ extent ∈ used 16 h.start blocks := by
  rcases inv.kmalloc_cases n with ⟨result, _⟩ |
      ⟨before, size, after, rfl, positive, _, fits, _, result⟩
  · rw [result] at call
    obtain ⟨_, rfl⟩ := Prod.mk.inj (Outcome.done.inj call)
    exact absurd rfl nonNull
  · rw [result] at call
    obtain ⟨rfl, rfl⟩ := Prod.mk.inj (Outcome.done.inj call)
    have taken := inv.take (by omega) (by omega) fits
    have extents := @used_carve_inner 16 16 _ size h.start before after fits
    obtain ⟨h'', blocks'', free, inv'', removed⟩ := taken.kfree_used (by
      rw [extents]
      exact List.mem_append_right _ List.mem_cons_self)
    refine ⟨h'', blocks'', free, inv'', fun extent => ?_⟩
    simp only [extents] at removed
    have same := (removed.symm.trans List.perm_middle).cons_inv
    rw [same.mem_iff, used_append, used_cons_free]

/-- The number of gaps is the number of free blocks. -/
theorem HeapSystem.Inv.gaps_ncard (inv : system.Inv blocks) :
    {gap : Nat × Nat | system.Gap gap.1 gap.2}.ncard = (Blocks.gaps 16 vmHeapBase blocks).length := by
  have gapSet : {gap : Nat × Nat | system.Gap gap.1 gap.2} =
      ((Blocks.gaps 16 vmHeapBase blocks).toFinset : Set (Nat × Nat)) := by
    ext ⟨lo, hi⟩
    simp only [Set.mem_ofPred_eq, List.coe_toFinset]
    rw [inv.gap_iff, mem_gaps_iff]
  rw [gapSet, Set.ncard_coe_finset, List.toFinset_card_of_nodup (gaps_nodup (by decide))]

end Unique

/-- **Coalescing is canonical.** In every reachable state the live blocks decide the whole
block list, whatever the run: the order of frees does not matter, freeing what was just
allocated undoes it, and without live blocks the heap is one free block. The free bytes
are what the live blocks and the headers of the gaps leave. -/
theorem heap_canonical {mem : Memory} {events : List HeapEvent} {system : HeapSystem}
    (run : Steps HeapStep (HeapSystem.initial mem) events system) :
    (∀ mem' events' other, Steps HeapStep (HeapSystem.initial mem') events' other →
      (∀ extent, extent ∈ system.extents ↔ extent ∈ other.extents) →
      heapBlocks system.heap = heapBlocks other.heap) ∧
    (∀ ps qs : List Nat, ps.Perm qs → ps.Nodup → (∀ p ∈ ps, p ∈ system.live.map Prod.fst) →
      ∃ h h', kfreeAll system.heap ps = .done h ∧ kfreeAll system.heap qs = .done h' ∧
        heapBlocks h = heapBlocks h') ∧
    (∀ n h p, kmalloc system.heap n = .done (h, p) → p ≠ 0 →
      ∃ h', kfree h p = .done h' ∧ heapBlocks h' = heapBlocks system.heap) ∧
    (system.live = [] → heapBlocks system.heap = [(vmHeapBase, 1, vmHeapSize - 16)]) ∧
    ∃ free, heapFreeBytes system.heap = .done free ∧
      free + (system.extents.map fun extent => 16 + extent.2).sum +
        16 * {gap : Nat × Nat | system.Gap gap.1 gap.2}.ncard = vmHeapSize := by
  obtain ⟨blocks, inv⟩ := HeapSystem.reachable_wellFormed run
  have extents := inv.extents_perm
  refine ⟨?_, ?_, ?_, ?_, ?_⟩
  · intro mem' events' other run' same
    obtain ⟨blocks', inv'⟩ := HeapSystem.reachable_wellFormed run'
    have sameBlocks := inv.heap.unique inv'.heap fun extent => by
      rw [← extents.mem_iff, same, inv'.extents_perm.mem_iff]
    rw [inv.heap.heapBlocks_eq, inv'.heap.heapBlocks_eq, sameBlocks]
  · intro ps qs perm distinct live
    have held : ∀ p ∈ ps, ∃ extent ∈ used 16 system.heap.start blocks, extent.1 + 16 = p :=
      fun p member => List.mem_map.mp (inv.owned.mem_iff.mpr (live p member))
    obtain ⟨h, first, call, inv₁, left₁⟩ := inv.heap.kfreeAll_used distinct held
    obtain ⟨h', second, call', inv₂, left₂⟩ := inv.heap.kfreeAll_used (perm.nodup_iff.mp distinct)
      fun p member => held p (perm.mem_iff.mpr member)
    have sameBlocks := inv₁.unique inv₂ fun extent => by rw [left₁, left₂, perm.mem_iff]
    exact ⟨h, h', call, call', by rw [inv₁.heapBlocks_eq, inv₂.heapBlocks_eq, sameBlocks]⟩
  · intro n h p call nonNull
    obtain ⟨h', blocks', call', inv', same⟩ := inv.heap.kfree_kmalloc call nonNull
    have sameBlocks := inv'.unique inv.heap same
    exact ⟨h', call', by rw [inv'.heapBlocks_eq, inv.heap.heapBlocks_eq, sameBlocks]⟩
  · intro nothing
    have initial := HeapSystem.Inv.initial mem
    have sameBlocks := inv.heap.unique initial.heap fun extent => by
      rw [← extents.mem_iff, HeapSystem.extents, nothing]
      rfl
    rw [inv.heap.heapBlocks_eq, sameBlocks]
    rfl
  · refine ⟨_, inv.heap.heapFreeBytes_eq, ?_⟩
    rw [inv.gaps_ncard, (extents.map _).sum_eq, inv.heap.start, ← inv.heap.span_eq,
      Blocks.span_eq vmHeapBase]
    omega

/-- Two blocks freed in either order leave the same heap, and what was allocated and freed
in between leaves no trace. -/
theorem heap_canonical_sample : ∃ heap h h' one two,
    kfreeAll heap [0xFFFF800000000010, 0xFFFF800000000090] = .done h ∧
    kfreeAll heap [0xFFFF800000000090, 0xFFFF800000000010] = .done h' ∧
    heapBlocks h = heapBlocks h' ∧ kmalloc heap 24 = .done (one, 0xFFFF8000000000D0) ∧
    kfree one 0xFFFF8000000000D0 = .done two ∧ heapBlocks two = heapBlocks heap := by
  obtain ⟨heap, one, run, call⟩ : ∃ heap one, Steps HeapStep (HeapSystem.initial fun _ => 0)
      [.malloc 100 0xFFFF800000000010, .malloc 40 0xFFFF800000000090]
      ⟨heap, [(0xFFFF800000000090, 40), (0xFFFF800000000010, 100)]⟩ ∧
      kmalloc heap 24 = .done (one, 0xFFFF8000000000D0) :=
    ⟨_, _, (Steps.single (@HeapStep.malloc (heapInit fun _ => 0) _ [] 100 0xFFFF800000000010 rfl)).snoc
      (@HeapStep.malloc _ _ _ 40 0xFFFF800000000090 rfl), rfl⟩
  obtain ⟨_, frees, undo, _⟩ := heap_canonical run
  obtain ⟨h, h', first, second, same⟩ := frees [0xFFFF800000000010, 0xFFFF800000000090]
    [0xFFFF800000000090, 0xFFFF800000000010] (List.Perm.swap _ _ _) (by decide) (by simp)
  obtain ⟨two, free, restored⟩ := undo 24 one 0xFFFF8000000000D0 call (by decide)
  exact ⟨heap, h, h', one, two, first, second, same, call, free, restored⟩

end GodOs
