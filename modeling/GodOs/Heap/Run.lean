import GodOs.Heap.Headers
import GodOs.Lib.Transition

/-!
# Runs of the heap and its clients

Clients allocate, free what they hold, and write to the bytes they asked for.
`heap_invariant` is the representation invariant over all runs, `heap_frame` says
that the allocator leaves live data alone.
-/

namespace GodOs

open Lib Lib.Blocks

/-- The heap with the live allocations: the pointers that `kmalloc` returned and that
were not freed since, with the sizes that were asked for. -/
structure HeapSystem where
  heap : Heap
  live : List (Nat × Nat)

inductive HeapEvent where
  | malloc (n result : Nat)
  | freeNull
  | free (p : Nat)
  | write (address : Nat) (byte : UInt8)

/-- One call of the allocator, or one byte written by a client. -/
inductive HeapStep : HeapSystem → HeapEvent → HeapSystem → Prop where
  | malloc {heap heap' : Heap} {live : List (Nat × Nat)} {n p : Nat}
      (call : kmalloc heap n = .done (heap', p)) :
      HeapStep ⟨heap, live⟩ (.malloc n p) ⟨heap', if p = 0 then live else (p, n) :: live⟩
  | freeNull {heap heap' : Heap} {live : List (Nat × Nat)} (call : kfree heap 0 = .done heap') :
      HeapStep ⟨heap, live⟩ .freeNull ⟨heap', live⟩
  | free {heap heap' : Heap} {live : List (Nat × Nat)} {p n : Nat} (held : (p, n) ∈ live)
      (call : kfree heap p = .done heap') :
      HeapStep ⟨heap, live⟩ (.free p) ⟨heap', live.erase (p, n)⟩
  | write {heap : Heap} {live : List (Nat × Nat)} {p n address : Nat} (byte : UInt8)
      (held : (p, n) ∈ live) (lower : p ≤ address) (upper : address < p + n) :
      HeapStep ⟨heap, live⟩ (.write address byte)
        ⟨{ heap with mem := Function.update heap.mem address byte }, live⟩

/-- The system after `heap_init`. -/
def HeapSystem.initial (mem : Memory) : HeapSystem := ⟨heapInit mem, []⟩

/-- The representation invariant of the heap together with the live allocations: they
are the used blocks, each at least as large as what was asked for. -/
structure HeapSystem.Inv (system : HeapSystem) (blocks : List Block) : Prop where
  heap : HeapInv system.heap blocks
  owned : ((used 16 system.heap.start blocks).map fun extent => extent.1 + 16).Perm
    (system.live.map Prod.fst)
  held : ∀ allocation ∈ system.live, ∃ size, 16 ≤ allocation.1 ∧
    (allocation.1 - 16, size) ∈ used 16 system.heap.start blocks ∧ allocation.2 ≤ size

namespace HeapSystem.Inv

variable {system : HeapSystem} {heap : Heap} {live : List (Nat × Nat)} {blocks : List Block}
  {allocation other : Nat × Nat} {p n address : Nat}

/-- `heap_init` leaves one free block. -/
theorem initial (mem : Memory) :
    (HeapSystem.initial mem).Inv [⟨vmHeapSize - blockHeader, true⟩] where
  heap := by
    have total : vmHeapSize = 0x1000000 := rfl
    have header : blockHeader = 16 := rfl
    refine ⟨rfl, rfl, ⟨?_, ?_, ?_, ?_⟩, ?_, List.isChain_singleton _⟩
    · simp only [HeapSystem.initial, heapInit, blockMagic_setSize, blockMagic_setFree]
      exact blockMagic_setMagic (by decide)
    · simp only [HeapSystem.initial, heapInit, blockFree_setSize]
      exact blockFree_setFree (by decide)
    · simp only [HeapSystem.initial, heapInit]
      exact blockSize_setSize (by omega)
    · simp only [HeapSystem.initial, heapInit, Headers]
      omega
    · intro block member
      rw [List.mem_singleton.mp member]
      simp only
      omega
  owned := .nil
  held _ member := absurd member List.not_mem_nil

/-- The live pointers are distinct. -/
theorem nodup (inv : system.Inv blocks) : (system.live.map Prod.fst).Nodup := by
  refine (inv.owned.nodup_iff).mp ?_
  have distinct := @used_nodup 16 system.heap.start blocks (by decide)
  rw [List.nodup_iff_pairwise_ne, List.pairwise_map] at distinct ⊢
  exact distinct.imp fun different same => different (by omega)

/-- A live pointer has one size. -/
theorem unique (inv : system.Inv blocks) {m : Nat} (one : (p, n) ∈ system.live)
    (other : (p, m) ∈ system.live) : (p, n) = (p, m) :=
  List.inj_on_of_nodup_map inv.nodup one other rfl

/-- A live allocation stands at a used block that is large enough. -/
theorem block (inv : system.Inv blocks) (member : allocation ∈ system.live) :
    ∃ size before after, blocks = before ++ ⟨size, false⟩ :: after ∧
      allocation.1 = system.heap.start + span 16 before + 16 ∧ allocation.2 ≤ size := by
  obtain ⟨size, lower, extent, fits⟩ := inv.held allocation member
  obtain ⟨before, after, shape, place⟩ := mem_used_iff.mp extent
  exact ⟨size, before, after, shape, by omega, fits⟩

/-- The bytes of a live allocation are covered by its used block. -/
theorem covered (inv : system.Inv blocks) (member : allocation ∈ system.live)
    (lower : allocation.1 ≤ address) (upper : address < allocation.1 + allocation.2) :
    address ∈ Blocks.covered 16 system.heap.start blocks := by
  obtain ⟨size, positive, extent, fits⟩ := inv.held allocation member
  exact ⟨_, extent, by simp only; omega, by simp only; omega⟩

/-- A block that is taken becomes one more live allocation. -/
theorem take {before after : List Block} {size : Nat}
    (inv : Inv ⟨heap, live⟩ (before ++ ⟨size, true⟩ :: after)) (positive : 0 < n)
    (fits : (n + 15) / 16 * 16 ≤ size) :
    Inv ⟨{ heap with mem := kmallocTake heap.mem (heap.start + span 16 before) ((n + 15) / 16 * 16) },
        (heap.start + span 16 before + 16, n) :: live⟩
      (before ++ (carve 16 16 ((n + 15) / 16 * 16) size ++ after)) := by
  have extents := @used_carve_inner 16 16 _ size heap.start before after fits
  have old : used 16 heap.start (before ++ ⟨size, true⟩ :: after) = used 16 heap.start before ++
      used 16 (heap.start + span 16 before + 16 + size) after := by
    rw [used_append, used_cons_free]
  have room : n ≤ carved 16 16 ((n + 15) / 16 * 16) size := by
    unfold carved
    split <;> omega
  refine ⟨inv.heap.take (by omega) (by omega) fits, ?_, ?_⟩
  · simp only [extents]
    have owned := inv.owned
    simp only [old] at owned
    refine (List.perm_middle.map _).trans ?_
    simp only [List.map_cons]
    exact owned.cons _
  · intro allocation member
    simp only [extents]
    rcases List.mem_cons.mp member with rfl | before'
    · exact ⟨_, by simp only; omega, List.mem_append_right _ List.mem_cons_self, room⟩
    · obtain ⟨size', positive', extent, fits'⟩ := inv.held allocation before'
      simp only [old] at extent
      refine ⟨size', positive', ?_, fits'⟩
      rcases List.mem_append.mp extent with early | late
      · exact List.mem_append_left _ early
      · exact List.mem_append_right _ (List.mem_cons_of_mem _ late)

/-- What `kmalloc` does to the system. -/
theorem kmalloc_spec (inv : Inv ⟨heap, live⟩ blocks) (n : Nat) :
    kmalloc heap n = .done (heap, 0) ∨
    ∃ before size after, blocks = before ++ ⟨size, true⟩ :: after ∧ 0 < n ∧
      (n + 15) / 16 * 16 ≤ size ∧
      kmalloc heap n = .done ({ heap with
        mem := kmallocTake heap.mem (heap.start + span 16 before) ((n + 15) / 16 * 16) },
        heap.start + span 16 before + 16) := by
  rcases inv.heap.kmalloc_cases n with ⟨result, _⟩ |
      ⟨before, size, after, shape, positive, _, fits, _, result⟩
  · exact .inl result
  · exact .inr ⟨before, size, after, shape, positive, fits, result⟩

/-- Freeing a live allocation leaves the other ones, with all their bytes. -/
theorem release (inv : Inv ⟨heap, live⟩ blocks) (member : (p, n) ∈ live) :
    ∃ heap' blocks', kfree heap p = .done heap' ∧ Inv ⟨heap', live.erase (p, n)⟩ blocks' ∧
      ∀ other ∈ live, other.1 ≠ p → ∀ address, other.1 ≤ address →
        address < other.1 + other.2 → heap'.mem address = heap.mem address := by
  obtain ⟨size, before, after, rfl, place, _⟩ := inv.block member
  simp only at place
  subst place
  obtain ⟨mem', call, heapInv, kept⟩ := inv.heap.kfree_spec
  have extents := @used_perm 16 heap.start size before after
  have pointers := (extents.map fun extent => extent.1 + 16).symm.trans inv.owned
  have remaining := pointers.trans ((List.perm_cons_erase member).map Prod.fst)
  -- the block of another live allocation is not the one that is freed
  have others : ∀ other ∈ live, other.1 ≠ heap.start + span 16 before + 16 →
      ∃ size', 16 ≤ other.1 ∧ (other.1 - 16, size') ∈
        used 16 heap.start (before ++ ⟨size, true⟩ :: after) ∧ other.2 ≤ size' := by
    intro other otherMember different
    obtain ⟨size', positive, extent, fits⟩ := inv.held other otherMember
    refine ⟨size', positive, ?_, fits⟩
    rcases List.mem_cons.mp (extents.mem_iff.mp extent) with same | rest
    · have := congrArg Prod.fst same
      simp only at this
      omega
    · exact rest
  refine ⟨{ heap with mem := mem' }, _, call, ⟨heapInv, ?_, ?_⟩, ?_⟩
  · simp only [used_coalesce]
    exact remaining.cons_inv
  · intro other otherMember
    simp only [used_coalesce]
    refine others other (List.mem_of_mem_erase otherMember) fun same => ?_
    have distinct := (((List.perm_cons_erase member).map Prod.fst).nodup_iff).mp inv.nodup
    rw [List.map_cons, List.nodup_cons] at distinct
    exact distinct.1 (List.mem_map.mpr ⟨other, otherMember, same⟩)
  · intro other otherMember different address lower upper
    obtain ⟨size', positive, extent, fits⟩ := others other otherMember different
    exact kept address ⟨_, extent, by simp only; omega, by simp only; omega⟩

/-- A write inside a live allocation changes no header. -/
theorem write (inv : Inv ⟨heap, live⟩ blocks) (byte : UInt8) (member : (p, n) ∈ live)
    (lower : p ≤ address) (upper : address < p + n) :
    Inv ⟨{ heap with mem := Function.update heap.mem address byte }, live⟩ blocks := by
  obtain ⟨size, before, after, rfl, place, fits⟩ := inv.block member
  simp only at place fits
  refine ⟨⟨inv.heap.start, inv.heap.finish, ?_, inv.heap.sized, inv.heap.merged⟩, inv.owned, inv.held⟩
  have header : blockHeader = 16 := rfl
  have other : ∀ place, place ≠ address →
      Function.update heap.mem address byte place = heap.mem place :=
    fun place different => Function.update_of_ne different _ _
  have chain := inv.heap.headers
  refine Headers.replace [⟨size, false⟩] chain rfl ?_ ?_
  · rw [headers_append, header] at chain
    obtain ⟨_, magic, free, sized, _⟩ := chain
    obtain ⟨sameMagic, sameFree, sameSize⟩ := @header_congr heap.mem
      (Function.update heap.mem address byte) (heap.start + span 16 before)
      fun place below above => other place (by omega)
    exact ⟨sameMagic.trans magic, sameFree.trans free, sameSize.trans sized, by
      simp only [Headers, span_cons, span_nil]
      omega⟩
  · intro place outside
    simp only [span_cons, span_nil, header] at outside
    exact other place (by omega)

end HeapSystem.Inv

/-- The invariant holds for some row of blocks. -/
def HeapSystem.WellFormed (system : HeapSystem) : Prop := ∃ blocks, system.Inv blocks

/-- Every step keeps the invariant. -/
theorem HeapStep.preserves {system next : HeapSystem} {event : HeapEvent}
    (step : HeapStep system event next) (inv : system.WellFormed) :
    next.WellFormed := by
  obtain ⟨blocks, inv⟩ := inv
  cases step with
  | malloc call =>
      rename_i n p
      rcases inv.kmalloc_spec n with result | ⟨before, size, after, rfl, positive, fits, result⟩
      · rw [result] at call
        obtain ⟨rfl, rfl⟩ := Prod.mk.inj (Outcome.done.inj call)
        exact ⟨blocks, by simpa using inv⟩
      · rw [result] at call
        obtain ⟨rfl, rfl⟩ := Prod.mk.inj (Outcome.done.inj call)
        exact ⟨_, by simpa using inv.take positive fits⟩
  | freeNull call =>
      obtain rfl := Outcome.done.inj call
      exact ⟨blocks, inv⟩
  | free held call =>
      obtain ⟨heap', blocks', result, inv', _⟩ := inv.release held
      rw [result] at call
      obtain rfl := Outcome.done.inj call
      exact ⟨blocks', inv'⟩
  | write byte held lower upper => exact ⟨blocks, inv.write byte held lower upper⟩

theorem HeapSystem.reachable_wellFormed {mem : Memory} {events : List HeapEvent}
    {system : HeapSystem} (run : Steps HeapStep (HeapSystem.initial mem) events system) :
    system.WellFormed :=
  run.invariant (fun {state _ _} (inv : state.WellFormed) step => step.preserves inv)
    ⟨_, HeapSystem.Inv.initial mem⟩

/-- What a client relies on: its bytes lie aligned in the arena, apart from every
header and from every other live allocation. -/
structure HeapSystem.Placed (system : HeapSystem) (blocks : List Block) (p n : Nat) : Prop where
  aligned : p % 16 = 0
  lower : vmHeapBase ≤ p
  upper : p + n ≤ vmHeapBase + vmHeapSize
  headers : ∀ before block after, blocks = before ++ block :: after →
    p + n ≤ vmHeapBase + span 16 before ∨ vmHeapBase + span 16 before + 16 ≤ p
  others : ∀ other ∈ system.live, other ≠ (p, n) → p + n ≤ other.1 ∨ other.1 + other.2 ≤ p

/-- Blocks of multiples of 16 bytes keep the addresses aligned. -/
theorem HeapInv.span_aligned {h : Heap} {blocks before after : List Block} (inv : HeapInv h blocks)
    (shape : blocks = before ++ after) : span 16 before % 16 = 0 := by
  have sized : ∀ block ∈ before, block.size % 16 = 0 := fun block member =>
    (inv.sized block (by rw [shape]; exact List.mem_append_left _ member)).2
  clear shape
  induction before with
  | nil => rfl
  | cons block rest ih =>
      have tail := ih fun other member => sized other (List.mem_cons_of_mem _ member)
      have own := sized block List.mem_cons_self
      rw [span_cons]
      omega

theorem HeapSystem.Inv.placed {system : HeapSystem} {blocks : List Block} {p n : Nat}
    (inv : system.Inv blocks) (member : (p, n) ∈ system.live) : system.Placed blocks p n := by
  have start := inv.heap.start
  obtain ⟨size, before, after, shape, place, fits⟩ := inv.block member
  simp only [start] at place fits
  have aligned := inv.heap.span_aligned shape
  have base : vmHeapBase % 16 = 0 := by decide
  refine ⟨by omega, by omega, ?_, ?_, ?_⟩
  · have covers := inv.heap.headers.span
    have header : blockHeader = 16 := rfl
    rw [shape, span_append, span_cons, header, start, inv.heap.finish] at covers
    simp only at covers
    omega
  · intro before' block after' shape'
    rcases @split_cases 16 _ _ _ _ _ _ (shape.symm.trans shape') with ⟨rfl, _⟩ | apart | apart
    · omega
    · simp only at apart
      omega
    · omega
  · rintro ⟨q, m⟩ otherMember different
    obtain ⟨size₁, _, extent₁, fits₁⟩ := inv.held _ member
    obtain ⟨size₂, _, extent₂, fits₂⟩ := inv.held _ otherMember
    have apart : p ≠ q := by
      rintro rfl
      exact different (inv.unique otherMember member)
    have disjoint := used_disjoint extent₁ extent₂ (by simp only; omega)
    simp only at disjoint fits₁ fits₂ ⊢
    omega

/-- A run with two allocations, a write to the first one, and its release, after which its
place is given again. -/
theorem HeapSystem.sampleRun : ∃ heap heap', Steps HeapStep (HeapSystem.initial fun _ => 0)
    [.malloc 100 0xFFFF800000000010, .write 0xFFFF800000000011 7, .malloc 40 0xFFFF800000000090,
      .free 0xFFFF800000000010] ⟨heap, [(0xFFFF800000000090, 40)]⟩ ∧
    kmalloc heap 100 = .done (heap', 0xFFFF800000000010) := by
  have allocated := Steps.single (@HeapStep.malloc (heapInit fun _ => 0) _ [] 100 0xFFFF800000000010 rfl)
  have written := allocated.snoc (HeapStep.write 7 List.mem_cons_self
    (show 0xFFFF800000000010 ≤ 0xFFFF800000000011 by decide) (by decide))
  have again := written.snoc (@HeapStep.malloc _ _ _ 40 0xFFFF800000000090 rfl)
  exact ⟨_, _, again.snoc (HeapStep.free (List.mem_cons_of_mem _ List.mem_cons_self) rfl), rfl⟩

/-- **The heap invariant.** In every reachable state the headers tile the arena, no two
neighbours are free, and the used blocks are the live pointers. No call ever halts or
runs forever, and every pointer handed out is aligned, inside the arena and apart from
all headers and other allocations. -/
theorem heap_invariant {mem : Memory} {events : List HeapEvent} {system : HeapSystem}
    (run : Steps HeapStep (HeapSystem.initial mem) events system) :
    (system.live.map Prod.fst).Nodup ∧
    (∃ blocks, HeapInv system.heap blocks ∧
      ((used 16 vmHeapBase blocks).map fun extent => extent.1 + 16).Perm (system.live.map Prod.fst) ∧
      ∀ allocation ∈ system.live, system.Placed blocks allocation.1 allocation.2) ∧
    kfree system.heap 0 = .done system.heap ∧
    (∀ allocation ∈ system.live, ∃ heap', kfree system.heap allocation.1 = .done heap') ∧
    ∀ n, ∃ heap' p, kmalloc system.heap n = .done (heap', p) ∧
      (p ≠ 0 → ∃ blocks', HeapInv heap' blocks' ∧
        HeapSystem.Placed ⟨heap', (p, n) :: system.live⟩ blocks' p n) := by
  obtain ⟨blocks, inv⟩ := HeapSystem.reachable_wellFormed run
  have owned := inv.owned
  rw [inv.heap.start] at owned
  refine ⟨inv.nodup, ⟨blocks, inv.heap, owned, fun _ member => inv.placed member⟩, rfl, ?_, ?_⟩
  · rintro ⟨p, n⟩ member
    obtain ⟨heap', _, call, _⟩ := HeapSystem.Inv.release inv member
    exact ⟨heap', call⟩
  · intro n
    rcases HeapSystem.Inv.kmalloc_spec inv n with result | ⟨before, size, after, rfl, positive, fits, result⟩
    · exact ⟨_, 0, result, fun nonNull => absurd rfl nonNull⟩
    · have taken := HeapSystem.Inv.take inv positive fits
      exact ⟨_, _, result, fun _ => ⟨_, taken.heap, taken.placed List.mem_cons_self⟩⟩

theorem heap_invariant_sample : ∃ heap blocks, HeapInv heap blocks ∧
    ((used 16 vmHeapBase blocks).map fun extent => extent.1 + 16).Perm [0xFFFF800000000090] := by
  obtain ⟨heap, _, run, _⟩ := HeapSystem.sampleRun
  obtain ⟨_, ⟨blocks, inv, owned, _⟩, _⟩ := heap_invariant run
  exact ⟨heap, blocks, inv, owned⟩

/-- **The frame of the heap.** In every reachable state, `kmalloc` changes no byte of a
live allocation, and none at all when it fails; `kfree` changes no byte of another
live allocation. -/
theorem heap_frame {mem : Memory} {events : List HeapEvent} {system : HeapSystem}
    (run : Steps HeapStep (HeapSystem.initial mem) events system) :
    (∀ m, ∃ heap' r, kmalloc system.heap m = .done (heap', r) ∧
      (∀ p n, (p, n) ∈ system.live → ∀ address, p ≤ address → address < p + n →
        heap'.mem address = system.heap.mem address) ∧
      (r = 0 → heap' = system.heap)) ∧
    ∀ q k, (q, k) ∈ system.live → ∃ heap', kfree system.heap q = .done heap' ∧
      ∀ p n, (p, n) ∈ system.live → p ≠ q → ∀ address, p ≤ address → address < p + n →
        heap'.mem address = system.heap.mem address := by
  obtain ⟨blocks, inv⟩ := HeapSystem.reachable_wellFormed run
  constructor
  · intro m
    rcases HeapSystem.Inv.kmalloc_spec inv m with result | ⟨before, size, after, rfl, _, fits, result⟩
    · exact ⟨_, _, result, fun _ _ _ _ _ _ => rfl, fun _ => rfl⟩
    · refine ⟨_, _, result, ?_, fun isNull => by omega⟩
      intro p n member address lower upper
      exact inv.heap.take_frame fits (inv.covered member lower upper)
  · intro q k member
    obtain ⟨heap', _, call, _, kept⟩ := HeapSystem.Inv.release inv member
    exact ⟨heap', call, fun p n otherMember different => kept (p, n) otherMember different⟩

theorem heap_frame_sample : ∃ heap heap' r, kmalloc heap 16 = .done (heap', r) ∧
    ∀ address, 0xFFFF800000000090 ≤ address → address < 0xFFFF800000000090 + 40 →
      heap'.mem address = heap.mem address := by
  obtain ⟨heap, _, run, _⟩ := HeapSystem.sampleRun
  obtain ⟨heap', r, call, kept, _⟩ := (heap_frame run).1 16
  exact ⟨heap, heap', r, call, kept _ _ List.mem_cons_self⟩

end GodOs
