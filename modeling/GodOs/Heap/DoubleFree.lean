import GodOs.Heap.Canonical

/-!
# Double frees

A freed block keeps its old header for as long as no live block covers it: neither
merging nor splitting puts anything else than a free header there. So freeing it once
more is noticed. `kfreeRun` is `kfree` with the memory that it leaves, however it ends.
-/

namespace GodOs

open Lib Lib.Blocks

/-- Go on with the memory that is left and the value, unless the run stopped. -/
def andThen {α β : Type} (run : Memory × Outcome α) (next : Memory → α → Memory × Outcome β) :
    Memory × Outcome β :=
  match run.2 with
  | .done value => next run.1 value
  | .halted why => (run.1, .halted why)
  | .loop => (run.1, .loop)

/-- `kfreeForward` with the memory that it leaves. -/
def kfreeForwardRun (finish b : Nat) : Nat → Memory → Memory × Outcome Unit
  | 0, mem => (mem, .loop)
  | budget + 1, mem =>
      let next := blockNext mem b
      if next ≥ finish then (mem, .done ())
      else if blockMagic mem next ≠ heapMagic then
        (mem, .halted "M8/HEAP: bad magic in forward merge")
      else if blockFree mem next = 0 then (mem, .done ())
      else
        kfreeForwardRun finish b budget
          (setSize mem b (blockSize mem b + (blockHeader + blockSize mem next)))

/-- `kfree` with the memory that it leaves. -/
def kfreeRun (h : Heap) (ptr : Nat) : Memory × Outcome Unit :=
  if ptr = 0 then (h.mem, .done ())
  else
    let b := u64 (ptr + (2 ^ 64 - blockHeader))
    if b < h.start ∨ b ≥ h.finish then (h.mem, .halted "M8/HEAP: kfree out of range")
    else if blockMagic h.mem b ≠ heapMagic then (h.mem, .halted "M8/HEAP: kfree bad magic")
    else if blockFree h.mem b ≠ 0 then (h.mem, .halted "M8/HEAP: double free")
    else
      andThen (kfreeForwardRun h.finish b (2 ^ 64) (setFree h.mem b 1)) fun mem _ =>
      andThen (mem, kfreePrev mem b (2 ^ 64) 0 h.start) fun mem prev =>
      if prev ≠ 0 ∧ blockFree mem prev ≠ 0 then
        (setSize mem prev (blockSize mem prev + (blockHeader + blockSize mem b)), .done ())
      else (mem, .done ())

/-- The outcome of a run that leaves a memory. -/
def kfreeEnd (h : Heap) (run : Memory × Outcome Unit) : Outcome Heap :=
  run.2.bind fun _ => .done { h with mem := run.1 }

section Run

variable {h h' : Heap} {finish b budget ptr : Nat} {mem mem' : Memory}

theorem kfreeEnd_andThen {α : Type} {run : Memory × Outcome α}
    {next : Memory → α → Memory × Outcome Unit} :
    kfreeEnd h (andThen run next) = run.2.bind fun value => kfreeEnd h (next run.1 value) := by
  obtain ⟨mem, ending⟩ := run
  cases ending <;> rfl

theorem kfreeForwardRun_eq : kfreeForward finish b budget mem =
    (kfreeForwardRun finish b budget mem).2.bind fun _ =>
      .done (kfreeForwardRun finish b budget mem).1 := by
  induction budget generalizing mem with
  | zero => rfl
  | succ budget ih =>
      rw [kfreeForward, kfreeForwardRun]
      split_ifs
      · rfl
      · rfl
      · rfl
      · exact ih

/-- `kfreeRun` ends as `kfree` does, with the same memory. -/
theorem kfreeRun_eq : kfree h ptr = kfreeEnd h (kfreeRun h ptr) := by
  unfold kfree kfreeRun
  generalize (2 : Nat) ^ 64 = budget
  by_cases null : ptr = 0
  · rw [if_pos null, if_pos null]
    rfl
  rw [if_neg null, if_neg null]
  generalize u64 (ptr + (budget - blockHeader)) = b
  dsimp only
  by_cases outside : b < h.start ∨ b ≥ h.finish
  · rw [if_pos outside, if_pos outside]
    rfl
  rw [if_neg outside, if_neg outside]
  by_cases magic : blockMagic h.mem b ≠ heapMagic
  · rw [if_pos magic, if_pos magic]
    rfl
  rw [if_neg magic, if_neg magic]
  by_cases free : blockFree h.mem b ≠ 0
  · rw [if_pos free, if_pos free]
    rfl
  rw [if_neg free, if_neg free, kfreeForwardRun_eq, kfreeEnd_andThen]
  generalize kfreeForwardRun h.finish b budget (setFree h.mem b 1) = run
  obtain ⟨mem, ending⟩ := run
  cases ending with
  | done _ =>
      rw [Outcome.bind_done, Outcome.bind_done, Outcome.bind_done, kfreeEnd_andThen]
      congr 1
      funext prev
      rw [apply_ite (kfreeEnd h)]
      rfl
  | halted why => rfl
  | loop => rfl

/-- The forward loop writes the size of its block only. -/
theorem kfreeForward_frame (run : kfreeForward finish b budget mem = .done mem') {address : Nat}
    (outside : address < b + 8 ∨ b + 16 ≤ address) : mem' address = mem address := by
  induction budget generalizing mem with
  | zero => cases run
  | succ budget ih =>
      rw [kfreeForward] at run
      split at run
      · rw [Outcome.done.inj run]
      split at run
      · cases run
      split at run
      · rw [Outcome.done.inj run]
      · exact (ih run).trans (Memory.store_outside outside)

end Run

/-- No live block, header and payload, covers the 16 bytes in front of `p`. -/
def HeapSystem.Spares (system : HeapSystem) (p : Nat) : Prop :=
  ∀ allocation ∈ system.live, ¬ (allocation.1 - 16 ≤ p - 16 ∧
    p ≤ allocation.1 + blockSize system.heap.mem (allocation.1 - 16))

/-- The header in front of `p` is one of a free block, or what is left of one. -/
structure HeapSystem.Stale (system : HeapSystem) (p : Nat) : Prop where
  aligned : p % 16 = 0
  lower : vmHeapBase + 16 ≤ p
  upper : p < vmHeapBase + vmHeapSize + 16
  magic : blockMagic system.heap.mem (p - 16) = heapMagic
  free : blockFree system.heap.mem (p - 16) ≠ 0
  spares : system.Spares p

section Steps

variable {h h' : Heap} {mem : Memory} {need b size p : Nat} {before after blocks : List Block}

/-- Headers lie at multiples of 16. -/
theorem HeapInv.header_aligned (inv : HeapInv h blocks) (shape : blocks = before ++ after) :
    (h.start + span 16 before) % 16 = 0 := by
  have aligned := inv.span_aligned shape
  have base : vmHeapBase % 16 = 0 := by decide
  rw [inv.start]
  omega

/-- Besides the free word of its block, `kfree` writes only sizes: of its block, and of a
block in front of it. -/
theorem HeapInv.kfree_writes (inv : HeapInv h (before ++ ⟨size, false⟩ :: after))
    (call : kfree h (h.start + span 16 before + 16) = .done h') :
    ∃ prev, prev % 16 = 0 ∧ ∀ address,
      (address < h.start + span 16 before + 8 ∨ h.start + span 16 before + 16 ≤ address) →
      (address < prev + 8 ∨ prev + 16 ≤ address) →
      h'.mem address = setFree h.mem (h.start + span 16 before) 1 address := by
  have header : blockHeader = 16 := rfl
  have small := inv.finish_lt
  have covers := inv.headers.span
  have lengthLt := inv.length_lt
  have cut := inv.headers
  rw [headers_append, header] at cut
  obtain ⟨front, magic, free, _, _⟩ := cut
  rw [span_append, span_cons, header] at covers
  simp only at free covers
  have pointer : u64 (h.start + span 16 before + 16 + (2 ^ 64 - blockHeader)) =
      h.start + span 16 before := by
    rw [u64, header]
    omega
  unfold kfree at call
  rw [if_neg (by omega)] at call
  simp only [pointer] at call
  rw [if_neg (by omega), if_neg (not_not.mpr magic), if_neg (by simp [free])] at call
  obtain ⟨mem₁, forward, call⟩ := Outcome.bind_eq_done.mp call
  obtain ⟨prev, walk, call⟩ := Outcome.bind_eq_done.mp call
  have kept : ∀ address, (address < h.start + span 16 before + 8 ∨
      h.start + span 16 before + 16 ≤ address) →
      mem₁ address = setFree h.mem (h.start + span 16 before) 1 address :=
    fun address outside => kfreeForward_frame forward outside
  have aligned : prev % 16 = 0 := by
    rcases before.eq_nil_or_concat' with rfl | ⟨front', last, rfl⟩
    · rw [kfreePrev_stop (by simp) (by decide)] at walk
      rw [← Outcome.done.inj walk]
    · have front₁ : Headers mem₁ (h.start + span 16 (front' ++ [last])) h.start (front' ++ [last]) :=
        front.congr fun address _ below =>
          (kept address (by omega)).trans (setFree_outside (by omega))
      rw [kfreePrev_spec front₁ (by omega) (by
        simp only [List.length_append, List.length_cons, List.length_nil] at lengthLt
        omega)] at walk
      rw [← Outcome.done.inj walk]
      exact inv.header_aligned (List.append_assoc _ _ _)
  refine ⟨prev, aligned, fun address outside outsidePrev => ?_⟩
  split at call
  · rw [← Outcome.done.inj call]
    exact (Memory.store_outside (by omega)).trans (kept address outside)
  · rw [← Outcome.done.inj call]
    exact kept address outside

/-- `kmalloc` writes the header of the block that it takes, and the one of a free block
behind it. -/
theorem kmallocTake_writes {address : Nat} (fits : need ≤ size) (sized : blockSize mem b = size)
    (small : b + 16 + size < 2 ^ 64) (outside : address < b ∨ b + 16 ≤ address)
    (behind : 16 + 16 ≤ size - need → address < b + 16 + need ∨ b + 16 + need + 16 ≤ address) :
    kmallocTake mem b need address = mem address := by
  have header : blockHeader = 16 := rfl
  unfold kmallocTake
  simp only [sized, header]
  rw [setFree_outside outside]
  split
  next worth =>
    have beside := behind worth
    rw [u64_of_lt (by omega), setSize_outside outside, setSize_outside beside,
      setFree_outside beside, setMagic_outside beside]
  next => rfl

/-- A header depends on its magic and its free word. -/
theorem stale_congr {mem' : Memory} (same : ∀ address, b ≤ address → address < b + 8 →
    mem' address = mem address) :
    blockMagic mem' b = blockMagic mem b ∧ blockFree mem' b = blockFree mem b :=
  ⟨Memory.load_congr fun address _ _ => same address (by omega) (by omega),
    Memory.load_congr fun address _ _ => same address (by omega) (by omega)⟩

/-- Taking from a free block keeps free headers outside the part that is taken. -/
theorem HeapInv.take_stale (inv : HeapInv h (before ++ ⟨size, true⟩ :: after)) (positive : 0 < need)
    (rounded : need % 16 = 0) (fits : need ≤ size) (aligned : p % 16 = 0) (lower : 16 ≤ p)
    (apart : p ≤ h.start + span 16 before ∨
      h.start + span 16 before + 16 + carved 16 16 need size ≤ p - 16)
    (magic : blockMagic h.mem (p - 16) = heapMagic) (free : blockFree h.mem (p - 16) ≠ 0) :
    blockMagic (kmallocTake h.mem (h.start + span 16 before) need) (p - 16) = heapMagic ∧
      blockFree (kmallocTake h.mem (h.start + span 16 before) need) (p - 16) ≠ 0 := by
  have placed := inv.header_aligned rfl
  have covers := inv.headers.span
  have small := inv.finish_lt
  have header : blockHeader = 16 := rfl
  have cut := inv.headers
  rw [headers_append, header] at cut
  obtain ⟨_, takenMagic, _, sized, _⟩ := cut
  rw [span_append, span_cons, header] at covers
  simp only at covers sized
  rw [← Nat.add_assoc] at covers
  generalize h.start + span 16 before = c at *
  by_cases here : 16 + 16 ≤ size - need ∧ p - 16 = c + 16 + need
  · -- a new free header is put exactly there
    have made := kmallocTake_headers fits (show c + 16 + size < 2 ^ 64 by omega) positive
      takenMagic sized
    rw [carve, if_pos here.1] at made
    obtain ⟨_, _, _, newMagic, newFree, _⟩ := made
    rw [header] at newMagic newFree
    rw [here.2, newFree]
    exact ⟨newMagic, by simp⟩
  · obtain ⟨sameMagic, sameFree⟩ := @stale_congr h.mem (p - 16) (kmallocTake h.mem c need)
      fun address below above => by
        refine kmallocTake_writes fits sized (by omega) ?_ fun worth => ?_
        · unfold carved at apart
          split at apart <;> omega
        · rw [carved, if_pos worth] at apart
          omega
    exact ⟨sameMagic.trans magic, sameFree ▸ free⟩

/-- A used block lies before or behind 16 aligned bytes that are spared. -/
theorem HeapSystem.Spares.apart {system : HeapSystem} (spares : system.Spares p)
    (inv : system.Inv blocks) (aligned : p % 16 = 0) (lower : 16 ≤ p)
    (extent : (b, size) ∈ used 16 system.heap.start blocks) : p ≤ b ∨ b + 16 + size ≤ p - 16 := by
  obtain ⟨⟨q, n⟩, member, same⟩ := List.mem_map.mp
    (inv.owned.mem_iff.mp (List.mem_map.mpr ⟨_, extent, rfl⟩))
  simp only at same
  subst same
  have uncovered := spares _ member
  simp only [Nat.add_sub_cancel, inv.heap.blockSize_eq extent] at uncovered
  obtain ⟨before, after, shape, rfl⟩ := mem_used_iff.mp extent
  have placed := inv.heap.header_aligned shape
  have sized := (inv.heap.sized ⟨size, false⟩ (by rw [shape]; simp)).2
  simp only at sized
  omega

end Steps

section Stale

variable {heap heap' : Heap} {live : List (Nat × Nat)} {system next : HeapSystem}
  {event : HeapEvent} {p n : Nat} {blocks : List Block}

/-- Freeing a pointer leaves a free header in front of it. -/
theorem HeapSystem.Inv.stale (inv : Inv ⟨heap, live⟩ blocks) (member : (p, n) ∈ live)
    (call : kfree heap p = .done heap') : Stale ⟨heap', live.erase (p, n)⟩ p := by
  obtain ⟨heap₁, blocks₁, call₁, inv₁, _⟩ := inv.release member
  obtain rfl := Outcome.done.inj (call₁.symm.trans call)
  obtain ⟨size, before, after, rfl, place, _⟩ := inv.block member
  simp only at place
  subst place
  have start : heap.start = vmHeapBase := inv.heap.start
  have header : blockHeader = 16 := rfl
  have covers := inv.heap.span_eq
  have aligned : (heap.start + span 16 before) % 16 = 0 := inv.heap.header_aligned rfl
  have extent : (heap.start + span 16 before, size) ∈
      used 16 heap.start (before ++ ⟨size, false⟩ :: after) := mem_used_iff.mpr ⟨_, _, rfl, rfl⟩
  obtain ⟨prev, alignedPrev, writes⟩ := HeapInv.kfree_writes (h := heap) inv.heap call
  obtain ⟨sameMagic, sameFree⟩ := stale_congr fun address lower upper =>
    writes address (.inl upper) (by omega)
  rw [span_append, span_cons] at covers
  refine ⟨by omega, by omega, by omega, ?_, ?_, ?_⟩
  · have cut := inv.heap.headers
    rw [headers_append, header] at cut
    rw [Nat.add_sub_cancel, sameMagic, blockMagic_setFree, cut.2.1]
  · rw [Nat.add_sub_cancel, sameFree, blockFree_setFree (by decide)]
    decide
  · -- the other used blocks were apart from this one before
    obtain ⟨heap₂, blocks₂, call₂, inv₂, removed⟩ := inv.heap.kfree_used extent
    obtain rfl := Outcome.done.inj (call₂.symm.trans call)
    obtain rfl := inv₂.headers.unique inv₁.heap.headers
    have nodup := @used_nodup 16 heap.start (before ++ ⟨size, false⟩ :: after) (by decide)
    rw [(removed.map Prod.fst).nodup_iff, List.map_cons, List.nodup_cons] at nodup
    rintro ⟨q, m⟩ otherMember
    obtain ⟨size', positive, other, _⟩ := inv₁.held _ otherMember
    have different : q - 16 ≠ heap.start + span 16 before := fun same =>
      nodup.1 (List.mem_map.mpr ⟨_, other, same⟩)
    have apart := used_disjoint (removed.mem_iff.mpr (List.mem_cons_of_mem _ other)) extent different
    have sized := inv₁.heap.blockSize_eq other
    simp only at positive apart sized ⊢
    rw [sized]
    omega

/-- As long as its 16 bytes are spared, every step keeps the header. -/
theorem HeapSystem.Stale.step (stale : system.Stale p) (inv : system.Inv blocks)
    (step : HeapStep system event next) (spares : next.Spares p) : next.Stale p := by
  obtain ⟨aligned, lower, upper, magic, free, spared⟩ := stale
  have base : 16 ≤ p := by omega
  suffices blockMagic next.heap.mem (p - 16) = heapMagic ∧ blockFree next.heap.mem (p - 16) ≠ 0 from
    ⟨aligned, lower, upper, this.1, this.2, spares⟩
  have unchanged : (∀ address, p - 16 ≤ address → address < p - 16 + 8 →
      next.heap.mem address = system.heap.mem address) →
      blockMagic next.heap.mem (p - 16) = heapMagic ∧ blockFree next.heap.mem (p - 16) ≠ 0 := by
    intro same
    obtain ⟨sameMagic, sameFree⟩ := stale_congr same
    exact ⟨sameMagic.trans magic, sameFree ▸ free⟩
  cases step with
  | @malloc heap heap' live n r call =>
      rcases inv.heap.kmalloc_cases n with ⟨result, _⟩ |
          ⟨before, size, after, rfl, positive, _, fits, _, result⟩
      · rw [result] at call
        obtain ⟨rfl, rfl⟩ := Prod.mk.inj (Outcome.done.inj call)
        exact unchanged fun _ _ _ => rfl
      · rw [result] at call
        obtain ⟨rfl, rfl⟩ := Prod.mk.inj (Outcome.done.inj call)
        have taken := HeapSystem.Inv.take inv positive fits
        have extents := @used_carve_inner 16 16 _ size heap.start before after fits
        have placed : (heap.start + span 16 before) % 16 = 0 := inv.heap.header_aligned rfl
        rw [if_neg (by omega)] at spares
        have apart := spares.apart taken aligned base (by
          simp only [extents]
          exact List.mem_append_right _ List.mem_cons_self)
        exact inv.heap.take_stale (by omega) (by omega) fits aligned base apart magic free
  | freeNull call =>
      obtain rfl := Outcome.done.inj call
      exact unchanged fun _ _ _ => rfl
  | @free heap heap' live q m held call =>
      obtain ⟨size, before, after, rfl, place, _⟩ := inv.block held
      simp only at place
      subst place
      have extent : (heap.start + span 16 before, size) ∈
          used 16 heap.start (before ++ ⟨size, false⟩ :: after) := mem_used_iff.mpr ⟨_, _, rfl, rfl⟩
      have apart : p ≤ heap.start + span 16 before ∨ heap.start + span 16 before + 16 + size ≤ p - 16 :=
        spared.apart inv aligned base extent
      obtain ⟨prev, alignedPrev, writes⟩ := HeapInv.kfree_writes (h := heap) inv.heap call
      exact unchanged fun address below above =>
        (writes address (by omega) (by omega)).trans (setFree_outside (by omega))
  | @write heap live q m place byte held below above =>
      obtain ⟨size, before, after, rfl, start, fits⟩ := inv.block held
      simp only at start fits
      have extent : (heap.start + span 16 before, size) ∈
          used 16 heap.start (before ++ ⟨size, false⟩ :: after) := mem_used_iff.mpr ⟨_, _, rfl, rfl⟩
      have apart : p ≤ heap.start + span 16 before ∨ heap.start + span 16 before + 16 + size ≤ p - 16 :=
        spared.apart inv aligned base extent
      exact unchanged fun address _ _ => Function.update_of_ne (by omega) _ _

end Stale

/-- **Double frees are noticed.** In every run, a pointer that was freed and whose 16 bytes
of header no live block has covered since is refused by `kfree`, which changes no byte. -/
theorem double_free_noticed {mem : Memory} {events later : List HeapEvent}
    {system freed last : HeapSystem} {p : Nat}
    (run : Steps HeapStep (HeapSystem.initial mem) events system)
    (free : HeapStep system (.free p) freed)
    (since : Steps (fun state event next => HeapStep state event next ∧ next.Spares p)
      freed later last) :
    kfreeRun last.heap p = (last.heap.mem, .halted "M8/HEAP: double free") ∧
      kfree last.heap p = .halted "M8/HEAP: double free" := by
  have wellFormed := HeapSystem.reachable_wellFormed run
  have begun : freed.WellFormed ∧ freed.Stale p := by
    obtain ⟨blocks, inv⟩ := wellFormed
    refine ⟨free.preserves ⟨blocks, inv⟩, ?_⟩
    cases free with
    | free held call => exact inv.stale held call
  have kept : ∀ {state event next}, state.WellFormed ∧ state.Stale p →
      HeapStep state event next ∧ next.Spares p → next.WellFormed ∧ next.Stale p := by
    rintro state event next ⟨⟨blocks, inv⟩, stale⟩ ⟨step, spares⟩
    exact ⟨step.preserves ⟨blocks, inv⟩, stale.step inv step spares⟩
  obtain ⟨⟨blocks, inv⟩, stale⟩ := since.invariant (fun earlier step => kept earlier step) begun
  obtain ⟨aligned, lower, upper, magic, stillFree, _⟩ := stale
  have start := inv.heap.start
  have finish := inv.heap.finish
  have base : vmHeapBase = 0xFFFF800000000000 := rfl
  have size : vmHeapSize = 0x1000000 := rfl
  have pointer : u64 (p + (2 ^ 64 - blockHeader)) = p - 16 := by
    rw [u64, show blockHeader = 16 from rfl]
    omega
  have refused : kfreeRun last.heap p = (last.heap.mem, .halted "M8/HEAP: double free") := by
    unfold kfreeRun
    rw [if_neg (by omega)]
    simp only [pointer]
    rw [if_neg (by omega), if_neg (not_not.mpr magic), if_pos stillFree]
  exact ⟨refused, by rw [kfreeRun_eq, refused]; rfl⟩

/-- Between the frees the block in front is freed, which merges the two, and a part of it
is allocated again, which splits it. -/
theorem double_free_noticed_sample : ∃ heap, Steps HeapStep (HeapSystem.initial fun _ => 0)
      [.malloc 100 0xFFFF800000000010, .malloc 40 0xFFFF800000000090, .free 0xFFFF800000000090,
        .free 0xFFFF800000000010, .malloc 16 0xFFFF800000000010]
      ⟨heap, [(0xFFFF800000000010, 16)]⟩ ∧
    kfree heap 0xFFFF800000000090 = .halted "M8/HEAP: double free" := by
  obtain ⟨held, freed, merged, last, run, free, merge, split, size⟩ : ∃ held freed merged last,
      Steps HeapStep (HeapSystem.initial fun _ => 0)
        [.malloc 100 0xFFFF800000000010, .malloc 40 0xFFFF800000000090]
        ⟨held, [(0xFFFF800000000090, 40), (0xFFFF800000000010, 100)]⟩ ∧
      kfree held 0xFFFF800000000090 = .done freed ∧ kfree freed 0xFFFF800000000010 = .done merged ∧
      kmalloc merged 16 = .done (last, 0xFFFF800000000010) ∧ blockSize last.mem vmHeapBase = 16 :=
    ⟨_, _, _, _, (Steps.single (@HeapStep.malloc (heapInit fun _ => 0) _ [] 100 0xFFFF800000000010
      rfl)).snoc (@HeapStep.malloc _ _ _ 40 0xFFFF800000000090 rfl), rfl, rfl, rfl, rfl⟩
  have free : HeapStep ⟨held, [(0xFFFF800000000090, 40), (0xFFFF800000000010, 100)]⟩ _
      ⟨freed, [(0xFFFF800000000010, 100)]⟩ := .free List.mem_cons_self free
  have merge : HeapStep ⟨freed, [(0xFFFF800000000010, 100)]⟩ _ ⟨merged, []⟩ :=
    .free List.mem_cons_self merge
  have split : HeapStep ⟨merged, []⟩ _ ⟨last, [(0xFFFF800000000010, 16)]⟩ := .malloc split
  have spares : HeapSystem.Spares ⟨last, [(0xFFFF800000000010, 16)]⟩ 0xFFFF800000000090 := by
    intro allocation member
    obtain rfl := List.mem_singleton.mp member
    simp only [show 0xFFFF800000000010 - 16 = vmHeapBase from rfl, size]
    decide
  have nothing : HeapSystem.Spares ⟨merged, []⟩ 0xFFFF800000000090 := fun _ member => nomatch member
  exact ⟨last, (run.snoc free).trans ((Steps.single merge).snoc split),
    (double_free_noticed run free ((Steps.single ⟨merge, nothing⟩).snoc ⟨split, spares⟩)).2⟩

end GodOs
