import GodOs.Heap.Canonical

/-!
# The self-test of the heap

`heap_self_test` makes six allocations and frees two of them. When it passes, the other
four are still live, and hardly anything of the heap is left. The lines that it prints
are left out; the two readings of `vm_fault_count` are parameters.
-/

namespace GodOs

open Lib Lib.Blocks

def rangesOverlap (p plen q qlen : Nat) : Bool :=
  decide (p < u64 (q + qlen)) && decide (q < u64 (p + plen))

/-- The write loops: a byte at every `stride`, for the indices below the count. -/
def fillEvery (mem : Memory) (p stride : Nat) (value : Nat → UInt8) : Nat → Memory
  | 0 => mem
  | k + 1 => Function.update (fillEvery mem p stride value k) (u64 (p + stride * k)) (value k)

/-- The read loops that go with them. -/
def readsBack (mem : Memory) (p stride : Nat) (value : Nat → UInt8) (count : Nat) : Bool :=
  (List.range count).all fun k => mem (u64 (p + stride * k)) == value k

/-- The byte of a pattern at index `i`. -/
def patternByte (seed : UInt8) (i : Nat) : UInt8 := seed ^^^ UInt8.ofNat i

/-- `write_read_pattern` on one range after the other, up to the first that fails. -/
def writeReadPatterns (mem : Memory) : List (Nat × Nat × UInt8) → Memory × Bool
  | [] => (mem, true)
  | (p, len, seed) :: rest =>
      let mem := fillEvery mem p 1 (patternByte seed) len
      if readsBack mem p 1 (patternByte seed) len then writeReadPatterns mem rest else (mem, false)

/-- The byte that the page loop writes at its round `k`, that is, at index `4096 * k`. -/
def pageByte (k : Nat) : UInt8 := UInt8.ofNat ((4096 * k) >>> 12)

/-- The number of rounds of the page loop. -/
def bigPages : Nat := 25

/-- The checks of the three small blocks. -/
def heapSelfTestSmall (h : Heap) (a b c : Nat) : Heap × Bool :=
  let aligned := decide (a &&& 15 = 0) && decide (b &&& 15 = 0) && decide (c &&& 15 = 0)
  let overlap := rangesOverlap a 16 b 200 || rangesOverlap a 16 c 1000 || rangesOverlap b 200 c 1000
  let run := writeReadPatterns h.mem [(a, 16, 0xA0), (b, 200, 0xB0), (c, 1000, 0xC0)]
  ({ h with mem := run.1 }, aligned && !overlap && run.2)

/-- The check across pages, with the fault counts before and after. -/
def heapSelfTestBig (h : Heap) (f0 f1 : Nat) : Outcome (Heap × Bool) :=
  (kmalloc h 100000).bind fun (h, big) =>
  if big = 0 then .done (h, false)
  else
    let mem := fillEvery h.mem big 4096 pageByte bigPages
    .done ({ h with mem }, readsBack mem big 4096 pageByte bigPages && decide (f0 < f1))

/-- Fill what is free. -/
def heapSelfTestFill (h : Heap) : Outcome (Heap × Bool) :=
  (heapFreeBytes h).bind fun freeTotal =>
  (kmalloc h freeTotal).bind fun (h, fill) =>
  (heapFreeBytes h).bind fun left => .done (h, decide (fill ≠ 0 ∧ left = 0))

/-- The check that two neighbours merge. -/
def heapSelfTestCoalesce (h : Heap) (a b : Nat) : Outcome (Heap × Bool) :=
  (kfree h b).bind fun h =>
  (kfree h a).bind fun h =>
  (heapFreeBytes h).bind fun _ =>
  (kmalloc h 224).bind fun (h, d) => .done (h, decide (d ≠ 0))

/-- `heap_self_test` with the values that `vm_fault_count` returns. -/
def heapSelfTest (h : Heap) (f0 f1 : Nat) : Outcome (Heap × Int) :=
  (kmalloc h 16).bind fun (h, a) =>
  (kmalloc h 200).bind fun (h, b) =>
  (kmalloc h 1000).bind fun (h, c) =>
  if a = 0 ∨ b = 0 ∨ c = 0 then .done (h, -1)
  else
    let small := heapSelfTestSmall h a b c
    (kmalloc small.1 vmHeapSize).bind fun (h, oom) =>
    (heapSelfTestBig h f0 f1).bind fun (h, big) =>
    if small.2 && decide (oom = 0) && big then
      (heapSelfTestFill h).bind fun (h, filled) =>
      if filled then
        (heapSelfTestCoalesce h a b).bind fun (h, merged) => .done (h, if merged then 0 else -1)
      else .done (h, -1)
    else .done (h, -1)

/-- The calls of a self-test that passes, in their order. -/
structure SelfTestPass (h h' : Heap) (f0 f1 : Nat) where
  a : Nat
  b : Nat
  c : Nat
  big : Nat
  total : Nat
  fill : Nat
  left : Nat
  d : Nat
  withA : Heap
  withB : Heap
  withC : Heap
  refused : Heap
  withBig : Heap
  filled : Heap
  withoutB : Heap
  withoutA : Heap
  callA : kmalloc h 16 = .done (withA, a)
  callB : kmalloc withA 200 = .done (withB, b)
  callC : kmalloc withB 1000 = .done (withC, c)
  given : ¬ (a = 0 ∨ b = 0 ∨ c = 0)
  small : (heapSelfTestSmall withC a b c).2 = true
  oom : kmalloc (heapSelfTestSmall withC a b c).1 vmHeapSize = .done (refused, 0)
  callBig : kmalloc refused 100000 = .done (withBig, big)
  bigGiven : big ≠ 0
  pages : readsBack (fillEvery withBig.mem big 4096 pageByte bigPages) big 4096 pageByte bigPages = true
  faults : f0 < f1
  free : heapFreeBytes { withBig with mem := fillEvery withBig.mem big 4096 pageByte bigPages } =
    .done total
  callFill : kmalloc { withBig with mem := fillEvery withBig.mem big 4096 pageByte bigPages } total =
    .done (filled, fill)
  fillGiven : fill ≠ 0
  full : heapFreeBytes filled = .done 0
  freeB : kfree filled b = .done withoutB
  freeA : kfree withoutB a = .done withoutA
  freeLeft : heapFreeBytes withoutA = .done left
  callD : kmalloc withoutA 224 = .done (h', d)
  dGiven : d ≠ 0

section Trace

variable {h h' : Heap} {f0 f1 : Nat}

theorem heapSelfTestBig_true : heapSelfTestBig h f0 f1 = .done (h', true) ↔
    ∃ withBig big, kmalloc h 100000 = .done (withBig, big) ∧ big ≠ 0 ∧
      readsBack (fillEvery withBig.mem big 4096 pageByte bigPages) big 4096 pageByte bigPages = true ∧
      f0 < f1 ∧ { withBig with mem := fillEvery withBig.mem big 4096 pageByte bigPages } = h' := by
  unfold heapSelfTestBig
  constructor
  · intro run
    obtain ⟨⟨withBig, big⟩, call, run⟩ := Outcome.bind_eq_done.mp run
    simp only at run
    split at run
    · simp at run
    next given =>
      obtain ⟨same, checks⟩ := Prod.mk.inj (Outcome.done.inj run)
      rw [Bool.and_eq_true, decide_eq_true_eq] at checks
      exact ⟨withBig, big, call, given, checks.1, checks.2, same⟩
  · rintro ⟨withBig, big, call, given, pages, faults, rfl⟩
    rw [call, Outcome.bind_done]
    simp only
    rw [if_neg given, pages, decide_eq_true faults]
    rfl

theorem heapSelfTestFill_true : heapSelfTestFill h = .done (h', true) ↔
    ∃ total fill, heapFreeBytes h = .done total ∧ kmalloc h total = .done (h', fill) ∧ fill ≠ 0 ∧
      heapFreeBytes h' = .done 0 := by
  unfold heapSelfTestFill
  constructor
  · intro run
    obtain ⟨total, free, run⟩ := Outcome.bind_eq_done.mp run
    obtain ⟨⟨filled, fill⟩, call, run⟩ := Outcome.bind_eq_done.mp run
    obtain ⟨left, full, run⟩ := Outcome.bind_eq_done.mp run
    obtain ⟨rfl, checks⟩ := Prod.mk.inj (Outcome.done.inj run)
    obtain ⟨given, rfl⟩ := decide_eq_true_eq.mp checks
    exact ⟨total, fill, free, call, given, full⟩
  · rintro ⟨total, fill, free, call, given, full⟩
    rw [free, Outcome.bind_done, call, Outcome.bind_done]
    simp only
    rw [full, Outcome.bind_done, decide_eq_true ⟨given, rfl⟩]

theorem heapSelfTestCoalesce_true {a b : Nat} : heapSelfTestCoalesce h a b = .done (h', true) ↔
    ∃ withoutB withoutA left d, kfree h b = .done withoutB ∧ kfree withoutB a = .done withoutA ∧
      heapFreeBytes withoutA = .done left ∧ kmalloc withoutA 224 = .done (h', d) ∧ d ≠ 0 := by
  unfold heapSelfTestCoalesce
  constructor
  · intro run
    obtain ⟨withoutB, freeB, run⟩ := Outcome.bind_eq_done.mp run
    obtain ⟨withoutA, freeA, run⟩ := Outcome.bind_eq_done.mp run
    obtain ⟨left, freeLeft, run⟩ := Outcome.bind_eq_done.mp run
    obtain ⟨⟨last, d⟩, call, run⟩ := Outcome.bind_eq_done.mp run
    obtain ⟨rfl, given⟩ := Prod.mk.inj (Outcome.done.inj run)
    exact ⟨withoutB, withoutA, left, d, freeB, freeA, freeLeft, call, decide_eq_true_eq.mp given⟩
  · rintro ⟨withoutB, withoutA, left, d, freeB, freeA, freeLeft, call, given⟩
    rw [freeB, Outcome.bind_done, freeA, Outcome.bind_done, freeLeft, Outcome.bind_done, call,
      Outcome.bind_done]
    simp only
    rw [decide_eq_true given]

/-- The self-test passes when all of its calls do what it expects. -/
theorem SelfTestPass.run (pass : SelfTestPass h h' f0 f1) : heapSelfTest h f0 f1 = .done (h', 0) := by
  unfold heapSelfTest
  rw [pass.callA, Outcome.bind_done]
  simp only
  rw [pass.callB, Outcome.bind_done]
  simp only
  rw [pass.callC, Outcome.bind_done]
  simp only
  rw [if_neg pass.given, pass.oom, Outcome.bind_done]
  simp only
  rw [heapSelfTestBig_true.mpr ⟨_, _, pass.callBig, pass.bigGiven, pass.pages, pass.faults, rfl⟩,
    Outcome.bind_done]
  simp only
  rw [pass.small, if_pos (by simp),
    heapSelfTestFill_true.mpr ⟨_, _, pass.free, pass.callFill, pass.fillGiven, pass.full⟩,
    Outcome.bind_done]
  simp only
  rw [if_pos trivial, heapSelfTestCoalesce_true.mpr
    ⟨_, _, _, _, pass.freeB, pass.freeA, pass.freeLeft, pass.callD, pass.dGiven⟩]
  rfl

/-- A self-test that returns 0 passed. -/
theorem heapSelfTest_passes (run : heapSelfTest h f0 f1 = .done (h', 0)) :
    Nonempty (SelfTestPass h h' f0 f1) := by
  unfold heapSelfTest at run
  obtain ⟨⟨withA, a⟩, callA, afterA⟩ := Outcome.bind_eq_done.mp run
  obtain ⟨⟨withB, b⟩, callB, afterB⟩ := Outcome.bind_eq_done.mp afterA
  obtain ⟨⟨withC, c⟩, callC, afterC⟩ := Outcome.bind_eq_done.mp afterB
  simp only at afterC
  by_cases given : a = 0 ∨ b = 0 ∨ c = 0
  · rw [if_pos given] at afterC
    simp at afterC
  rw [if_neg given] at afterC
  obtain ⟨⟨refused, oom⟩, callOom, afterOom⟩ := Outcome.bind_eq_done.mp afterC
  obtain ⟨⟨paged, bigOk⟩, bigRun, afterBig⟩ := Outcome.bind_eq_done.mp afterOom
  simp only at afterBig
  by_cases checks : ((heapSelfTestSmall withC a b c).2 && decide (oom = 0) && bigOk) = true
  · rw [if_pos checks] at afterBig
    simp only [Bool.and_eq_true, decide_eq_true_eq] at checks
    obtain ⟨⟨small, rfl⟩, rfl⟩ := checks
    obtain ⟨⟨filled, isFull⟩, fillRun, afterFill⟩ := Outcome.bind_eq_done.mp afterBig
    simp only at afterFill
    cases isFull with
    | false => simp at afterFill
    | true =>
        rw [if_pos rfl] at afterFill
        obtain ⟨⟨last, merged⟩, mergeRun, ends⟩ := Outcome.bind_eq_done.mp afterFill
        obtain ⟨rfl, zero⟩ := Prod.mk.inj (Outcome.done.inj ends)
        obtain rfl : merged = true := by
          cases merged
          · simp at zero
          · rfl
        obtain ⟨withBig, big, callBig, bigGiven, pages, faults, rfl⟩ := heapSelfTestBig_true.mp bigRun
        obtain ⟨total, fill, free, callFill, fillGiven, full⟩ := heapSelfTestFill_true.mp fillRun
        obtain ⟨withoutB, withoutA, left, d, freeB, freeA, freeLeft, callD, dGiven⟩ :=
          heapSelfTestCoalesce_true.mp mergeRun
        exact ⟨⟨a, b, c, big, total, fill, left, d, withA, withB, withC, refused, withBig, filled,
          withoutB, withoutA, callA, callB, callC, given, small, callOom, callBig, bigGiven, pages,
          faults, free, callFill, fillGiven, full, freeB, freeA, freeLeft, callD, dGiven⟩⟩
  · rw [if_neg checks] at afterBig
    simp at afterBig

end Trace

/-- What a successful `kmalloc` of `n` bytes does to the row: one used block more, at most
16 bytes larger than needed, and no larger free block. -/
structure Took (start p n size : Nat) (blocks blocks' : List Block) : Prop where
  place : 16 ≤ p
  extents : (used 16 start blocks').Perm ((p - 16, size) :: used 16 start blocks)
  enough : (n + 15) / 16 * 16 ≤ size
  tight : size ≤ (n + 15) / 16 * 16 + 16
  room : ∃ block ∈ blocks, block.free = true ∧ (n + 15) / 16 * 16 ≤ block.size
  shrinks : ∀ block ∈ blocks', block.free = true →
    ∃ larger ∈ blocks, larger.free = true ∧ block.size ≤ larger.size

section Calls

variable {h h' : Heap} {mem : Memory} {live : List (Nat × Nat)} {blocks blocks' : List Block}
  {n p size stride count : Nat}

theorem carved_le (aligned : n % 16 = 0) (sized : size % 16 = 0) (fits : n ≤ size) :
    n ≤ carved 16 16 n size ∧ carved 16 16 n size ≤ n + 16 := by
  unfold carved
  split <;> omega

theorem HeapInv.kmalloc_took (inv : HeapInv h blocks) (call : kmalloc h n = .done (h', p))
    (given : p ≠ 0) :
    ∃ blocks' size, HeapInv h' blocks' ∧ Took vmHeapBase p n size blocks blocks' := by
  rcases inv.kmalloc_cases n with ⟨result, _⟩ |
      ⟨before, size, after, rfl, positive, _, fits, _, result⟩
  · rw [result] at call
    obtain ⟨_, rfl⟩ := Prod.mk.inj (Outcome.done.inj call)
    exact absurd rfl given
  · rw [result] at call
    obtain ⟨rfl, rfl⟩ := Prod.mk.inj (Outcome.done.inj call)
    have sized := (inv.sized ⟨size, true⟩ (by simp)).2
    have bounds := carved_le (n := (n + 15) / 16 * 16) (by omega) sized fits
    refine ⟨_, _, inv.take (by omega) (by omega) fits, by omega, ?_, bounds.1, bounds.2,
      ⟨⟨size, true⟩, by simp, rfl, fits⟩, ?_⟩
    · rw [Nat.add_sub_cancel, used_carve_inner fits, used_append, used_cons_free, ← inv.start]
      exact List.perm_middle
    · intro block member isFree
      rcases List.mem_append.mp member with early | later
      · exact ⟨block, by simp [early], isFree, Nat.le_refl _⟩
      rcases List.mem_append.mp later with mine | late
      · refine ⟨⟨size, true⟩, by simp, rfl, ?_⟩
        unfold carve at mine
        split at mine
        · rcases List.mem_cons.mp mine with rfl | rest
          · cases isFree
          · rw [List.mem_singleton.mp rest]
            simp only
            omega
        · rw [List.mem_singleton.mp mine] at isFree
          cases isFree
      · exact ⟨block, by simp [late], isFree, Nat.le_refl _⟩

/-- A `kmalloc` that fails changes nothing. -/
theorem HeapInv.kmalloc_null (inv : HeapInv h blocks) (call : kmalloc h n = .done (h', 0)) : h' = h := by
  rcases inv.kmalloc_cases n with ⟨result, _⟩ | ⟨before, size, after, _, _, _, _, _, result⟩
  · rw [result] at call
    exact (Prod.mk.inj (Outcome.done.inj call)).1.symm
  · rw [result] at call
    have null := (Prod.mk.inj (Outcome.done.inj call)).2
    omega

/-- Filling a live allocation is a run of writes, and keeps the row. -/
theorem fillEvery_steps (value : Nat → UInt8) (inv : HeapSystem.Inv ⟨h, live⟩ blocks)
    (held : (p, n) ∈ live) (inside : ∀ k < count, p + stride * k < p + n) :
    ∃ events, Steps HeapStep ⟨h, live⟩ events
        ⟨{ h with mem := fillEvery h.mem p stride value count }, live⟩ ∧
      HeapSystem.Inv ⟨{ h with mem := fillEvery h.mem p stride value count }, live⟩ blocks := by
  have upper := (inv.placed held).upper
  have limit : vmHeapBase + vmHeapSize < 2 ^ 64 := by decide
  induction count with
  | zero => exact ⟨[], .refl, inv⟩
  | succ k ih =>
      obtain ⟨events, steps, last⟩ := ih fun j below => inside j (by omega)
      have here := inside k (by omega)
      rw [fillEvery, u64_of_lt (by omega)]
      exact ⟨_, steps.snoc (HeapStep.write (value k) held (by omega) here),
        last.write (value k) held (by omega) here⟩

/-- What was written is read back, as long as the addresses do not wrap. -/
theorem readsBack_fillEvery (value : Nat → UInt8) (positive : 0 < stride)
    (fits : p + stride * count < 2 ^ 64) :
    readsBack (fillEvery mem p stride value count) p stride value count = true := by
  have last : ∀ total k, k < total → total ≤ count →
      fillEvery mem p stride value total (u64 (p + stride * k)) = value k := by
    intro total
    induction total with
    | zero => intro k below _; omega
    | succ total ih =>
        intro k below within
        have bound : ∀ j, j ≤ count → p + stride * j < 2 ^ 64 := fun j atMost => by
          have := Nat.mul_le_mul_left stride atMost
          omega
        rw [fillEvery, u64_of_lt (bound k (by omega)), u64_of_lt (bound total (by omega))]
        by_cases same : k = total
        · rw [same, Function.update_self]
        · have step := (Nat.mul_lt_mul_left positive).mpr (show k < total by omega)
          rw [Function.update_of_ne (by omega), ← u64_of_lt (bound k (by omega))]
          exact ih k (by omega) (by omega)
  rw [readsBack, List.all_eq_true]
  intro k member
  rw [beq_iff_eq]
  exact last count k (List.mem_range.mp member) (Nat.le_refl _)

end Calls

section Pass

variable {h h' : Heap} {live : List (Nat × Nat)} {blocks : List Block} {f0 f1 : Nat}

/-- A run keeps the invariant. -/
theorem HeapSystem.WellFormed.steps {system next : HeapSystem} {events : List HeapEvent}
    (wellFormed : system.WellFormed) (steps : Steps HeapStep system events next) : next.WellFormed :=
  steps.invariant (fun earlier step => step.preserves earlier) wellFormed

/-- The patterns are written inside live allocations, and keep the row. All of them are
read back. -/
theorem writeReadPatterns_steps (ranges : List (Nat × Nat × UInt8))
    (inv : HeapSystem.Inv ⟨h, live⟩ blocks)
    (held : ∀ range ∈ ranges, (range.1, range.2.1) ∈ live) :
    (writeReadPatterns h.mem ranges).2 = true ∧
    ∃ events, Steps HeapStep ⟨h, live⟩ events
        ⟨{ h with mem := (writeReadPatterns h.mem ranges).1 }, live⟩ ∧
      HeapSystem.Inv ⟨{ h with mem := (writeReadPatterns h.mem ranges).1 }, live⟩ blocks := by
  induction ranges generalizing h with
  | nil => exact ⟨rfl, [], .refl, inv⟩
  | cons range rest ih =>
      obtain ⟨p, len, seed⟩ := range
      have own := held (p, len, seed) List.mem_cons_self
      have inside : ∀ k < len, p + 1 * k < p + len := fun k below => by omega
      obtain ⟨events, steps, inv₁⟩ := fillEvery_steps (patternByte seed) inv own inside
      have upper := (inv.placed own).upper
      have limit : vmHeapBase + vmHeapSize < 2 ^ 64 := by decide
      simp only at upper
      rw [writeReadPatterns, if_pos (readsBack_fillEvery _ (by omega) (by omega))]
      obtain ⟨same, events', steps', inv'⟩ := ih inv₁
        fun other member => held other (List.mem_cons_of_mem _ member)
      exact ⟨same, _, steps.trans steps', inv'⟩

/-- What is used, the headers of the gaps and the free bytes make up the heap. -/
theorem HeapInv.accounts (inv : HeapInv h blocks) :
    ((used 16 vmHeapBase blocks).map fun extent => 16 + extent.2).sum +
      16 * (Blocks.gaps 16 vmHeapBase blocks).length + freeBytes blocks = vmHeapSize := by
  rw [← inv.span_eq, Blocks.span_eq vmHeapBase]

/-- A heap without free bytes is all used. -/
theorem HeapInv.full (inv : HeapInv h blocks) (none' : freeBytes blocks = 0) :
    ((used 16 vmHeapBase blocks).map fun extent => 16 + extent.2).sum = vmHeapSize := by
  have total := inv.accounts
  have noGaps : Blocks.gaps 16 vmHeapBase blocks = [] := by
    refine gaps_eq_nil fun block member => ?_
    by_contra isFree
    have small := size_le_freeBytes member (by simpa using isFree)
    have positive := (inv.sized block member).1
    omega
  rw [noGaps, none'] at total
  simpa using total

/-- A self-test that passes is a run of the allocator, of writes inside its own
allocations among other things. It leaves four of them live. -/
theorem SelfTestPass.steps (pass : SelfTestPass h h' f0 f1)
    (wellFormed : HeapSystem.WellFormed ⟨h, live⟩) :
    (∃ events live', Steps HeapStep ⟨h, live⟩ events ⟨h', live'⟩ ∧
      live'.Perm ((pass.d, 224) :: (pass.fill, pass.total) :: (pass.big, 100000) ::
        (pass.c, 1000) :: live)) ∧
    (∀ blocksC, HeapInv pass.withC blocksC → HeapInv pass.refused blocksC) ∧
    ∀ blocksBig, HeapInv pass.withBig blocksBig → HeapInv { pass.withBig with
      mem := fillEvery pass.withBig.mem pass.big 4096 pageByte bigPages } blocksBig := by
  obtain ⟨givenA, givenB, givenC⟩ := by simpa only [not_or] using pass.given
  have callA := Steps.single (@HeapStep.malloc _ _ live _ _ pass.callA)
  rw [if_neg givenA] at callA
  have callB := callA.snoc (.malloc pass.callB)
  rw [if_neg givenB] at callB
  have callC := callB.snoc (.malloc pass.callC)
  rw [if_neg givenC] at callC
  obtain ⟨blocksC, invC⟩ := wellFormed.steps callC
  obtain ⟨_, patterns, written, invSmall⟩ := writeReadPatterns_steps
    [(pass.a, 16, 0xA0), (pass.b, 200, 0xB0), (pass.c, 1000, 0xC0)] invC (by simp)
  have sameHeap := invSmall.heap.kmalloc_null pass.oom
  have callOom := (callC.trans written).snoc (.malloc pass.oom)
  rw [if_pos rfl] at callOom
  have callBig := callOom.snoc (.malloc pass.callBig)
  rw [if_neg pass.bigGiven] at callBig
  have inside : ∀ k < bigPages, pass.big + 4096 * k < pass.big + 100000 := fun k below => by
    have count : bigPages = 25 := rfl
    omega
  obtain ⟨blocksBig, invBig⟩ := wellFormed.steps callBig
  obtain ⟨pages, touched, invPages⟩ := fillEvery_steps pageByte invBig List.mem_cons_self inside
  have callFill := (callBig.trans touched).snoc (.malloc pass.callFill)
  rw [if_neg pass.fillGiven] at callFill
  have freeB := callFill.snoc (@HeapStep.free _ _ _ pass.b 200 (by simp) pass.freeB)
  have leftB := (@List.perm_middle _ (pass.b, 200) [(pass.fill, pass.total), (pass.big, 100000),
    (pass.c, 1000)] ((pass.a, 16) :: live)).erase (pass.b, 200)
  rw [List.erase_cons_head] at leftB
  have freeA := freeB.snoc (@HeapStep.free _ _ _ pass.a 16 (leftB.mem_iff.mpr (by simp)) pass.freeA)
  have leftA := (leftB.trans (@List.perm_middle _ (pass.a, 16) [(pass.fill, pass.total),
    (pass.big, 100000), (pass.c, 1000)] live)).erase (pass.a, 16)
  rw [List.erase_cons_head] at leftA
  have callD := freeA.snoc (.malloc pass.callD)
  rw [if_neg pass.dGiven] at callD
  refine ⟨⟨_, _, callD, leftA.cons _⟩, fun blocksC' inv => ?_, fun blocksBig' inv => ?_⟩
  · obtain rfl := inv.headers.unique invC.heap.headers
    rw [sameHeap]
    exact invSmall.heap
  · obtain rfl := inv.headers.unique invBig.heap.headers
    exact invPages.heap

/-- The rows of a self-test that passes: first `c` finds room for 1000 bytes, and at the
end at most 48 bytes are free. -/
theorem SelfTestPass.rows (pass : SelfTestPass h h' f0 f1) (inv : HeapInv h blocks)
    (rowC : ∀ blocksC, HeapInv pass.withC blocksC → HeapInv pass.refused blocksC)
    (rowBig : ∀ blocksBig, HeapInv pass.withBig blocksBig → HeapInv { pass.withBig with
      mem := fillEvery pass.withBig.mem pass.big 4096 pageByte bigPages } blocksBig) :
    (∃ block ∈ blocks, block.free = true ∧ 1008 ≤ block.size) ∧
      ∃ blocks', HeapInv h' blocks' ∧ freeBytes blocks' ≤ 48 := by
  obtain ⟨givenA, givenB, givenC⟩ := by simpa only [not_or] using pass.given
  obtain ⟨rowA, sizeA, invA, tookA⟩ := inv.kmalloc_took pass.callA givenA
  obtain ⟨rowB, sizeB, invB, tookB⟩ := invA.kmalloc_took pass.callB givenB
  obtain ⟨rowC', sizeC, invC, tookC⟩ := invB.kmalloc_took pass.callC givenC
  obtain ⟨rowG, sizeG, invG, tookG⟩ := (rowC _ invC).kmalloc_took pass.callBig pass.bigGiven
  obtain ⟨rowF, sizeF, invF, tookF⟩ := (rowBig _ invG).kmalloc_took pass.callFill pass.fillGiven
  constructor
  · -- the free block that `c` was taken from lies in one that was free before
    obtain ⟨block, member, isFree, room⟩ := tookC.room
    obtain ⟨block₁, member₁, isFree₁, larger₁⟩ := tookB.shrinks block member isFree
    obtain ⟨block₂, member₂, isFree₂, larger₂⟩ := tookA.shrinks block₁ member₁ isFree₁
    exact ⟨block₂, member₂, isFree₂, by omega⟩
  -- the heap is full when `b` and `a` are freed
  have full := invF.full (Outcome.done.inj (invF.heapFreeBytes_eq.symm.trans pass.full))
  have inA : (pass.a - 16, sizeA) ∈ used 16 vmHeapBase rowA :=
    tookA.extents.mem_iff.mpr List.mem_cons_self
  have inB : (pass.b - 16, sizeB) ∈ used 16 vmHeapBase rowB :=
    tookB.extents.mem_iff.mpr List.mem_cons_self
  have later : ∀ extent ∈ used 16 vmHeapBase rowB, extent ∈ used 16 vmHeapBase rowF :=
    fun extent member => tookF.extents.mem_iff.mpr (List.mem_cons_of_mem _
      (tookG.extents.mem_iff.mpr (List.mem_cons_of_mem _
        (tookC.extents.mem_iff.mpr (List.mem_cons_of_mem _ member)))))
  have apart : pass.a - 16 ≠ pass.b - 16 := by
    have distinct := @used_nodup 16 vmHeapBase rowB (by decide)
    rw [(tookB.extents.map Prod.fst).nodup_iff, List.map_cons, List.nodup_cons] at distinct
    exact fun same => distinct.1 (List.mem_map.mpr ⟨_, inA, same⟩)
  obtain ⟨heap₁, row₁, call₁, inv₁, removed₁⟩ := invF.kfree_used (by
    rw [invF.start]
    exact later _ inB)
  rw [Nat.sub_add_cancel tookB.place] at call₁
  obtain rfl := Outcome.done.inj (call₁.symm.trans pass.freeB)
  rw [invF.start, inv₁.start] at removed₁
  have inA₁ : (pass.a - 16, sizeA) ∈ used 16 vmHeapBase row₁ := by
    have inF := later _ (tookB.extents.mem_iff.mpr (List.mem_cons_of_mem _ inA))
    rcases List.mem_cons.mp (removed₁.mem_iff.mp inF) with same | rest
    · exact absurd (Prod.mk.inj same).1 apart
    · exact rest
  obtain ⟨heap₂, row₂, call₂, inv₂, removed₂⟩ := inv₁.kfree_used (by
    rw [inv₁.start]
    exact inA₁)
  rw [Nat.sub_add_cancel tookA.place] at call₂
  obtain rfl := Outcome.done.inj (call₂.symm.trans pass.freeA)
  rw [inv₁.start, inv₂.start] at removed₂
  obtain ⟨row', sizeD, inv', tookD⟩ := inv₂.kmalloc_took pass.callD pass.dGiven
  refine ⟨row', inv', ?_⟩
  have sumB := (removed₁.map fun extent => 16 + extent.2).sum_eq
  have sumA := (removed₂.map fun extent => 16 + extent.2).sum_eq
  have sumD := (tookD.extents.map fun extent => 16 + extent.2).sum_eq
  have total := inv'.accounts
  have tightA := tookA.tight
  have tightB := tookB.tight
  have enoughD := tookD.enough
  rw [List.map_cons, List.sum_cons] at sumB sumA sumD
  omega

/-- A self-test that passes leaves four allocations, takes free bytes, and no longer
leaves room for 1000 bytes, which there was. -/
theorem SelfTestPass.effect (pass : SelfTestPass h h' f0 f1)
    (wellFormed : HeapSystem.WellFormed ⟨h, live⟩) :
    (∃ events live' c big fill total d, Steps HeapStep ⟨h, live⟩ events ⟨h', live'⟩ ∧
      live'.Perm ((d, 224) :: (fill, total) :: (big, 100000) :: (c, 1000) :: live)) ∧
    (∃ free free', heapFreeBytes h = .done free ∧ heapFreeBytes h' = .done free' ∧ free' < free) ∧
    (∃ h₁ r, kmalloc h 1000 = .done (h₁, r) ∧ r ≠ 0) ∧ kmalloc h' 1000 = .done (h', 0) := by
  obtain ⟨⟨events, live', steps, perm⟩, rowC, rowBig⟩ := pass.steps wellFormed
  obtain ⟨blocks, inv⟩ := wellFormed
  obtain ⟨⟨block, member, isFree, large⟩, blocks', inv', little⟩ := pass.rows inv.heap rowC rowBig
  have room := size_le_freeBytes member isFree
  refine ⟨⟨events, live', _, _, _, _, _, steps, perm⟩,
    ⟨_, _, inv.heap.heapFreeBytes_eq, inv'.heapFreeBytes_eq, by omega⟩, ?_, ?_⟩
  · rcases inv.heap.kmalloc_cases 1000 with ⟨_, zero | big | none'⟩ |
        ⟨_, _, _, _, _, _, _, _, result⟩
    · omega
    · exact absurd big (by decide)
    · exact absurd ⟨isFree, by omega⟩ (none' block member)
    · exact ⟨_, _, result, by omega⟩
  · rcases inv'.kmalloc_cases 1000 with ⟨result, _⟩ | ⟨before, size, after, rfl, _, _, fits, _, _⟩
    · exact result
    · have member' : (⟨size, true⟩ : Block) ∈ before ++ ⟨size, true⟩ :: after := by simp
      have small := size_le_freeBytes member' rfl
      simp only at small
      omega

end Pass

section Fresh

variable {h : Heap} {live : List (Nat × Nat)} {before after : List Block} {n size f0 f1 : Nat}

/-- First fit takes a free block that is large enough if those before it are used. -/
theorem HeapInv.kmalloc_first (inv : HeapInv h (before ++ ⟨size, true⟩ :: after))
    (allUsed : ∀ block ∈ before, block.free = false) (positive : 0 < n) (bounded : n ≤ vmHeapSize)
    (fits : (n + 15) / 16 * 16 ≤ size) :
    kmalloc h n = .done ({ h with
      mem := kmallocTake h.mem (h.start + span 16 before) ((n + 15) / 16 * 16) },
      h.start + span 16 before + 16) := by
  rcases inv.kmalloc_cases n with ⟨_, zero | big | none'⟩ |
      ⟨before', size', after', shape, _, _, fits', first, result⟩
  · omega
  · omega
  · exact absurd ⟨rfl, fits⟩ (none' ⟨size, true⟩ (by simp))
  · rcases @split_cases 16 _ _ _ _ _ _ shape with ⟨rfl, _⟩ | behind | ahead
    · exact result
    · have earlier := @mem_before 16 _ _ _ _ _ _ shape.symm (by omega)
      exact absurd ⟨rfl, fits⟩ (first _ earlier)
    · have earlier := @mem_before 16 _ _ _ _ _ _ shape (by omega)
      have isUsed := allUsed _ earlier
      cases isUsed

/-- The same with the live allocations. -/
theorem HeapSystem.Inv.malloc_first (inv : Inv ⟨h, live⟩ (before ++ ⟨size, true⟩ :: after))
    (allUsed : ∀ block ∈ before, block.free = false) (positive : 0 < n) (bounded : n ≤ vmHeapSize)
    (fits : (n + 15) / 16 * 16 ≤ size) :
    ∃ h', kmalloc h n = .done (h', vmHeapBase + span 16 before + 16) ∧
      Inv ⟨h', (vmHeapBase + span 16 before + 16, n) :: live⟩
        (before ++ (carve 16 16 ((n + 15) / 16 * 16) size ++ after)) := by
  have call := inv.heap.kmalloc_first allUsed positive bounded fits
  have taken := inv.take positive fits
  have start : h.start = vmHeapBase := inv.heap.start
  rw [start] at call taken
  exact ⟨_, call, taken⟩

/-- No block is as large as the heap. -/
theorem HeapInv.kmalloc_whole {blocks : List Block} (inv : HeapInv h blocks) :
    kmalloc h vmHeapSize = .done (h, 0) := by
  rcases inv.kmalloc_cases vmHeapSize with ⟨result, _⟩ | ⟨before, size, after, rfl, _, _, fits, _, _⟩
  · exact result
  · have total := inv.span_eq
    rw [span_append, span_cons] at total
    simp only at total
    omega

/-- On a fresh heap the self-test passes, if the page loop took a fault. -/
theorem heapSelfTest_fresh (mem : Memory) (faults : f0 < f1) :
    ∃ h', Nonempty (SelfTestPass (heapInit mem) h' f0 f1) := by
  have initial := HeapSystem.Inv.initial mem
  obtain ⟨withA, callA, invA⟩ := @HeapSystem.Inv.malloc_first _ _ [] [] 16 _ initial (by simp)
    (by decide) (by decide) (by decide)
  obtain ⟨withB, callB, invB⟩ := @HeapSystem.Inv.malloc_first _ _ [⟨16, false⟩] [] 200 16777168 invA
    (by simp) (by decide) (by decide) (by decide)
  obtain ⟨withC, callC, invC⟩ := @HeapSystem.Inv.malloc_first _ _ [⟨16, false⟩, ⟨208, false⟩] [] 1000
    16776944 invB (by simp) (by decide) (by decide) (by decide)
  obtain ⟨patterns, _, _, invSmall⟩ := writeReadPatterns_steps
    [(vmHeapBase + 16, 16, 0xA0), (vmHeapBase + 48, 200, 0xB0), (vmHeapBase + 272, 1000, 0xC0)] invC
    (by simp)
  obtain ⟨withBig, callBig, invBig⟩ := @HeapSystem.Inv.malloc_first _ _
    [⟨16, false⟩, ⟨208, false⟩, ⟨1008, false⟩] [] 100000 16775920 invSmall (by simp) (by decide)
    (by decide) (by decide)
  have inside : ∀ k < bigPages, vmHeapBase + 1296 + 4096 * k < vmHeapBase + 1296 + 100000 :=
    fun k below => by
      have count : bigPages = 25 := rfl
      omega
  obtain ⟨_, _, invPages⟩ := fillEvery_steps pageByte invBig List.mem_cons_self inside
  obtain ⟨⟨memF, start, finish⟩, callFill, invFill⟩ := @HeapSystem.Inv.malloc_first _ _
    [⟨16, false⟩, ⟨208, false⟩, ⟨1008, false⟩, ⟨100000, false⟩] [] 16675904 16675904 invPages (by simp)
    (by decide) (by decide) (by decide)
  obtain rfl : start = vmHeapBase := invFill.heap.start
  obtain ⟨memB, freeB, invFreeB, _⟩ := @HeapInv.kfree_spec _ 208 [⟨16, false⟩]
    [⟨1008, false⟩, ⟨100000, false⟩, ⟨16675904, false⟩] invFill.heap
  obtain ⟨memA, freeA, invFreeA, _⟩ := @HeapInv.kfree_spec _ 16 []
    [⟨208, true⟩, ⟨1008, false⟩, ⟨100000, false⟩, ⟨16675904, false⟩] invFreeB
  have callD := @HeapInv.kmalloc_first _ []
    [⟨1008, false⟩, ⟨100000, false⟩, ⟨16675904, false⟩] 224 240 invFreeA (by simp) (by decide) (by decide)
    (by decide)
  have small : (heapSelfTestSmall withC (vmHeapBase + 16) (vmHeapBase + 48)
      (vmHeapBase + 272)).2 = true := by
    simp only [heapSelfTestSmall, patterns]
    decide
  exact ⟨_, ⟨{
    a := _, b := _, c := _, big := _, total := _, fill := _, left := _, d := _, withA, withB, withC,
    refused := _, withBig, filled := _, withoutB := _, withoutA := _, callA, callB, callC,
    given := by decide, small, oom := invSmall.heap.kmalloc_whole, callBig, bigGiven := by decide,
    pages := readsBack_fillEvery _ (by decide) (by decide), faults,
    free := invPages.heap.heapFreeBytes_eq, callFill, fillGiven := by decide,
    full := invFill.heap.heapFreeBytes_eq, freeB, freeA, freeLeft := invFreeA.heapFreeBytes_eq, callD,
    dGiven := by omega }⟩⟩

end Fresh

/-- **The self-test keeps what it takes.** Whenever it passes, whatever the heap and the
fault counts, four of its allocations stay live, there are fewer free bytes than before,
and a request of 1000 bytes that would have succeeded fails. -/
theorem self_test_keeps_memory {mem : Memory} {events : List HeapEvent} {system : HeapSystem}
    (run : Steps HeapStep (HeapSystem.initial mem) events system) {f0 f1 : Nat} {heap' : Heap}
    (passes : heapSelfTest system.heap f0 f1 = .done (heap', 0)) :
    (∃ own live' c big fill total d, Steps HeapStep system own ⟨heap', live'⟩ ∧
      live'.Perm ((d, 224) :: (fill, total) :: (big, 100000) :: (c, 1000) :: system.live)) ∧
    (∃ free free', heapFreeBytes system.heap = .done free ∧ heapFreeBytes heap' = .done free' ∧
      free' < free) ∧
    (∃ heap₁ r, kmalloc system.heap 1000 = .done (heap₁, r) ∧ r ≠ 0) ∧
    kmalloc heap' 1000 = .done (heap', 0) := by
  obtain ⟨pass⟩ := heapSelfTest_passes passes
  exact pass.effect (HeapSystem.reachable_wellFormed run)

theorem self_test_keeps_memory_sample : ∃ heap' live',
    heapSelfTest (heapInit fun _ => 0) 1 25 = .done (heap', 0) ∧ live'.length = 4 ∧
      ∃ own, Steps HeapStep (HeapSystem.initial fun _ => 0) own ⟨heap', live'⟩ := by
  obtain ⟨heap', ⟨pass⟩⟩ := heapSelfTest_fresh (fun _ => 0) (show 1 < 25 by decide)
  obtain ⟨⟨own, live', _, _, _, _, _, steps, perm⟩, _⟩ :=
    self_test_keeps_memory (@Steps.refl _ _ HeapStep (HeapSystem.initial fun _ => 0)) pass.run
  exact ⟨heap', live', pass.run, perm.length_eq, own, steps⟩

/-- After `heap_init` and a self-test that passes, a request of 1000 bytes fails that would
have succeeded without it. -/
theorem self_test_exhausts_heap : ∃ heap', heapSelfTest (heapInit fun _ => 0) 1 25 = .done (heap', 0) ∧
    (∃ own live', Steps HeapStep (HeapSystem.initial fun _ => 0) own ⟨heap', live'⟩ ∧ live' ≠ []) ∧
    heapFreeBytes (heapInit fun _ => 0) ≠ heapFreeBytes heap' ∧
    (∃ heap₁ r, kmalloc (heapInit fun _ => 0) 1000 = .done (heap₁, r) ∧ r ≠ 0) ∧
    kmalloc heap' 1000 = .done (heap', 0) := by
  obtain ⟨heap', ⟨pass⟩⟩ := heapSelfTest_fresh (fun _ => 0) (show 1 < 25 by decide)
  obtain ⟨⟨own, live', _, _, _, _, _, steps, perm⟩, ⟨free, free', before, after, less⟩, fits, fails⟩ :=
    pass.effect ⟨_, HeapSystem.Inv.initial fun _ => 0⟩
  refine ⟨heap', pass.run, ⟨own, live', steps, ?_⟩, ?_, fits, fails⟩
  · rintro rfl
    exact absurd perm.length_eq (by simp)
  · rw [before, after]
    exact fun same => absurd (Outcome.done.inj same) (by omega)

end GodOs
