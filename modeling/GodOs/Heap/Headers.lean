import GodOs.Heap.Alloc
import GodOs.Lib.Blocks

/-!
# The row of blocks in memory

`Headers` is the chain that the loops of `heap.c` follow, and ties the memory to a
row of blocks. `kmalloc_spec` and `kfree_spec` say what the two functions do to the
row, and that they leave the bytes of the other used blocks alone.
-/

namespace GodOs

open Lib Lib.Blocks

/-- The headers reached from `b`, each where the block before it ends, the last one
ending at `finish`. -/
def Headers (mem : Memory) (finish : Nat) : Nat → List Block → Prop
  | b, [] => b = finish
  | b, block :: rest =>
      blockMagic mem b = heapMagic ∧ blockFree mem b = (if block.free then 1 else 0) ∧
        blockSize mem b = block.size ∧ Headers mem finish (b + blockHeader + block.size) rest

/-- The representation invariant of the heap: its headers are a merged row that fills
the arena, with payloads of a positive multiple of 16 bytes. -/
structure HeapInv (h : Heap) (blocks : List Block) : Prop where
  start : h.start = vmHeapBase
  finish : h.finish = vmHeapBase + vmHeapSize
  headers : Headers h.mem h.finish h.start blocks
  sized : ∀ block ∈ blocks, 0 < block.size ∧ block.size % 16 = 0
  merged : Merged blocks

section Chain

variable {mem mem' : Memory} {finish b : Nat} {block : Block} {before after blocks : List Block}

theorem Headers.span (headers : Headers mem finish b blocks) :
    b + Blocks.span blockHeader blocks = finish := by
  induction blocks generalizing b with
  | nil => exact headers
  | cons block rest ih =>
      have tail := ih headers.2.2.2
      rw [span_cons]
      omega

/-- A chain can be cut between any two blocks. -/
theorem headers_append : Headers mem finish b (before ++ after) ↔
    Headers mem (b + Blocks.span blockHeader before) b before ∧
      Headers mem finish (b + Blocks.span blockHeader before) after := by
  induction before generalizing b with
  | nil => simp [Headers]
  | cons block before ih =>
      have place : b + Blocks.span blockHeader (block :: before) =
          b + blockHeader + block.size + Blocks.span blockHeader before := by
        rw [span_cons]
        omega
      rw [List.cons_append, Headers, Headers, ih, place]
      simp only [and_assoc]

/-- A chain depends on the memory that its blocks cover. -/
theorem Headers.congr (headers : Headers mem finish b blocks)
    (same : ∀ address, b ≤ address → address < finish → mem' address = mem address) :
    Headers mem' finish b blocks := by
  have header : blockHeader = 16 := rfl
  induction blocks generalizing b with
  | nil => exact headers
  | cons block rest ih =>
      obtain ⟨magic, free, size, tail⟩ := headers
      have covers := tail.span
      obtain ⟨sameMagic, sameFree, sameSize⟩ :=
        @header_congr mem mem' b fun address lower upper => same address lower (by omega)
      exact ⟨sameMagic.trans magic, sameFree.trans free, sameSize.trans size,
        ih tail fun address lower upper => same address (by omega) upper⟩

/-- Replacing a part of a chain by another one that ends at the same place. -/
theorem Headers.replace (middle : List Block) {middle' : List Block}
    (headers : Headers mem finish b (before ++ (middle ++ after)))
    (length : Blocks.span blockHeader middle' = Blocks.span blockHeader middle)
    (inner : Headers mem' (b + Blocks.span blockHeader before + Blocks.span blockHeader middle)
      (b + Blocks.span blockHeader before) middle')
    (outside : ∀ address, address < b + Blocks.span blockHeader before ∨
      b + Blocks.span blockHeader before + Blocks.span blockHeader middle ≤ address →
        mem' address = mem address) :
    Headers mem' finish b (before ++ (middle' ++ after)) := by
  rw [headers_append, headers_append] at headers ⊢
  obtain ⟨first, _, last⟩ := headers
  rw [length]
  exact ⟨first.congr fun address _ upper => outside address (.inl upper), inner,
    last.congr fun address lower _ => outside address (.inr lower)⟩

end Chain

section Malloc

variable {h : Heap} {mem : Memory} {need b size : Nat} {blocks before after : List Block}

/-- Outside the block it takes from, `kmallocTake` changes nothing. -/
theorem kmallocTake_outside {address : Nat} (fits : need ≤ size) (sized : blockSize mem b = size)
    (small : b + 16 + size < 2 ^ 64) (outside : address < b ∨ b + 16 + size ≤ address) :
    kmallocTake mem b need address = mem address := by
  have header : blockHeader = 16 := rfl
  unfold kmallocTake
  simp only [sized, header]
  rw [setFree_outside (by omega)]
  split
  · rw [u64_of_lt (by omega), setSize_outside (by omega), setSize_outside (by omega),
      setFree_outside (by omega), setMagic_outside (by omega)]
  · rfl

/-- Inside it, `kmallocTake` leaves the headers of the carved blocks. -/
theorem kmallocTake_headers (fits : need ≤ size) (small : b + 16 + size < 2 ^ 64)
    (aligned : 0 < need) (magic : blockMagic mem b = heapMagic) (sized : blockSize mem b = size) :
    Headers (kmallocTake mem b need) (b + (16 + size)) b (carve 16 16 need size) := by
  have header : blockHeader = 16 := rfl
  unfold kmallocTake carve
  simp only [sized, header]
  by_cases worth : size - need ≥ 16 + 16
  · rw [if_pos worth, if_pos worth, u64_of_lt (by omega)]
    generalize made : setSize (setFree (setMagic mem (b + 16 + need) heapMagic) (b + 16 + need) 1)
      (b + 16 + need) (size - need - 16) = mem'
    have old : ∀ address, address < b + 16 → mem' address = mem address := by
      intro address below
      rw [← made, setSize_outside (by omega), setFree_outside (by omega), setMagic_outside (by omega)]
    obtain ⟨sameMagic, _, _⟩ := @header_congr mem mem' b fun address _ upper => old address upper
    have rest : blockMagic mem' (b + 16 + need) = heapMagic ∧ blockFree mem' (b + 16 + need) = 1 ∧
        blockSize mem' (b + 16 + need) = size - need - 16 := by
      rw [← made]
      refine ⟨?_, ?_, ?_⟩
      · rw [blockMagic_setSize, blockMagic_setFree, blockMagic_setMagic (by decide)]
      · rw [blockFree_setSize, blockFree_setFree (by decide)]
      · rw [blockSize_setSize (by omega)]
    obtain ⟨nextMagic, nextFree, nextSize⟩ :=
      @header_congr mem' (setFree (setSize mem' b need) b 0) (b + 16 + need)
        fun address lower _ => by rw [setFree_outside (by omega), setSize_outside (by omega)]
    refine ⟨?_, ?_, ?_, nextMagic.trans rest.1, nextFree.trans rest.2.1, nextSize.trans rest.2.2, ?_⟩
    · rw [blockMagic_setFree, blockMagic_setSize, sameMagic, magic]
    · exact blockFree_setFree (by decide)
    · rw [blockSize_setFree, blockSize_setSize (by omega)]
    · change b + 16 + need + 16 + (size - need - 16) = b + (16 + size)
      omega
  · rw [if_neg worth, if_neg worth]
    refine ⟨?_, blockFree_setFree (by decide), ?_, ?_⟩
    · rw [blockMagic_setFree, magic]
    · rw [blockSize_setFree, sized]
    · change b + 16 + size = b + (16 + size)
      omega

/-- The search loop takes the first free block that is large enough, if there is one. -/
theorem kmallocFrom_spec (small : h.finish < 2 ^ 64) (headers : Headers h.mem h.finish b blocks)
    {budget : Nat} (enough : blocks.length < budget) :
    (∀ block ∈ blocks, ¬ (block.free = true ∧ need ≤ block.size)) ∧
      kmallocFrom h need budget b = .done (h, 0) ∨
    ∃ before size after, blocks = before ++ ⟨size, true⟩ :: after ∧ need ≤ size ∧
      (∀ block ∈ before, ¬ (block.free = true ∧ need ≤ block.size)) ∧
      kmallocFrom h need budget b =
        .done ({ h with mem := kmallocTake h.mem (b + Blocks.span 16 before) need },
          b + Blocks.span 16 before + 16) := by
  have header : blockHeader = 16 := rfl
  obtain ⟨budget, rfl⟩ : ∃ fewer, budget = fewer + 1 := ⟨budget - 1, by omega⟩
  induction blocks generalizing b budget with
  | nil =>
      have atEnd : b = h.finish := headers
      refine .inl ⟨by simp, ?_⟩
      rw [kmallocFrom, if_neg (by omega)]
  | cons block rest ih =>
      have covers := headers.span
      obtain ⟨magic, free, sized, tail⟩ := headers
      rw [span_cons] at covers
      have next : blockNext h.mem b = b + 16 + block.size := by
        rw [blockNext, sized, u64_of_lt (by omega), header]
      rw [kmallocFrom, if_pos (by omega), if_neg (not_not.mpr magic), free, sized, next]
      by_cases fits : block.free = true ∧ need ≤ block.size
      · refine .inr ⟨[], block.size, rest, ?_, fits.2, by simp, ?_⟩
        · rw [List.nil_append, ← fits.1]
        · rw [if_pos ⟨by simp [fits.1], fits.2⟩, u64_of_lt (by omega)]
          rfl
      · have skip : ¬ ((if block.free = true then 1 else 0) ≠ 0 ∧ block.size ≥ need) := by
          rintro ⟨isFree, large⟩
          exact fits ⟨by simpa using isFree, large⟩
        rw [if_neg skip]
        simp only
        by_cases last : b + 16 + block.size ≥ h.finish
        · have noMore : rest = [] := by
            cases rest with
            | nil => rfl
            | cons other others =>
                have length := tail.span
                rw [span_cons] at length
                omega
          subst noMore
          refine .inl ⟨by simpa using fits, ?_⟩
          rw [if_pos last]
        · rw [if_neg last]
          rw [List.length_cons] at enough
          obtain ⟨budget, rfl⟩ : ∃ fewer, budget = fewer + 1 := ⟨budget - 1, by omega⟩
          rcases ih tail budget (by omega) with ⟨none', result⟩ |
              ⟨before, size, after, rfl, large, first, result⟩
          · refine .inl ⟨fun other member => ?_, result⟩
            rcases List.mem_cons.mp member with rfl | later
            · exact fits
            · exact none' other later
          · refine .inr ⟨block :: before, size, after, rfl, large, fun other member => ?_, ?_⟩
            · rcases List.mem_cons.mp member with rfl | later
              · exact fits
              · exact first other later
            · have place : b + 16 + block.size + Blocks.span 16 before =
                  b + Blocks.span 16 (block :: before) := by
                rw [span_cons]
                omega
              rw [header, place] at result
              exact result

theorem HeapInv.finish_lt (inv : HeapInv h blocks) : h.finish < 2 ^ 64 := by
  rw [inv.finish]
  decide

theorem HeapInv.length_lt (inv : HeapInv h blocks) : blocks.length < 2 ^ 64 := by
  have covers := inv.headers.span
  have bound := @length_le_span blockHeader blocks (by decide)
  have small := inv.finish_lt
  omega

/-- What `kmalloc` can do: fail without a change, or take the front of the first free
block that is large enough. -/
theorem HeapInv.kmalloc_cases (inv : HeapInv h blocks) (n : Nat) :
    kmalloc h n = .done (h, 0) ∧ (n = 0 ∨ n > vmHeapSize ∨
      ∀ block ∈ blocks, ¬ (block.free = true ∧ (n + 15) / 16 * 16 ≤ block.size)) ∨
    ∃ before size after, blocks = before ++ ⟨size, true⟩ :: after ∧ 0 < n ∧ n ≤ vmHeapSize ∧
      (n + 15) / 16 * 16 ≤ size ∧
      (∀ block ∈ before, ¬ (block.free = true ∧ (n + 15) / 16 * 16 ≤ block.size)) ∧
      kmalloc h n = .done ({ h with
        mem := kmallocTake h.mem (h.start + Blocks.span 16 before) ((n + 15) / 16 * 16) },
        h.start + Blocks.span 16 before + 16) := by
  have base : h.start ≠ 0 := by
    rw [inv.start]
    decide
  have limit : vmHeapSize = 0x1000000 := rfl
  unfold kmalloc
  by_cases refused : n = 0 ∨ n > vmHeapSize
  · exact .inl ⟨if_pos (by omega), by omega⟩
  · have need : u64 (n + 15) &&& 0xFFFFFFFFFFFFFFF0 = (n + 15) / 16 * 16 := by
      have field := Bits.and_field (n + 15) 4 60
      rw [show (2 ^ 60 - 1) * 2 ^ 4 = 0xFFFFFFFFFFFFFFF0 from rfl] at field
      rw [u64_of_lt (by omega), field]
      omega
    rw [if_neg (by omega), need]
    rcases kmallocFrom_spec inv.finish_lt inv.headers inv.length_lt with ⟨none', result⟩ |
        ⟨before, size, after, shape, large, first, result⟩
    · exact .inl ⟨result, .inr (.inr none')⟩
    · exact .inr ⟨before, size, after, shape, by omega, by omega, large, first, result⟩

/-- Taking from a free block keeps the representation invariant. -/
theorem HeapInv.take (inv : HeapInv h (before ++ ⟨size, true⟩ :: after)) (positive : 0 < need)
    (aligned : need % 16 = 0) (fits : need ≤ size) :
    HeapInv { h with mem := kmallocTake h.mem (h.start + Blocks.span 16 before) need }
      (before ++ (carve 16 16 need size ++ after)) where
  start := inv.start
  finish := inv.finish
  headers := by
    have covers := inv.headers.span
    have small := inv.finish_lt
    have header : blockHeader = 16 := rfl
    have cut := inv.headers
    rw [headers_append] at cut
    obtain ⟨_, magic, _, sized, _⟩ := cut
    rw [span_append, span_cons, header] at covers
    rw [header] at magic sized
    simp only at covers sized
    refine Headers.replace [⟨size, true⟩] inv.headers ?_ ?_ ?_
    · rw [header, span_carve fits]
      rfl
    · exact @kmallocTake_headers h.mem need (h.start + Blocks.span 16 before) size fits (by omega)
        positive magic sized
    · intro address outside
      refine kmallocTake_outside fits sized (by omega) ?_
      simp only [header, span_cons, span_nil] at outside
      omega
  sized := by
    have sizeFacts := inv.sized ⟨size, true⟩ (by simp)
    simp only at sizeFacts
    intro block member
    rcases List.mem_append.mp member with early | later
    · exact inv.sized block (by simp [early])
    rcases List.mem_append.mp later with mine | late
    · unfold carve at mine
      split at mine
      · rcases List.mem_cons.mp mine with rfl | rest
        · exact ⟨positive, aligned⟩
        · rw [List.mem_singleton.mp rest]
          simp only
          omega
      · rw [List.mem_singleton.mp mine]
        exact sizeFacts
    · exact inv.sized block (by simp [late])
  merged := inv.merged.carve

/-- Taking from a free block changes no byte of a used one. -/
theorem HeapInv.take_frame (inv : HeapInv h (before ++ ⟨size, true⟩ :: after)) (fits : need ≤ size)
    {address : Nat} (inside : address ∈ covered 16 h.start (before ++ ⟨size, true⟩ :: after)) :
    kmallocTake h.mem (h.start + Blocks.span 16 before) need address = h.mem address := by
  have covers := inv.headers.span
  have small := inv.finish_lt
  have header : blockHeader = 16 := rfl
  have cut := inv.headers
  rw [headers_append] at cut
  obtain ⟨_, _, _, sized, _⟩ := cut
  rw [span_append, span_cons, header] at covers
  rw [header] at sized
  simp only at covers sized
  refine kmallocTake_outside fits sized (by omega) ?_
  by_contra within
  have isUsed := (@mem_covered_iff 16 h.start address ⟨size, true⟩ before after (by omega)
    (by simp only; omega)).mp inside
  cases isUsed

end Malloc

section Free

variable {h : Heap} {mem : Memory} {finish b cur prev budget size : Nat} {block last : Block}
  {before after : List Block}

theorem Headers.next (headers : Headers mem finish b (block :: after)) (small : finish < 2 ^ 64) :
    blockNext mem b = b + 16 + block.size := by
  have covers := headers.span
  have header : blockHeader = 16 := rfl
  rw [span_cons, header] at covers
  rw [blockNext, headers.2.2.1, header, u64_of_lt (by omega)]

/-- The forward loop stops in front of a used block and at the end of the arena. -/
theorem kfreeForward_stop (headers : Headers mem finish b (block :: after)) (small : finish < 2 ^ 64)
    (stops : ∀ next ∈ after.head?, next.free = false) :
    kfreeForward finish b (budget + 1) mem = .done mem := by
  have header : blockHeader = 16 := rfl
  rw [kfreeForward, headers.next small]
  cases after with
  | nil =>
      have ends : b + 16 + block.size = finish := headers.2.2.2
      rw [if_pos (by omega)]
  | cons next rest =>
      obtain ⟨magic, free, _, tail⟩ := headers.2.2.2
      have covers := tail.span
      rw [header] at magic free covers
      rw [stops next rfl] at free
      rw [if_neg (by omega), if_neg (not_not.mpr magic), if_pos (by simpa using free)]

/-- The forward loop merges a free block into the one before it. -/
theorem kfreeForward_spec (headers : Headers mem finish b (⟨size, true⟩ :: after))
    (merged : Merged after) (small : finish < 2 ^ 64) (enough : 2 ≤ budget) :
    ∃ mem', kfreeForward finish b budget mem = .done mem' ∧
      Headers mem' finish b (push 16 ⟨size, true⟩ after) ∧
      ∀ address, address < b ∨ b + 16 ≤ address → mem' address = mem address := by
  have header : blockHeader = 16 := rfl
  obtain ⟨budget, rfl⟩ : ∃ fewer, budget = fewer + 2 := ⟨budget - 2, by omega⟩
  by_cases stops : ∀ next ∈ after.head?, next.free = false
  · refine ⟨mem, kfreeForward_stop headers small stops, ?_, fun _ _ => rfl⟩
    cases after with
    | nil => exact headers
    | cons next rest =>
        rw [push, if_neg]
        · exact headers
        · rintro ⟨_, isFree⟩
          rw [stops next rfl] at isFree
          cases isFree
  · cases after with
    | nil => simp at stops
    | cons next rest =>
        have isFree : next.free = true := by simpa using stops
        have next' := headers.next small
        obtain ⟨magic, free, sized, nextMagic, nextFree, nextSized, tail⟩ := headers
        have covers := tail.span
        rw [header] at nextMagic nextFree nextSized covers tail
        simp only at sized nextMagic nextFree nextSized covers tail next'
        rw [isFree] at nextFree
        have total : size + (16 + next.size) < 2 ^ 64 := by omega
        have merged' : Headers (setSize mem b (size + (16 + next.size))) finish b
            (⟨size + 16 + next.size, true⟩ :: rest) := by
          refine ⟨by rw [blockMagic_setSize, magic], by rw [blockFree_setSize, free], ?_, ?_⟩
          · rw [blockSize_setSize total, ← Nat.add_assoc]
          · have place : b + blockHeader + (size + 16 + next.size) = b + 16 + size + 16 + next.size := by
              rw [header]
              omega
            simp only [place]
            exact tail.congr fun address lower _ => setSize_outside (by omega)
        refine ⟨setSize mem b (size + (16 + next.size)), ?_, ?_, fun address outside =>
          setSize_outside outside⟩
        · rw [kfreeForward, next']
          rw [if_neg (by omega), if_neg (not_not.mpr nextMagic), if_neg (by rw [nextFree]; decide),
            sized, nextSized, header]
          exact kfreeForward_stop merged' small fun other member => by
            have apart := (Merged.cons.mp merged).1 other member
            simpa [isFree] using apart
        · rw [push, if_pos ⟨rfl, isFree⟩]
          exact merged'

theorem kfreePrev_stop (here : b ≤ cur) (enough : 0 < budget) :
    kfreePrev mem b budget prev cur = .done prev := by
  obtain ⟨budget, rfl⟩ : ∃ fewer, budget = fewer + 1 := ⟨budget - 1, by omega⟩
  rw [kfreePrev, if_neg (by omega)]

/-- The walk from the start of the heap ends at the block before `b`. -/
theorem kfreePrev_spec (headers : Headers mem b cur (before ++ [last])) (small : b < 2 ^ 64)
    (enough : before.length + 1 < budget) :
    kfreePrev mem b budget prev cur = .done (cur + Blocks.span 16 before) := by
  have header : blockHeader = 16 := rfl
  obtain ⟨budget, rfl⟩ : ∃ fewer, budget = fewer + 2 := ⟨budget - 2, by omega⟩
  induction before generalizing cur prev budget with
  | nil =>
      have covers := headers.span
      have next := headers.next small
      rw [List.nil_append, span_cons, span_nil, header] at covers
      rw [kfreePrev, if_pos (by omega), next, kfreePrev, if_neg (by omega), span_nil, Nat.add_zero]
  | cons block before ih =>
      have covers := headers.span
      have next := headers.next small
      have tail := headers.2.2.2
      rw [header] at tail
      rw [List.length_cons] at enough
      obtain ⟨budget, rfl⟩ : ∃ fewer, budget = fewer + 1 := ⟨budget - 1, by omega⟩
      rw [List.cons_append, span_cons, header] at covers
      rw [kfreePrev, if_pos (by omega), next, ih tail budget (by omega), span_cons]
      exact congrArg Outcome.done (by omega)

/-- **Freeing.** `kfree` of a used block merges the row with that block free, and
changes no byte of another used block. -/
theorem HeapInv.kfree_spec (inv : HeapInv h (before ++ ⟨size, false⟩ :: after)) :
    ∃ mem', kfree h (h.start + Blocks.span 16 before + 16) = .done { h with mem := mem' } ∧
      HeapInv { h with mem := mem' } (coalesce 16 (before ++ ⟨size, true⟩ :: after)) ∧
      ∀ address ∈ covered 16 h.start (before ++ ⟨size, true⟩ :: after),
        mem' address = h.mem address := by
  have header : blockHeader = 16 := rfl
  have small := inv.finish_lt
  have covers := inv.headers.span
  have lengthLt := inv.length_lt
  have base : h.start = 0xFFFF800000000000 := inv.start
  have cut := inv.headers
  rw [headers_append, header] at cut
  obtain ⟨front, magic, free, sized, tail⟩ := cut
  rw [span_append, span_cons, header] at covers
  rw [header] at tail
  simp only at free sized covers tail
  generalize place : h.start + Blocks.span 16 before = b at *
  -- marking the block free
  have marked : Headers (setFree h.mem b 1) h.finish b (⟨size, true⟩ :: after) := by
    refine ⟨by rw [blockMagic_setFree, magic], blockFree_setFree (by decide),
      by rw [blockSize_setFree, sized], ?_⟩
    rw [header]
    exact tail.congr fun address lower _ => setFree_outside (by omega)
  have row := (Merged.append.mp inv.merged).2.1
  obtain ⟨mem₁, forward, chain₁, kept₁⟩ :=
    kfreeForward_spec marked (Merged.cons.mp row).2 small (show 2 ≤ 2 ^ 64 by decide)
  have kept : ∀ address, address < b ∨ b + 16 ≤ address → mem₁ address = h.mem address :=
    fun address outside => (kept₁ address outside).trans (setFree_outside outside)
  have front₁ : Headers mem₁ b h.start before :=
    front.congr fun address _ below => kept address (.inl below)
  have pointer : u64 (b + 16 + (2 ^ 64 - blockHeader)) = b := by
    rw [u64, header]
    omega
  have sizes : ∀ block ∈ coalesce 16 (before ++ ⟨size, true⟩ :: after),
      0 < block.size ∧ block.size % 16 = 0 := by
    refine @forall_coalesce 16 _ (fun size => 0 < size ∧ size % 16 = 0) (by omega) ?_
    intro block member
    rcases List.mem_append.mp member with early | later
    · exact inv.sized block (by simp [early])
    · rcases List.mem_cons.mp later with rfl | late
      · exact inv.sized ⟨size, false⟩ (by simp)
      · exact inv.sized block (by simp [late])
  unfold kfree
  rw [if_neg (by omega)]
  simp only [pointer]
  rw [if_neg (by omega), if_neg (not_not.mpr magic), if_neg (by simp [free]), forward,
    Outcome.bind_done]
  obtain ⟨total, rest, rowShape⟩ := push_free 16 size after
  rw [rowShape] at chain₁
  have apart : ∀ {address}, address ∈ covered 16 h.start (before ++ ⟨size, true⟩ :: after) →
      address < b ∨ b + 16 ≤ address := by
    intro address inside
    by_contra within
    have isUsed := (@mem_covered_iff 16 h.start address ⟨size, true⟩ before after (by omega)
      (by simp only; omega)).mp inside
    cases isUsed
  rcases before.eq_nil_or_concat' with rfl | ⟨before, last, rfl⟩
  · -- the first block of the heap: the walk finds no block before it
    have first : h.start = b := by simpa using place
    rw [kfreePrev_stop (by omega) (by decide), Outcome.bind_done, if_neg (by simp)]
    refine ⟨mem₁, rfl, ⟨inv.start, inv.finish, ?_, sizes, merged_coalesce _⟩,
      fun address inside => kept address (apart inside)⟩
    rw [List.nil_append, row.coalesce_first, rowShape, first]
    exact chain₁
  · have walked := @kfreePrev_spec mem₁ b h.start 0 (2 ^ 64) last before front₁ (by omega)
      (by simp only [List.length_append, List.length_cons, List.length_nil] at lengthLt; omega)
    have whole : Headers mem₁ h.finish h.start (before ++ ([last, ⟨total, true⟩] ++ rest)) := by
      have joined := (@headers_append mem₁ h.finish h.start (before ++ [last])
        (⟨total, true⟩ :: rest)).mpr (by rw [header, place]; exact ⟨front₁, chain₁⟩)
      simpa using joined
    have lastHeader := front₁
    rw [headers_append, header] at lastHeader
    obtain ⟨_, lastMagic, lastFree, lastSize, lastEnd⟩ := lastHeader
    rw [span_append, span_cons, span_nil] at place
    have notNull : h.start + Blocks.span 16 before ≠ 0 := by omega
    rw [walked, Outcome.bind_done, lastFree, lastSize, chain₁.2.2.1, header]
    have result := @Merged.coalesce_inner 16 before after size last inv.merged
    rw [rowShape] at result
    by_cases merges : last.free = true
    · -- the block before is free and takes this one in
      have bound := chain₁.span
      rw [span_cons, header] at bound
      simp only at bound
      have total' : last.size + (16 + total) < 2 ^ 64 := by omega
      rw [if_pos ⟨notNull, by simp [merges]⟩]
      refine ⟨_, rfl, ⟨inv.start, inv.finish, ?_, sizes, merged_coalesce _⟩, ?_⟩
      · rw [result, push, if_pos ⟨merges, rfl⟩]
        change Headers _ h.finish h.start (before ++ ([⟨last.size + 16 + total, true⟩] ++ rest))
        refine Headers.replace [last, ⟨total, true⟩] whole ?_ ?_ ?_
        · simp only [span_cons, span_nil, header]
          omega
        · refine ⟨?_, ?_, ?_, ?_⟩
          · rw [header, blockMagic_setSize, lastMagic]
          · rw [header, blockFree_setSize, lastFree, merges]
          · rw [header]
            exact (blockSize_setSize total').trans (Nat.add_assoc _ _ _).symm
          · simp only [Headers, span_cons, span_nil, header]
            omega
        · intro address outside
          refine setSize_outside ?_
          simp only [span_cons, span_nil, header] at outside
          omega
      · intro address inside
        have beside : address < h.start + Blocks.span 16 before ∨
            h.start + Blocks.span 16 before + 16 ≤ address := by
          by_contra within
          have split : (before ++ [last]) ++ ⟨size, true⟩ :: after =
              before ++ last :: ⟨size, true⟩ :: after := by simp
          rw [split] at inside
          have isUsed := (@mem_covered_iff 16 h.start address last before _ (by omega)
            (by omega)).mp inside
          rw [merges] at isUsed
          cases isUsed
        rw [setSize_outside beside]
        exact kept address (apart inside)
    · rw [if_neg (by simp [merges])]
      refine ⟨mem₁, rfl, ⟨inv.start, inv.finish, ?_, sizes, merged_coalesce _⟩,
        fun address inside => kept address (apart inside)⟩
      rw [result, push, if_neg fun both => merges both.1]
      exact whole

end Free

end GodOs
