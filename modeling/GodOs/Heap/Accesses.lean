import GodOs.Heap.Run
import GodOs.Lib.Access

/-!
# The heap by its loads and stores

The functions of `heap.c` once more, as programs of the loads and stores that they make
in their order, so that each of them can fault. On flat memory they are the functions of
`GodOs.Heap.Alloc`, and from a well-formed heap no access leaves the arena.
-/

namespace GodOs

open Lib Lib.Blocks

section Programs

variable {α : Type}

/-- The fields of the block header at `b`, read and written. -/
def readMagic (b : Nat) (next : Nat → Access α) : Access α := .load b 4 next
def readFree (b : Nat) (next : Nat → Access α) : Access α := .load (b + 4) 4 next
def readSize (b : Nat) (next : Nat → Access α) : Access α := .load (b + 8) 8 next

def writeMagic (b value : Nat) (next : Access α) : Access α := .store b 4 value next
def writeFree (b value : Nat) (next : Access α) : Access α := .store (b + 4) 4 value next
def writeSize (b value : Nat) (next : Access α) : Access α := .store (b + 8) 8 value next

/-- `heap_init`, with the two static pointers that it sets. -/
def heapInitAccesses : Access (Nat × Nat) :=
  writeMagic vmHeapBase heapMagic <|
  writeFree vmHeapBase 1 <|
  writeSize vmHeapBase (vmHeapSize - blockHeader) <|
  .ret (.done (vmHeapBase, vmHeapBase + vmHeapSize))

/-- Split the free block at `b` if that is worth it, and take its front. -/
def kmallocTakeAccesses (b need : Nat) (next : Access α) : Access α :=
  readSize b fun size =>
  let remain := size - need
  if remain ≥ blockHeader + 16 then
    let nb := u64 (b + blockHeader + need)
    writeMagic nb heapMagic <|
    writeFree nb 1 <|
    writeSize nb (remain - blockHeader) <|
    writeSize b need <|
    writeFree b 0 next
  else writeFree b 0 next

/-- The search loop of `kmalloc`. The size is read only of a free block. -/
def kmallocFromAccesses (finish need : Nat) : Nat → Nat → Access Nat
  | 0, _ => .ret .loop
  | budget + 1, b =>
      let follow := readSize b fun size =>
        let next := u64 (b + blockHeader + size)
        if next ≥ finish then .ret (.done 0) else kmallocFromAccesses finish need budget next
      if b < finish then
        readMagic b fun magic =>
        if magic ≠ heapMagic then .ret (.halted "M8/HEAP: corrupt magic in kmalloc")
        else
          readFree b fun free =>
          if free ≠ 0 then
            readSize b fun size =>
            if size ≥ need then
              kmallocTakeAccesses b need (.ret (.done (u64 (b + blockHeader))))
            else follow
          else follow
      else .ret (.done 0)

def kmallocAccesses (start finish size : Nat) : Access Nat :=
  if size = 0 ∨ size > vmHeapSize ∨ start = 0 then .ret (.done 0)
  else
    let need := u64 (size + 15) &&& 0xFFFFFFFFFFFFFFF0
    kmallocFromAccesses finish need (2 ^ 64) start

/-- The loop that merges the blocks behind `b` into it. -/
def kfreeForwardAccesses (finish b : Nat) : Nat → Access Unit
  | 0 => .ret .loop
  | budget + 1 =>
      readSize b fun size =>
      let next := u64 (b + blockHeader + size)
      if next ≥ finish then .ret (.done ())
      else
        readMagic next fun magic =>
        if magic ≠ heapMagic then .ret (.halted "M8/HEAP: bad magic in forward merge")
        else
          readFree next fun free =>
          if free = 0 then .ret (.done ())
          else
            readSize b fun size =>
            readSize next fun nextSize =>
            writeSize b (size + (blockHeader + nextSize)) (kfreeForwardAccesses finish b budget)

/-- The loop that walks to the block before `b`. -/
def kfreePrevAccesses (b : Nat) : Nat → Nat → Nat → Access Nat
  | 0, _, _ => .ret .loop
  | budget + 1, prev, cur =>
      if cur < b then
        readSize cur fun size => kfreePrevAccesses b budget cur (u64 (cur + blockHeader + size))
      else .ret (.done prev)

def kfreeAccesses (start finish ptr : Nat) : Access Unit :=
  if ptr = 0 then .ret (.done ())
  else
    let b := u64 (ptr + (2 ^ 64 - blockHeader))
    if b < start ∨ b ≥ finish then .ret (.halted "M8/HEAP: kfree out of range")
    else
      readMagic b fun magic =>
      if magic ≠ heapMagic then .ret (.halted "M8/HEAP: kfree bad magic")
      else
        readFree b fun free =>
        if free ≠ 0 then .ret (.halted "M8/HEAP: double free")
        else
          writeFree b 1 <|
          (kfreeForwardAccesses finish b (2 ^ 64)).bind fun _ =>
          (kfreePrevAccesses b (2 ^ 64) 0 start).bind fun prev =>
          if prev ≠ 0 then
            readFree prev fun free =>
            if free ≠ 0 then
              readSize prev fun size =>
              readSize b fun last =>
              writeSize prev (size + (blockHeader + last)) (.ret (.done ()))
            else .ret (.done ())
          else .ret (.done ())

/-- The loop of `heap_free_bytes` from the block at `b`. -/
def heapFreeBytesFromAccesses (finish : Nat) : Nat → Nat → Nat → Access Nat
  | 0, _, _ => .ret .loop
  | budget + 1, b, total =>
      let follow := fun total =>
        readSize b fun size =>
        let next := u64 (b + blockHeader + size)
        if next ≥ finish then .ret (.done total) else heapFreeBytesFromAccesses finish budget next total
      if b < finish then
        readMagic b fun magic =>
        if magic ≠ heapMagic then .ret (.halted "M8/HEAP: corrupt magic in free_bytes")
        else
          readFree b fun free =>
          if free ≠ 0 then readSize b fun size => follow (u64 (total + size)) else follow total
      else .ret (.done total)

def heapFreeBytesAccesses (start finish : Nat) : Access Nat :=
  heapFreeBytesFromAccesses finish (2 ^ 64) start 0

end Programs

section Flat

variable {α : Type} {mem : Memory} {b value : Nat} {next : Nat → Access α} {rest : Access α}

@[simp] theorem flat_readMagic : (readMagic b next).flat mem = (next (blockMagic mem b)).flat mem := rfl
@[simp] theorem flat_readFree : (readFree b next).flat mem = (next (blockFree mem b)).flat mem := rfl
@[simp] theorem flat_readSize : (readSize b next).flat mem = (next (blockSize mem b)).flat mem := rfl

@[simp] theorem flat_writeMagic :
    (writeMagic b value rest).flat mem = rest.flat (setMagic mem b value) := rfl
@[simp] theorem flat_writeFree :
    (writeFree b value rest).flat mem = rest.flat (setFree mem b value) := rfl
@[simp] theorem flat_writeSize :
    (writeSize b value rest).flat mem = rest.flat (setSize mem b value) := rfl

@[simp] theorem flat_done (result : α) :
    (Access.ret (.done result)).flat mem = .done (mem, result) := rfl

/-- `heap_init` by its accesses is `heap_init`. -/
theorem heapInitAccesses_flat (mem : Memory) : heapInitAccesses.flat mem =
    .done ((heapInit mem).mem, (heapInit mem).start, (heapInit mem).finish) := rfl

theorem kmallocTakeAccesses_flat (need : Nat) :
    (kmallocTakeAccesses b need rest).flat mem = rest.flat (kmallocTake mem b need) := by
  unfold kmallocTakeAccesses kmallocTake
  rw [flat_readSize]
  simp only
  split <;> rfl

/-- The flat run of a program with the heap it leaves. -/
def Heap.flat (h : Heap) (program : Access α) : Outcome (Heap × α) :=
  (program.flat h.mem).bind fun run => .done ({ h with mem := run.1 }, run.2)

theorem kmallocFromAccesses_flat (h : Heap) (need budget b : Nat) :
    h.flat (kmallocFromAccesses h.finish need budget b) = kmallocFrom h need budget b := by
  induction budget generalizing b with
  | zero => rfl
  | succ budget ih =>
      unfold kmallocFromAccesses kmallocFrom
      unfold Heap.flat at ih ⊢
      by_cases inside : b < h.finish
      swap
      · rw [if_neg inside, if_neg inside]
        rfl
      rw [if_pos inside, if_pos inside, flat_readMagic]
      by_cases magic : blockMagic h.mem b ≠ heapMagic
      · rw [if_pos magic, if_pos magic]
        rfl
      rw [if_neg magic, if_neg magic, flat_readFree]
      by_cases fits : blockFree h.mem b ≠ 0 ∧ blockSize h.mem b ≥ need
      · rw [if_pos fits, if_pos fits.1, flat_readSize, if_pos fits.2, kmallocTakeAccesses_flat]
        rfl
      · rw [if_neg fits]
        -- a used block and a free one that is too small are passed alike
        have passed : (if blockFree h.mem b ≠ 0 then
            readSize b fun size =>
              if size ≥ need then kmallocTakeAccesses b need (.ret (.done (u64 (b + blockHeader))))
              else readSize b fun size =>
                if u64 (b + blockHeader + size) ≥ h.finish then .ret (.done 0)
                else kmallocFromAccesses h.finish need budget (u64 (b + blockHeader + size))
            else readSize b fun size =>
              if u64 (b + blockHeader + size) ≥ h.finish then .ret (.done 0)
              else kmallocFromAccesses h.finish need budget (u64 (b + blockHeader + size))).flat h.mem =
            (if blockNext h.mem b ≥ h.finish then .ret (.done 0)
              else kmallocFromAccesses h.finish need budget (blockNext h.mem b)).flat h.mem := by
          by_cases free : blockFree h.mem b ≠ 0
          · rw [if_pos free, flat_readSize, if_neg fun large => fits ⟨free, large⟩]
            rfl
          · rw [if_neg free]
            rfl
        simp only at passed ⊢
        rw [passed]
        by_cases ends : blockNext h.mem b ≥ h.finish
        · rw [if_pos ends, if_pos ends]
          rfl
        · rw [if_neg ends, if_neg ends]
          exact ih _

/-- `kmalloc` by its accesses is `kmalloc`. -/
theorem kmallocAccesses_flat (h : Heap) (size : Nat) :
    h.flat (kmallocAccesses h.start h.finish size) = kmalloc h size := by
  unfold kmallocAccesses kmalloc
  generalize 2 ^ 64 = rounds
  split
  · rfl
  · exact kmallocFromAccesses_flat h _ _ _

theorem kfreeForwardAccesses_flat (finish b budget : Nat) (mem : Memory) :
    (kfreeForwardAccesses finish b budget).flat mem =
      (kfreeForward finish b budget mem).bind fun mem' => .done (mem', ()) := by
  induction budget generalizing mem with
  | zero => rfl
  | succ budget ih =>
      unfold kfreeForwardAccesses kfreeForward
      rw [flat_readSize]
      change (if blockNext mem b ≥ finish then _ else _ : Access Unit).flat mem = _
      simp only
      split
      · rfl
      rw [flat_readMagic]
      change (if blockMagic mem (blockNext mem b) ≠ heapMagic then _ else _ : Access Unit).flat mem = _
      split
      · rfl
      rw [flat_readFree]
      change (if blockFree mem (blockNext mem b) = 0 then _ else _ : Access Unit).flat mem = _
      split
      · rfl
      exact ih _

theorem kfreePrevAccesses_flat (b budget prev cur : Nat) (mem : Memory) :
    (kfreePrevAccesses b budget prev cur).flat mem =
      (kfreePrev mem b budget prev cur).bind fun result => .done (mem, result) := by
  induction budget generalizing prev cur with
  | zero => rfl
  | succ budget ih =>
      unfold kfreePrevAccesses kfreePrev
      split
      · exact ih _ _
      · rfl

/-- `kfree` by its accesses is `kfree`. -/
theorem kfreeAccesses_flat (h : Heap) (ptr : Nat) :
    h.flat (kfreeAccesses h.start h.finish ptr) = (kfree h ptr).bind fun h' => .done (h', ()) := by
  unfold kfreeAccesses kfree Heap.flat
  generalize 2 ^ 64 = rounds
  split
  · rfl
  simp only
  generalize u64 (ptr + (rounds - blockHeader)) = b
  split
  · rfl
  rw [flat_readMagic]
  split
  · rfl
  rw [flat_readFree]
  split
  · rfl
  rw [flat_writeFree, Access.flat_bind, kfreeForwardAccesses_flat]
  cases kfreeForward h.finish b rounds (setFree h.mem b 1) with
  | halted | loop => rfl
  | done mem =>
      rw [Outcome.bind_done, Outcome.bind_done, Outcome.bind_done, Access.flat_bind,
        kfreePrevAccesses_flat]
      cases kfreePrev mem b rounds 0 h.start with
      | halted | loop => rfl
      | done prev =>
          rw [Outcome.bind_done, Outcome.bind_done, Outcome.bind_done]
          by_cases first : prev = 0
          · rw [if_neg (not_not.mpr first), if_neg fun both => both.1 first]
            rfl
          · rw [if_pos first, flat_readFree]
            by_cases free : blockFree mem prev = 0
            · rw [if_neg (not_not.mpr free), if_neg fun both => both.2 free]
              rfl
            · rw [if_pos free, if_pos ⟨first, free⟩]
              rfl

theorem heapFreeBytesFromAccesses_flat (h : Heap) (budget b total : Nat) :
    (heapFreeBytesFromAccesses h.finish budget b total).flat h.mem =
      (heapFreeBytesFrom h budget b total).bind fun result => .done (h.mem, result) := by
  induction budget generalizing b total with
  | zero => rfl
  | succ budget ih =>
      unfold heapFreeBytesFromAccesses heapFreeBytesFrom
      split
      swap
      · rfl
      rw [flat_readMagic]
      split
      · rfl
      rw [flat_readFree]
      have passed : ∀ total, (readSize b fun size =>
            if u64 (b + blockHeader + size) ≥ h.finish then .ret (.done total)
            else heapFreeBytesFromAccesses h.finish budget (u64 (b + blockHeader + size)) total).flat h.mem =
          (if blockNext h.mem b ≥ h.finish then Outcome.done total
            else heapFreeBytesFrom h budget (blockNext h.mem b) total).bind
              fun result => .done (h.mem, result) := by
        intro total
        rw [flat_readSize]
        change (if blockNext h.mem b ≥ h.finish then _ else _ : Access Nat).flat h.mem = _
        split
        · rfl
        · exact ih _ _
      by_cases free : blockFree h.mem b ≠ 0
      · rw [if_pos free, if_pos free, flat_readSize]
        exact passed _
      · rw [if_neg free, if_neg free]
        exact passed _

/-- `heap_free_bytes` by its accesses is `heap_free_bytes`. -/
theorem heapFreeBytesAccesses_flat (h : Heap) :
    h.flat (heapFreeBytesAccesses h.start h.finish) =
      (heapFreeBytes h).bind fun total => .done (h, total) := by
  unfold Heap.flat heapFreeBytesAccesses heapFreeBytes
  generalize 2 ^ 64 = rounds
  rw [heapFreeBytesFromAccesses_flat]
  cases heapFreeBytesFrom h rounds h.start 0 <;> rfl

end Flat

/-- The bytes of an access lie between two addresses. -/
def InArena (start finish address width : Nat) : Prop := start ≤ address ∧ address + width ≤ finish

instance (start finish address width : Nat) : Decidable (InArena start finish address width) :=
  inferInstanceAs (Decidable (_ ∧ _))

section Arena

variable {α : Type} {h : Heap} {mem : Memory} {start finish b size value : Nat}
  {before after blocks : List Block} {block last : Block} {next : Nat → Access α} {rest : Access α}

/-- The fields of a header that lies in the arena. -/
theorem readMagic_stays (lower : start ≤ b) (upper : b + 16 ≤ finish)
    (stays : (next (blockMagic mem b)).Stays (InArena start finish) mem) :
    (readMagic b next).Stays (InArena start finish) mem :=
  ⟨⟨by omega, by omega⟩, stays⟩

theorem readFree_stays (lower : start ≤ b) (upper : b + 16 ≤ finish)
    (stays : (next (blockFree mem b)).Stays (InArena start finish) mem) :
    (readFree b next).Stays (InArena start finish) mem :=
  ⟨⟨by omega, by omega⟩, stays⟩

theorem readSize_stays (lower : start ≤ b) (upper : b + 16 ≤ finish)
    (stays : (next (blockSize mem b)).Stays (InArena start finish) mem) :
    (readSize b next).Stays (InArena start finish) mem :=
  ⟨⟨by omega, by omega⟩, stays⟩

theorem writeMagic_stays (lower : start ≤ b) (upper : b + 16 ≤ finish)
    (stays : rest.Stays (InArena start finish) (setMagic mem b value)) :
    (writeMagic b value rest).Stays (InArena start finish) mem :=
  ⟨⟨by omega, by omega⟩, stays⟩

theorem writeFree_stays (lower : start ≤ b) (upper : b + 16 ≤ finish)
    (stays : rest.Stays (InArena start finish) (setFree mem b value)) :
    (writeFree b value rest).Stays (InArena start finish) mem :=
  ⟨⟨by omega, by omega⟩, stays⟩

theorem writeSize_stays (lower : start ≤ b) (upper : b + 16 ≤ finish)
    (stays : rest.Stays (InArena start finish) (setSize mem b value)) :
    (writeSize b value rest).Stays (InArena start finish) mem :=
  ⟨⟨by omega, by omega⟩, stays⟩

theorem heapInitAccesses_stays (mem : Memory) :
    heapInitAccesses.Stays (InArena vmHeapBase (vmHeapBase + vmHeapSize)) mem := by
  have upper : vmHeapBase + 16 ≤ vmHeapBase + vmHeapSize := by decide
  exact writeMagic_stays le_rfl upper <| writeFree_stays le_rfl upper <|
    writeSize_stays le_rfl upper trivial

/-- Carving a free block touches its header and the one behind its front. -/
theorem kmallocTakeAccesses_stays {need : Nat} {outcome : Outcome α} (lower : start ≤ b)
    (upper : b + 16 + blockSize mem b ≤ finish) (small : finish < 2 ^ 64)
    (fits : need ≤ blockSize mem b) :
    (kmallocTakeAccesses b need (.ret outcome)).Stays (InArena start finish) mem := by
  have header : blockHeader = 16 := rfl
  refine readSize_stays lower (by omega) ?_
  simp only
  split
  next worth =>
      have place : u64 (b + blockHeader + need) = b + 16 + need := by
        rw [header, u64_of_lt (by omega)]
      rw [place]
      exact writeMagic_stays (by omega) (by omega) <| writeFree_stays (by omega) (by omega) <|
        writeSize_stays (by omega) (by omega) <| writeSize_stays lower (by omega) <|
        writeFree_stays lower (by omega) trivial
  next => exact writeFree_stays lower (by omega) trivial

/-- The search visits the headers of the row. -/
theorem kmallocFromAccesses_stays {need budget : Nat} (headers : Headers mem finish b blocks)
    (small : finish < 2 ^ 64) (lower : start ≤ b) :
    (kmallocFromAccesses finish need budget b).Stays (InArena start finish) mem := by
  have header : blockHeader = 16 := rfl
  induction blocks generalizing b budget with
  | nil =>
      have atEnd : b = finish := headers
      cases budget with
      | zero => trivial
      | succ budget =>
          unfold kmallocFromAccesses
          rw [if_neg (by omega)]
          trivial
  | cons block rest ih =>
      have covers := headers.span
      have next := headers.next small
      rw [blockNext] at next
      obtain ⟨magic, free, sized, tail⟩ := headers
      rw [span_cons, header] at covers
      rw [header] at tail
      cases budget with
      | zero => trivial
      | succ budget =>
          unfold kmallocFromAccesses
          -- going on to the block behind
          have follow : (readSize b fun size =>
              if u64 (b + blockHeader + size) ≥ finish then .ret (.done 0)
              else kmallocFromAccesses finish need budget (u64 (b + blockHeader + size))).Stays
                (InArena start finish) mem := by
            refine readSize_stays lower (by omega) ?_
            rw [next]
            split
            · trivial
            · exact ih tail (by omega)
          rw [if_pos (by omega)]
          refine readMagic_stays lower (by omega) ?_
          rw [if_neg (not_not.mpr magic)]
          refine readFree_stays lower (by omega) ?_
          split
          · refine readSize_stays lower (by omega) ?_
            split
            next large =>
                exact kmallocTakeAccesses_stays lower (by omega) small large
            next => exact follow
          · exact follow

/-- The forward loop visits headers of the row behind its block. -/
theorem kfreeForwardAccesses_stays {budget : Nat} (headers : Headers mem finish b (block :: after))
    (small : finish < 2 ^ 64) (lower : start ≤ b) :
    (kfreeForwardAccesses finish b budget).Stays (InArena start finish) mem := by
  have header : blockHeader = 16 := rfl
  induction after generalizing mem block budget with
  | nil =>
      have ends := headers.span
      have next := headers.next small
      rw [blockNext] at next
      rw [span_cons, span_nil, header] at ends
      cases budget with
      | zero => trivial
      | succ budget =>
          refine readSize_stays lower (by omega) ?_
          simp only
          rw [next, if_pos (by omega)]
          trivial
  | cons other rest ih =>
      have covers := headers.span
      have next := headers.next small
      rw [blockNext] at next
      obtain ⟨magic, free, sized, otherMagic, otherFree, otherSized, tail⟩ := headers
      rw [span_cons, span_cons, header] at covers
      rw [header] at otherMagic otherFree otherSized tail
      cases budget with
      | zero => trivial
      | succ budget =>
          refine readSize_stays lower (by omega) ?_
          simp only
          rw [next]
          split
          · trivial
          refine readMagic_stays (by omega) (by omega) ?_
          rw [if_neg (not_not.mpr otherMagic)]
          refine readFree_stays (by omega) (by omega) ?_
          split
          · trivial
          refine readSize_stays lower (by omega) <| readSize_stays (by omega) (by omega) <|
            writeSize_stays lower (by omega) ?_
          rw [sized, otherSized, header]
          refine @ih _ ⟨block.size + (16 + other.size), block.free⟩ budget ⟨?_, ?_, ?_, ?_⟩
          · rw [blockMagic_setSize, magic]
          · rw [blockFree_setSize, free]
          · exact blockSize_setSize (by omega)
          · have place : b + blockHeader + (block.size + (16 + other.size)) =
                b + 16 + block.size + 16 + other.size := by
              rw [header]
              omega
            simp only [place]
            exact tail.congr fun address below _ => setSize_outside (by omega)

/-- The walk to the block before `b` visits the headers in front of it. -/
theorem kfreePrevAccesses_stays {budget prev cur : Nat} (headers : Headers mem b cur before)
    (small : b < 2 ^ 64) (lower : start ≤ cur) (upper : b ≤ finish) :
    (kfreePrevAccesses b budget prev cur).Stays (InArena start finish) mem := by
  have header : blockHeader = 16 := rfl
  induction before generalizing cur prev budget with
  | nil =>
      have here : cur = b := headers
      cases budget with
      | zero => trivial
      | succ budget =>
          unfold kfreePrevAccesses
          rw [if_neg (by omega)]
          trivial
  | cons block rest ih =>
      have covers := headers.span
      have next := headers.next small
      rw [blockNext] at next
      have tail := headers.2.2.2
      rw [span_cons, header] at covers
      rw [header] at tail
      cases budget with
      | zero => trivial
      | succ budget =>
          unfold kfreePrevAccesses
          rw [if_pos (by omega)]
          refine readSize_stays lower (by omega) ?_
          rw [next]
          exact ih tail (by omega)

theorem heapFreeBytesFromAccesses_stays {budget total : Nat} (headers : Headers mem finish b blocks)
    (small : finish < 2 ^ 64) (lower : start ≤ b) :
    (heapFreeBytesFromAccesses finish budget b total).Stays (InArena start finish) mem := by
  have header : blockHeader = 16 := rfl
  induction blocks generalizing b budget total with
  | nil =>
      have atEnd : b = finish := headers
      cases budget with
      | zero => trivial
      | succ budget =>
          unfold heapFreeBytesFromAccesses
          rw [if_neg (by omega)]
          trivial
  | cons block rest ih =>
      have covers := headers.span
      have next := headers.next small
      rw [blockNext] at next
      obtain ⟨magic, free, sized, tail⟩ := headers
      rw [span_cons, header] at covers
      rw [header] at tail
      cases budget with
      | zero => trivial
      | succ budget =>
          unfold heapFreeBytesFromAccesses
          have follow : ∀ total, (readSize b fun size =>
              if u64 (b + blockHeader + size) ≥ finish then .ret (.done total)
              else heapFreeBytesFromAccesses finish budget (u64 (b + blockHeader + size)) total).Stays
                (InArena start finish) mem := by
            intro total
            refine readSize_stays lower (by omega) ?_
            rw [next]
            split
            · trivial
            · exact ih tail (by omega)
          rw [if_pos (by omega)]
          refine readMagic_stays lower (by omega) ?_
          rw [if_neg (not_not.mpr magic)]
          refine readFree_stays lower (by omega) ?_
          split
          · exact readSize_stays lower (by omega) (follow _)
          · exact follow _

/-- From a well-formed heap no access of `kmalloc` leaves the arena. -/
theorem HeapInv.kmallocAccesses_stays (inv : HeapInv h blocks) (n : Nat) :
    (kmallocAccesses h.start h.finish n).Stays (InArena h.start h.finish) h.mem := by
  unfold kmallocAccesses
  split
  · trivial
  · exact kmallocFromAccesses_stays inv.headers inv.finish_lt le_rfl

theorem HeapInv.heapFreeBytesAccesses_stays (inv : HeapInv h blocks) :
    (heapFreeBytesAccesses h.start h.finish).Stays (InArena h.start h.finish) h.mem :=
  heapFreeBytesFromAccesses_stays inv.headers inv.finish_lt le_rfl

/-- From a well-formed heap no access of `kfree` of a used block leaves the arena. -/
theorem HeapInv.kfreeAccesses_stays (inv : HeapInv h (before ++ ⟨size, false⟩ :: after)) :
    (kfreeAccesses h.start h.finish (h.start + Blocks.span 16 before + 16)).Stays
      (InArena h.start h.finish) h.mem := by
  have header : blockHeader = 16 := rfl
  have small := inv.finish_lt
  have covers := inv.headers.span
  have lengthLt := inv.length_lt
  have cut := inv.headers
  rw [headers_append, header] at cut
  obtain ⟨front, magic, free, sized, tail⟩ := cut
  rw [span_append, span_cons, header] at covers
  rw [header] at tail
  simp only at free sized covers tail
  have place : u64 (h.start + Blocks.span 16 before + 16 + (2 ^ 64 - blockHeader)) =
      h.start + Blocks.span 16 before := by
    rw [u64, header]
    omega
  generalize begins : h.start + Blocks.span 16 before = b at *
  have row := (Merged.append.mp inv.merged).2.1
  have marked : Headers (setFree h.mem b 1) h.finish b (⟨size, true⟩ :: after) := by
    refine ⟨by rw [blockMagic_setFree, magic], blockFree_setFree (by decide),
      by rw [blockSize_setFree, sized], ?_⟩
    rw [header]
    exact tail.congr fun address lower _ => setFree_outside (by omega)
  obtain ⟨mem₁, forward, chain₁, kept₁⟩ :=
    kfreeForward_spec marked (Merged.cons.mp row).2 small (show 2 ≤ 2 ^ 64 by decide)
  have front₁ : Headers mem₁ b h.start before :=
    front.congr fun address _ below => by
      rw [kept₁ address (.inl below), setFree_outside (.inl below)]
  have walked : ∀ prev, kfreePrev mem₁ b (2 ^ 64) 0 h.start = .done prev → prev ≠ 0 →
      h.start ≤ prev ∧ prev + 16 ≤ b := by
    intro prev walk notNull
    rcases before.eq_nil_or_concat' with rfl | ⟨before, last, rfl⟩
    · rw [span_nil] at begins
      rw [kfreePrev_stop (by omega) (by decide)] at walk
      exact absurd (Outcome.done.inj walk).symm notNull
    · rw [kfreePrev_spec front₁ (by omega) (by
        simp only [List.length_append, List.length_cons, List.length_nil] at lengthLt
        omega)] at walk
      rw [span_append, span_cons, span_nil] at begins
      have same := Outcome.done.inj walk
      omega
  unfold kfreeAccesses
  rw [if_neg (by omega)]
  simp only [place]
  rw [if_neg (by omega)]
  refine readMagic_stays (by omega) (by omega) ?_
  rw [if_neg (not_not.mpr magic)]
  refine readFree_stays (by omega) (by omega) ?_
  rw [if_neg (by simp [free])]
  refine writeFree_stays (by omega) (by omega) ?_
  refine Access.Stays.bind (kfreeForwardAccesses_stays marked small (by omega)) ?_
  intro memory _ ran
  rw [kfreeForwardAccesses_flat, forward, Outcome.bind_done] at ran
  obtain ⟨rfl, _⟩ := Prod.mk.inj (Outcome.done.inj ran)
  refine Access.Stays.bind (kfreePrevAccesses_stays front₁ (by omega) le_rfl (by omega)) ?_
  intro memory prev ran
  rw [kfreePrevAccesses_flat] at ran
  obtain ⟨found, walk, same⟩ := Outcome.bind_eq_done.mp ran
  obtain ⟨rfl, rfl⟩ := Prod.mk.inj (Outcome.done.inj same)
  split
  swap
  · trivial
  next notNull =>
    obtain ⟨lower, upper⟩ := walked _ walk notNull
    refine readFree_stays lower (by omega) ?_
    split
    · exact readSize_stays lower (by omega) <| readSize_stays (by omega) (by omega) <|
        writeSize_stays lower (by omega) trivial
    · trivial

end Arena

end GodOs
