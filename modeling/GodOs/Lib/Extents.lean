import GodOs.Lib.Blocks

/-!
# Merged rows and their extents

A merged row is determined by its span and by its used extents: between two of them
there is exactly one free block, or none. So two ways to reach the same extents reach
the same row. The free blocks account for the rest of the span.
-/

namespace Lib.Blocks

/-- The row with used and free exchanged. -/
def flip (block : Block) : Block := ⟨block.size, !block.free⟩

/-- The free blocks of a row that begins at `start`: where they begin and end. -/
def gaps (header start : Nat) (blocks : List Block) : List (Nat × Nat) :=
  (used header start (blocks.map flip)).map fun extent => (extent.1, extent.1 + header + extent.2)

/-- The bytes in the payloads of the free blocks. -/
def freeBytes : List Block → Nat
  | [] => 0
  | block :: rest => (if block.free then block.size else 0) + freeBytes rest

/-- The blocks of a row with their places. -/
def placed (header : Nat) : Nat → List Block → List (Nat × Block)
  | _, [] => []
  | start, block :: rest => (start, block) :: placed header (start + header + block.size) rest

variable {header start lo hi : Nat} {block : Block} {first second blocks rest : List Block}

/-- The first used extent of a row whose first block is free. -/
theorem used_head (merged : Merged (block :: rest)) (isFree : block.free = true) :
    (used header start (block :: rest)).head?.map Prod.fst =
      if rest = [] then none else some (start + header + block.size) := by
  cases rest with
  | nil => simp [used, isFree]
  | cons next others =>
      have isUsed : next.free = false := by simpa [isFree] using (Merged.cons.mp merged).1 next rfl
      simp [used, isFree, isUsed]

/-- A row that begins with a used block has an extent where it begins, and no other row
with positive headers does. -/
theorem start_mem_used_iff (positive : 0 < header) :
    (∃ size, (start, size) ∈ used header start (block :: rest)) ↔ block.free = false := by
  rw [used]
  split
  next isFree =>
    simp only [isFree, Bool.true_eq_false, iff_false]
    rintro ⟨size, member⟩
    have := (used_pairwise header (start + header + block.size) rest).1 _ member
    simp only at this
    omega
  next isUsed => exact ⟨fun _ => by simpa using isUsed, fun _ => ⟨_, List.mem_cons_self⟩⟩

/-- The first blocks of two merged rows with the same used extents agree. -/
theorem Merged.unique_head {other : Block} (mergedFirst : Merged (block :: first))
    (mergedSecond : Merged (other :: second)) (positive : 0 < header)
    (sameSpan : span header (block :: first) = span header (other :: second))
    (sameUsed : used header start (block :: first) = used header start (other :: second)) :
    block = other := by
  have sameFree : block.free = false ↔ other.free = false := by
    rw [← @start_mem_used_iff header start block first positive, sameUsed,
      start_mem_used_iff positive]
  suffices block.size = other.size by
    cases block
    cases other
    simp_all
  cases isFree : block.free with
  | false =>
      have isFree' := sameFree.mp isFree
      rw [used, used, isFree, isFree'] at sameUsed
      exact (Prod.mk.inj (List.cons.inj sameUsed).1).2
  | true =>
      have isFree' : other.free = true := by simpa [isFree] using sameFree
      have heads := congrArg (·.head?.map Prod.fst) sameUsed
      simp only [used_head mergedFirst isFree, used_head mergedSecond isFree'] at heads
      split_ifs at heads with firstEnds secondEnds
      · subst firstEnds secondEnds
        simp only [span_cons, span_nil] at sameSpan
        omega
      · have := Option.some.inj heads
        omega

/-- Two merged rows of one span with the same used extents are the same. -/
theorem Merged.unique (mergedFirst : Merged first) (mergedSecond : Merged second)
    (positive : 0 < header) (sameSpan : span header first = span header second)
    (sameUsed : used header start first = used header start second) : first = second := by
  induction first generalizing second start with
  | nil =>
      cases second with
      | nil => rfl
      | cons block rest =>
          rw [span_nil, span_cons] at sameSpan
          omega
  | cons block first ih =>
      cases second with
      | nil =>
          rw [span_nil, span_cons] at sameSpan
          omega
      | cons other second =>
          obtain rfl := mergedFirst.unique_head mergedSecond positive sameSpan sameUsed
          have sameTail : used header (start + header + block.size) first =
              used header (start + header + block.size) second := by
            rw [used, used] at sameUsed
            split at sameUsed
            · exact sameUsed
            · exact (List.cons.inj sameUsed).2
          rw [span_cons, span_cons] at sameSpan
          rw [ih (Merged.cons.mp mergedFirst).2 (Merged.cons.mp mergedSecond).2 (by omega) sameTail]

/-- The used extents of a row are known from their set. -/
theorem used_eq_of_mem_iff (positive : 0 < header)
    (same : ∀ extent, extent ∈ used header start first ↔ extent ∈ used header start second) :
    used header start first = used header start second := by
  have sorted : ∀ blocks : List Block,
      (used header start blocks).Pairwise fun one other => one.1 < other.1 := fun blocks =>
    (used_pairwise header start blocks).2.imp fun order => by omega
  have : Std.Irrefl fun one other : Nat × Nat => one.1 < other.1 := ⟨fun _ => Nat.lt_irrefl _⟩
  have : Std.Antisymm fun one other : Nat × Nat => one.1 < other.1 :=
    ⟨fun _ _ less more => absurd less (Nat.lt_asymm more)⟩
  exact (sorted first).eq_of_mem_iff (sorted second) same

@[simp] theorem span_map_flip : span header (blocks.map flip) = span header blocks := by
  induction blocks with
  | nil => rfl
  | cons block rest ih => rw [List.map_cons, span_cons, span_cons, ih, flip]

/-- The gaps of a row are its free blocks. -/
theorem mem_gaps_iff : (lo, hi) ∈ gaps header start blocks ↔
    ∃ before size after, blocks = before ++ ⟨size, true⟩ :: after ∧
      lo = start + span header before ∧ hi = lo + header + size := by
  constructor
  · intro member
    obtain ⟨⟨place, size⟩, extent, same⟩ := List.mem_map.mp member
    obtain ⟨rfl, rfl⟩ := Prod.mk.inj same
    obtain ⟨_, _, shape, rfl⟩ := mem_used_iff.mp extent
    obtain ⟨before, tail, rfl, rfl, shape'⟩ := List.map_eq_append_iff.mp shape
    obtain ⟨⟨_, free⟩, after, rfl, flipped, rfl⟩ := List.map_eq_cons_iff.mp shape'
    obtain ⟨rfl, isFree⟩ := Block.mk.inj flipped
    refine ⟨before, _, after, ?_, by simp, rfl⟩
    rw [show free = true by simpa using isFree]
  · rintro ⟨before, size, after, rfl, rfl, rfl⟩
    refine List.mem_map.mpr ⟨(start + span header before, size), mem_used_iff.mpr ?_, rfl⟩
    exact ⟨before.map flip, after.map flip, by simp [flip], by simp⟩

theorem gaps_nodup (positive : 0 < header) : (gaps header start blocks).Nodup := by
  have distinct := @used_nodup header start (blocks.map flip) positive
  rw [gaps, List.nodup_iff_pairwise_ne, List.pairwise_map]
  rw [List.nodup_iff_pairwise_ne, List.pairwise_map] at distinct
  exact distinct.imp fun different same => different (Prod.mk.inj same).1

/-- Headers, used payloads and free payloads make up the span. -/
theorem span_eq (start : Nat) : span header blocks =
    ((used header start blocks).map fun extent => header + extent.2).sum +
      header * (gaps header start blocks).length + freeBytes blocks := by
  induction blocks generalizing start with
  | nil => rfl
  | cons block rest ih =>
      have tail := ih (start + header + block.size)
      rw [gaps, List.length_map] at tail ⊢
      cases isFree : block.free
      · simp only [used, freeBytes, span_cons, flip, isFree, List.map_cons, List.sum_cons, tail,
          Bool.not_false, if_true, Bool.false_eq_true, if_false]
        omega
      · simp only [used, freeBytes, span_cons, flip, isFree, List.map_cons, List.length_cons, tail,
          Bool.not_true, if_true, Bool.false_eq_true, if_false, Nat.mul_succ]
        omega

/-- The free bytes hold every free block. -/
theorem size_le_freeBytes (member : block ∈ blocks) (isFree : block.free = true) :
    block.size ≤ freeBytes blocks := by
  induction blocks with
  | nil => cases member
  | cons first rest ih =>
      rw [freeBytes]
      rcases List.mem_cons.mp member with rfl | later
      · rw [if_pos isFree]
        omega
      · have := ih later
        omega

/-- Without free blocks there are no gaps. -/
theorem gaps_eq_nil (allUsed : ∀ block ∈ blocks, block.free = false) :
    gaps header start blocks = [] := by
  refine List.eq_nil_iff_forall_not_mem.mpr ?_
  rintro ⟨lo, hi⟩ member
  obtain ⟨before, size, after, rfl, _⟩ := mem_gaps_iff.mp member
  have isUsed := allUsed ⟨size, true⟩ (by simp)
  cases isUsed

end Lib.Blocks
