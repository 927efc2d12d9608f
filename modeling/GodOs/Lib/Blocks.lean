import Mathlib

/-!
# Rows of blocks with headers

A heap that stores its block headers in place is a row of blocks: each block has a
header of a fixed size and a payload, and the next block starts where it ends. The
row decides everything: where the blocks are, which addresses the used ones cover,
and where the gaps are. Freeing is `coalesce` and allocating is `carve`.
-/

namespace Lib

/-- A block of a row: the size of its payload, and whether it is free. -/
structure Block where
  size : Nat
  free : Bool
deriving DecidableEq, Repr

namespace Blocks

/-- The number of bytes that a row covers, headers included. -/
def span (header : Nat) : List Block → Nat
  | [] => 0
  | block :: rest => header + block.size + span header rest

/-- The used blocks of a row that begins at `start`: address and payload size. -/
def used (header : Nat) : Nat → List Block → List (Nat × Nat)
  | _, [] => []
  | start, block :: rest =>
      if block.free then used header (start + header + block.size) rest
      else (start, block.size) :: used header (start + header + block.size) rest

/-- No two neighbours are free. -/
def Merged (blocks : List Block) : Prop :=
  blocks.IsChain fun first second => ¬ (first.free = true ∧ second.free = true)

/-- Put a block in front of a row and merge it with the first one if both are free. -/
def push (header : Nat) (block : Block) : List Block → List Block
  | [] => [block]
  | next :: rest =>
      if block.free = true ∧ next.free = true then ⟨block.size + header + next.size, true⟩ :: rest
      else block :: next :: rest

/-- Merge all free neighbours. -/
def coalesce (header : Nat) (blocks : List Block) : List Block := blocks.foldr (push header) []

/-- Take `need` bytes from a free block of `size`, and leave a free block behind if
its payload has at least `least` bytes. -/
def carve (header least need size : Nat) : List Block :=
  if header + least ≤ size - need then [⟨need, false⟩, ⟨size - need - header, true⟩]
  else [⟨size, false⟩]

/-- The addresses that the used blocks of a row cover, headers included. -/
def covered (header start : Nat) (blocks : List Block) : Set Nat :=
  {address | ∃ extent ∈ used header start blocks,
    extent.1 ≤ address ∧ address < extent.1 + header + extent.2}

/-- A maximal interval of `[first, last)` without covered addresses. -/
structure IsGap (covered : Set Nat) (first last lo hi : Nat) : Prop where
  nonempty : lo < hi
  lower : first ≤ lo
  upper : hi ≤ last
  bare : ∀ address, lo ≤ address → address < hi → address ∉ covered
  left : lo = first ∨ lo - 1 ∈ covered
  right : hi = last ∨ hi ∈ covered

section Rows

variable {header start address size : Nat} {block : Block} {blocks before after rest : List Block}

@[simp] theorem span_nil : span header [] = 0 := rfl

@[simp] theorem span_cons : span header (block :: rest) = header + block.size + span header rest :=
  rfl

@[simp] theorem span_append : span header (before ++ after) = span header before + span header after := by
  induction before with
  | nil => simp
  | cons block before ih =>
      rw [List.cons_append, span_cons, span_cons, ih]
      omega

theorem used_append : used header start (before ++ after) =
    used header start before ++ used header (start + span header before) after := by
  induction before generalizing start with
  | nil => simp [used]
  | cons block before ih =>
      have place : start + span header (block :: before) =
          start + header + block.size + span header before := by
        rw [span_cons]
        omega
      rw [List.cons_append, used, used, ih, place]
      split <;> simp

theorem length_le_span (positive : 0 < header) : blocks.length ≤ span header blocks := by
  induction blocks with
  | nil => exact Nat.zero_le _
  | cons block rest ih =>
      rw [List.length_cons, span_cons]
      omega

/-- A used block stands between two parts of the row. -/
theorem mem_used_iff : (address, size) ∈ used header start blocks ↔
    ∃ before after, blocks = before ++ ⟨size, false⟩ :: after ∧ address = start + span header before := by
  constructor
  · intro member
    induction blocks generalizing start with
    | nil => cases member
    | cons block rest ih =>
        have later : (address, size) ∈ used header (start + header + block.size) rest →
            ∃ before after, block :: rest = before ++ ⟨size, false⟩ :: after ∧
              address = start + span header before := by
          intro inRest
          obtain ⟨before, after, rfl, rfl⟩ := ih inRest
          refine ⟨block :: before, after, rfl, ?_⟩
          rw [span_cons]
          omega
        rw [used] at member
        split at member
        next => exact later member
        next isUsed =>
          rcases List.mem_cons.mp member with here | inRest
          · obtain ⟨rfl, rfl⟩ := Prod.mk.inj here
            refine ⟨[], rest, ?_, rfl⟩
            rw [List.nil_append, ← Bool.not_eq_true _ |>.mp isUsed]
          · exact later inRest
  · rintro ⟨before, after, rfl, rfl⟩
    rw [used_append]
    exact List.mem_append_right _ (by simp [used])

@[simp] theorem used_cons_free : used header start (⟨size, true⟩ :: rest) =
    used header (start + header + size) rest :=
  rfl

@[simp] theorem used_cons_used : used header start (⟨size, false⟩ :: rest) =
    (start, size) :: used header (start + header + size) rest :=
  rfl

/-- A used block inside a row is one more extent than the same block free. -/
theorem used_perm : (used header start (before ++ ⟨size, false⟩ :: after)).Perm
    ((start + span header before, size) :: used header start (before ++ ⟨size, true⟩ :: after)) := by
  rw [used_append, used_append, used_cons_used, used_cons_free]
  exact List.perm_middle

/-- The used blocks lie behind each other. -/
theorem used_pairwise (header start : Nat) (blocks : List Block) :
    (∀ extent ∈ used header start blocks, start ≤ extent.1) ∧
      (used header start blocks).Pairwise fun first second => first.1 + header + first.2 ≤ second.1 := by
  induction blocks generalizing start with
  | nil => exact ⟨fun _ member => absurd member List.not_mem_nil, .nil⟩
  | cons block rest ih =>
      obtain ⟨lower, apart⟩ := ih (start + header + block.size)
      rw [used]
      split
      · exact ⟨fun extent member => by have := lower extent member; omega, apart⟩
      · refine ⟨fun extent member => ?_, apart.cons lower⟩
        rcases List.mem_cons.mp member with rfl | later
        · exact Nat.le_refl _
        · have := lower extent later
          omega

/-- Two blocks of one row are the same block or lie one after the other. -/
theorem split_cases {block' : Block} {before' after' : List Block}
    (same : before ++ block :: after = before' ++ block' :: after') :
    (before = before' ∧ block = block' ∧ after = after') ∨
      span header before + header + block.size ≤ span header before' ∨
      span header before' + header + block'.size ≤ span header before := by
  rcases List.append_eq_append_iff.mp same with ⟨middle, rfl, tail⟩ | ⟨middle, rfl, tail⟩
  · cases middle with
    | nil =>
        obtain ⟨rfl, rfl⟩ := List.cons.inj tail
        exact .inl ⟨by simp, rfl, rfl⟩
    | cons first middle =>
        obtain ⟨rfl, _⟩ := List.cons.inj tail
        refine .inr (.inl ?_)
        rw [span_append, span_cons]
        omega
  · cases middle with
    | nil =>
        obtain ⟨rfl, rfl⟩ := List.cons.inj tail
        exact .inl ⟨by simp, rfl, rfl⟩
    | cons first middle =>
        obtain ⟨rfl, _⟩ := List.cons.inj tail
        refine .inr (.inr ?_)
        rw [span_append, span_cons]
        omega

/-- A block that begins earlier in a row stands in the part before. -/
theorem mem_before {block' : Block} {before' after' : List Block}
    (same : before ++ block :: after = before' ++ block' :: after')
    (earlier : span header before' < span header before) : block' ∈ before := by
  rcases List.append_eq_append_iff.mp same with ⟨middle, rfl, tail⟩ | ⟨middle, rfl, tail⟩
  · rw [span_append] at earlier
    omega
  · cases middle with
    | nil => simp at earlier
    | cons first middle =>
        obtain ⟨rfl, _⟩ := List.cons.inj tail
        simp

/-- Different used blocks are disjoint. -/
theorem used_disjoint {first second : Nat × Nat} (one : first ∈ used header start blocks)
    (other : second ∈ used header start blocks) (different : first.1 ≠ second.1) :
    first.1 + header + first.2 ≤ second.1 ∨ second.1 + header + second.2 ≤ first.1 := by
  obtain ⟨before, after, shape, place⟩ := mem_used_iff.mp one
  obtain ⟨before', after', shape', place'⟩ := mem_used_iff.mp other
  rcases @split_cases header _ _ _ _ _ _ (shape.symm.trans shape') with ⟨rfl, _⟩ | apart | apart
  · exact absurd (place.trans place'.symm) different
  · exact .inl (by simp only at apart; omega)
  · exact .inr (by simp only at apart; omega)

/-- No two used blocks begin at one address. -/
theorem used_nodup (positive : 0 < header) : ((used header start blocks).map Prod.fst).Nodup :=
  List.pairwise_map.mpr ((used_pairwise header start blocks).2.imp fun order => by omega)

/-- Every address of a row lies in one of its blocks. -/
theorem exists_block (lower : start ≤ address) (upper : address < start + span header blocks) :
    ∃ before block after, blocks = before ++ block :: after ∧
      start + span header before ≤ address ∧
      address < start + span header before + header + block.size := by
  induction blocks generalizing start with
  | nil => simp at upper; omega
  | cons block rest ih =>
      rw [span_cons] at upper
      by_cases here : address < start + header + block.size
      · exact ⟨[], block, rest, rfl, by simpa using lower, by simpa using here⟩
      · obtain ⟨before, found, after, rfl, lower', upper'⟩ :=
          @ih (start + header + block.size) (by omega) (by omega)
        refine ⟨block :: before, found, after, rfl, ?_, ?_⟩
        · rw [span_cons]
          omega
        · rw [span_cons]
          omega

/-- An address of a block is covered exactly when the block is used. -/
theorem mem_covered_iff (lower : start + span header before ≤ address)
    (upper : address < start + span header before + header + block.size) :
    address ∈ covered header start (before ++ block :: after) ↔ block.free = false := by
  constructor
  · rintro ⟨⟨place, size⟩, member, lower', upper'⟩
    obtain ⟨before', after', same, rfl⟩ := mem_used_iff.mp member
    rcases @split_cases header _ _ _ _ _ _ same with ⟨_, rfl, _⟩ | apart | apart
    · rfl
    · simp only at lower' upper'
      omega
    · simp only at lower' upper' apart
      omega
  · intro isUsed
    refine ⟨(start + span header before, block.size), mem_used_iff.mpr ⟨before, after, ?_, rfl⟩,
      lower, upper⟩
    rw [← isUsed]

end Rows

section Coalesce

variable {header start : Nat} {block : Block} {blocks before after rest : List Block}

theorem Merged.append : Merged (before ++ after) ↔ Merged before ∧ Merged after ∧
    ∀ first ∈ before.getLast?, ∀ second ∈ after.head?, ¬ (first.free = true ∧ second.free = true) :=
  List.isChain_append

theorem Merged.cons : Merged (block :: rest) ↔
    (∀ second ∈ rest.head?, ¬ (block.free = true ∧ second.free = true)) ∧ Merged rest :=
  List.isChain_cons

@[simp] theorem coalesce_nil : coalesce header [] = [] := rfl

@[simp] theorem coalesce_cons : coalesce header (block :: rest) = push header block (coalesce header rest) :=
  rfl

theorem coalesce_append : coalesce header (before ++ after) =
    before.foldr (push header) (coalesce header after) :=
  List.foldr_append

theorem used_push : used header start (push header block rest) = used header start (block :: rest) := by
  cases rest with
  | nil => rfl
  | cons next rest =>
      rw [push]
      split
      next bothFree =>
        simp only [used, bothFree.1, bothFree.2, if_true]
        congr 1
        omega
      next => rfl

theorem Merged.push (merged : Merged rest) : Merged (push header block rest) := by
  cases rest with
  | nil => exact List.isChain_singleton _
  | cons next rest =>
      rw [Blocks.push]
      split
      next bothFree =>
        rw [Merged.cons] at merged ⊢
        exact ⟨fun second member both => merged.1 second member ⟨bothFree.2, both.2⟩, merged.2⟩
      next apart =>
        refine Merged.cons.mpr ⟨fun second member => ?_, merged⟩
        obtain rfl := Option.some.inj member
        exact apart

theorem push_eq_cons (merged : Merged (block :: rest)) : push header block rest = block :: rest := by
  cases rest with
  | nil => rfl
  | cons next rest =>
      rw [push, if_neg]
      exact (Merged.cons.mp merged).1 next rfl

theorem merged_coalesce (blocks : List Block) : Merged (coalesce header blocks) := by
  induction blocks with
  | nil => exact List.isChain_nil
  | cons block blocks ih => exact ih.push

/-- Merging moves no used block. -/
theorem used_coalesce (blocks : List Block) :
    used header start (coalesce header blocks) = used header start blocks := by
  induction blocks generalizing start with
  | nil => rfl
  | cons block blocks ih => rw [coalesce_cons, used_push, used, used, ih]

theorem Merged.coalesce_eq (merged : Merged blocks) : coalesce header blocks = blocks := by
  induction blocks with
  | nil => rfl
  | cons block blocks ih =>
      rw [coalesce_cons, ih (Merged.cons.mp merged).2, push_eq_cons merged]

/-- Sizes keep a property that merging two payloads keeps. -/
theorem forall_coalesce {P : Nat → Prop}
    (merge : ∀ {first second}, P first → P second → P (first + header + second))
    (all : ∀ block ∈ blocks, P block.size) : ∀ block ∈ coalesce header blocks, P block.size := by
  induction blocks with
  | nil => exact all
  | cons block rest ih =>
      have tail := ih fun other member => all other (List.mem_cons_of_mem _ member)
      have own := all block List.mem_cons_self
      rw [coalesce_cons]
      cases shape : coalesce header rest with
      | nil =>
          intro other member
          rw [List.mem_singleton.mp member]
          exact own
      | cons next others =>
          rw [shape] at tail
          have nextOwn := tail next List.mem_cons_self
          rw [push]
          split
          · intro other member
            rcases List.mem_cons.mp member with rfl | later
            · exact merge own nextOwn
            · exact tail other (List.mem_cons_of_mem _ later)
          · intro other member
            rcases List.mem_cons.mp member with rfl | later
            · exact own
            · exact tail other later

/-- A merged row is not changed by pushing its blocks again. -/
theorem Merged.foldr_push (merged : Merged (before ++ rest)) :
    before.foldr (Blocks.push header) rest = before ++ rest := by
  induction before with
  | nil => rfl
  | cons block before ih =>
      rw [List.cons_append] at merged ⊢
      rw [List.foldr_cons, ih (Merged.cons.mp merged).2, push_eq_cons merged]

/-- Pushing a block keeps its own freeness at the head of the row. -/
theorem push_head {second : Block} (head : second ∈ (push header block rest).head?) :
    second.free = block.free := by
  cases rest with
  | nil =>
      obtain rfl := Option.some.inj head
      rfl
  | cons next rest =>
      rw [push] at head
      split at head
      next bothFree =>
        obtain rfl := Option.some.inj head
        exact bothFree.1.symm
      next =>
        obtain rfl := Option.some.inj head
        rfl

/-- A free block in front stays the front of a free block. -/
theorem push_free (header size : Nat) (rest : List Block) :
    ∃ total others, push header ⟨size, true⟩ rest = ⟨total, true⟩ :: others := by
  cases rest with
  | nil => exact ⟨_, _, rfl⟩
  | cons next rest =>
      rw [push]
      split
      · exact ⟨_, _, rfl⟩
      · exact ⟨_, _, rfl⟩

/-- Freeing a block of a merged row merges it with its neighbours only. -/
theorem Merged.coalesce_first {size : Nat} (merged : Merged (⟨size, false⟩ :: after)) :
    coalesce header (⟨size, true⟩ :: after) = Blocks.push header ⟨size, true⟩ after := by
  rw [coalesce_cons, (Merged.cons.mp merged).2.coalesce_eq]

theorem Merged.coalesce_inner {size : Nat} {last : Block}
    (merged : Merged ((before ++ [last]) ++ ⟨size, false⟩ :: after)) :
    coalesce header ((before ++ [last]) ++ ⟨size, true⟩ :: after) =
      before ++ Blocks.push header last (Blocks.push header ⟨size, true⟩ after) := by
  obtain ⟨front, row, _⟩ := Merged.append.mp merged
  obtain ⟨first, _, seam⟩ := Merged.append.mp front
  rw [coalesce_append, row.coalesce_first, List.foldr_append, List.foldr_cons, List.foldr_nil]
  refine Merged.foldr_push (Merged.append.mpr ⟨first, (Merged.cons.mp row).2.push.push, ?_⟩)
  intro previous isLast second head
  rw [push_head head]
  exact seam previous isLast last rfl

end Coalesce

section Carve

variable {header least need size start : Nat} {before after : List Block}

theorem span_carve (fits : need ≤ size) : span header (carve header least need size) = header + size := by
  unfold carve
  split
  · simp only [span_cons, span_nil]
    omega
  · rfl

/-- The payload of the block that is carved out. -/
def carved (header least need size : Nat) : Nat := if header + least ≤ size - need then need else size

theorem used_carve (start : Nat) : used header start (carve header least need size) =
    [(start, carved header least need size)] := by
  unfold carve carved
  split <;> rfl

/-- Carving a block of a row adds one used extent. -/
theorem used_carve_inner (fits : need ≤ size) :
    used header start (before ++ (carve header least need size ++ after)) =
      used header start before ++ (start + span header before, carved header least need size) ::
        used header (start + span header before + header + size) after := by
  rw [used_append, used_append, used_carve, span_carve fits, ← Nat.add_assoc]
  rfl

/-- Carving keeps the row merged: its neighbours are used, and it begins with a used block. -/
theorem Merged.carve (merged : Merged (before ++ ⟨size, true⟩ :: after)) :
    Merged (before ++ (Blocks.carve header least need size ++ after)) := by
  obtain ⟨first, second, seam⟩ := Merged.append.mp merged
  obtain ⟨nextUsed, rest⟩ := Merged.cons.mp second
  unfold Blocks.carve
  split
  · refine Merged.append.mpr ⟨first, ?_, ?_⟩
    · refine Merged.cons.mpr ⟨?_, Merged.cons.mpr ⟨fun next member => ?_, rest⟩⟩
      · rintro next member ⟨isFree, _⟩
        cases isFree
      · rintro ⟨_, isFree⟩
        exact nextUsed next member ⟨rfl, isFree⟩
    · rintro last _ next member ⟨_, isFree⟩
      obtain rfl := Option.some.inj member
      cases isFree
  · refine Merged.append.mpr ⟨first, ?_, ?_⟩
    · refine Merged.cons.mpr ⟨?_, rest⟩
      rintro next _ ⟨isFree, _⟩
      cases isFree
    · rintro last _ next member ⟨_, isFree⟩
      obtain rfl := Option.some.inj member
      cases isFree

end Carve

section Gaps

variable {header start lo hi size : Nat} {blocks before after : List Block}

/-- A free block of a merged row is a gap. -/
theorem Merged.isGap (merged : Merged (before ++ ⟨size, true⟩ :: after)) (positive : 0 < header) :
    IsGap (covered header start (before ++ ⟨size, true⟩ :: after)) start
      (start + span header (before ++ ⟨size, true⟩ :: after)) (start + span header before)
      (start + span header before + header + size) where
  nonempty := by omega
  lower := by omega
  upper := by
    rw [span_append, span_cons]
    simp only
    omega
  bare address lower upper inside := by
    have isUsed := (@mem_covered_iff header start address ⟨size, true⟩ before after lower upper).mp inside
    cases isUsed
  left := by
    rcases before.eq_nil_or_concat' with rfl | ⟨front, last, rfl⟩
    · exact .inl (by simp)
    · refine .inr ?_
      have isUsed : last.free = false := by
        obtain ⟨_, _, seam⟩ := Merged.append.mp merged
        have apart := seam last (by simp) ⟨size, true⟩ rfl
        simpa using apart
      rw [span_append, span_cons, span_nil, List.append_assoc, List.singleton_append]
      exact (mem_covered_iff (by omega) (by omega)).mpr isUsed
  right := by
    cases after with
    | nil =>
        refine .inl ?_
        simp only [span_append, span_cons, span_nil]
        omega
    | cons next rest =>
        refine .inr ?_
        have isUsed : next.free = false := by
          obtain ⟨_, second, _⟩ := Merged.append.mp merged
          have apart := (Merged.cons.mp second).1 next rfl
          simpa using apart
        have split : before ++ ⟨size, true⟩ :: next :: rest =
            (before ++ [⟨size, true⟩]) ++ next :: rest := by simp
        rw [split]
        refine (mem_covered_iff ?_ ?_).mpr isUsed <;>
          simp only [span_append, span_cons, span_nil] <;> omega

/-- The gaps of a merged row are its free blocks. -/
theorem Merged.gap_iff (merged : Merged blocks) (positive : 0 < header) :
    IsGap (covered header start blocks) start (start + span header blocks) lo hi ↔
      ∃ before size after, blocks = before ++ ⟨size, true⟩ :: after ∧
        lo = start + span header before ∧ hi = lo + header + size := by
  constructor
  · intro gap
    have nonempty := gap.nonempty
    have upper := gap.upper
    obtain ⟨before, block, after, rfl, from', to'⟩ :=
      exists_block gap.lower (show lo < start + span header blocks by omega)
    have isFree : block.free = true := by
      have bare := mt (mem_covered_iff from' to').mpr (gap.bare lo (Nat.le_refl _) nonempty)
      simpa using bare
    have atStart : lo = start + span header before := by
      by_contra inner
      rcases gap.left with first | beside
      · omega
      · have isUsed := (@mem_covered_iff header start (lo - 1) block before after (by omega)
          (by omega)).mp beside
        rw [isFree] at isUsed
        cases isUsed
    have mergedGap := @Merged.isGap header start block.size before after
      (by rw [← isFree]; exact merged) positive
    have same : (⟨block.size, true⟩ : Block) = block := by rw [← isFree]
    rw [same] at mergedGap
    refine ⟨before, block.size, after, by rw [same], atStart, ?_⟩
    rcases Nat.lt_trichotomy hi (lo + header + block.size) with short | equal | long
    · rcases gap.right with last | beside
      · rw [last, span_append, span_cons] at short
        omega
      · have isUsed := (@mem_covered_iff header start hi block before after (by omega)
          (by omega)).mp beside
        rw [isFree] at isUsed
        cases isUsed
    · exact equal
    · rcases mergedGap.right with last | beside
      · omega
      · rw [← atStart] at beside
        exact absurd beside (gap.bare _ (by omega) long)
  · rintro ⟨before, size, after, rfl, rfl, rfl⟩
    exact merged.isGap positive

end Gaps

end Blocks
end Lib
