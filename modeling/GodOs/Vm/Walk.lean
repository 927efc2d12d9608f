import GodOs.Vm.Paging

/-!
# The table walk

`vmWalkLevel_cases` says once what a stage of `vm_walk` can do: stop, follow a
table, or link a fresh one. `Grown` is everything a walk keeps, and
`walkTables_spec` carries the paging invariant through a walk by induction on
the path.
-/

namespace GodOs

open Lib Lib.Forest

/-- Clearing entries writes zero bytes to their addresses and nothing else. -/
theorem zeroEntries_apply (mem : Memory) (table count address : Nat) :
    zeroEntries mem table count address =
      if table ≤ address ∧ address < table + 8 * count then 0 else mem address := by
  induction count with
  | zero => rw [zeroEntries, if_neg (by omega)]
  | succ count ih =>
      rw [zeroEntries]
      by_cases last : table + 8 * count ≤ address ∧ address < table + 8 * count + 8
      · obtain ⟨offset, rfl⟩ := Nat.exists_eq_add_of_le last.1
        rw [Memory.store_inside (by omega), if_pos (by omega), Nat.zero_div]
        rfl
      · rw [Memory.store_outside (by omega), ih]
        by_cases earlier : table ≤ address ∧ address < table + 8 * count
        · rw [if_pos earlier, if_pos (by omega)]
        · rw [if_neg earlier, if_neg (by omega)]

/-- The state after a walk stage hangs a fresh table below an entry. -/
def linkTable (k : Kernel) (table index frame : Nat) : Kernel :=
  { k with
    pmm := pmmTake k.pmm frame
    mem := (zeroEntries k.mem (frame * pmmFrameSize) 512).store (table + 8 * index) 8
      (frame * pmmFrameSize + 3) }

@[simp] theorem linkTable_pmm (k : Kernel) (table index frame : Nat) :
    (linkTable k table index frame).pmm = pmmTake k.pmm frame := rfl

/-- A link changes only the bytes of the new table and of one entry. -/
theorem linkTable_mem {k : Kernel} {table index frame address : Nat}
    (outsideFrame : address < frame * pmmFrameSize ∨ frame * pmmFrameSize + 4096 ≤ address)
    (outsideEntry : address < table + 8 * index ∨ table + 8 * index + 8 ≤ address) :
    (linkTable k table index frame).mem address = k.mem address := by
  unfold linkTable
  simp only
  rw [Memory.store_outside outsideEntry, zeroEntries_apply, if_neg (by omega)]

/-- The linked entry holds the new table with the present and write bits. -/
theorem linkTable_entry (k : Kernel) (table index : Nat) {frame : Nat}
    (inRange : frame < pmmFrameCount) :
    entryAt (linkTable k table index frame).mem table index = frame * pmmFrameSize + 3 := by
  simp only [pmmFrameCount, pmmMaxPhys, pmmFrameSize] at inRange
  unfold entryAt linkTable
  simp only [pmmFrameSize]
  rw [Memory.load_store_same, Nat.mod_eq_of_lt (by omega)]

/-- The new table is empty. -/
theorem linkTable_empty (k : Kernel) {table index frame other : Nat} (bound : other < 512)
    (disjoint : table + 8 * index + 8 ≤ frame * pmmFrameSize ∨
      frame * pmmFrameSize + 4096 ≤ table + 8 * index) :
    entryAt (linkTable k table index frame).mem (frame * pmmFrameSize) other = 0 := by
  refine Memory.load_zero fun offset within => ?_
  unfold linkTable
  simp only
  rw [Memory.store_outside (by omega), zeroEntries_apply, if_pos (by omega)]

/-- The levels after the link. -/
def linkLevel (level : Nat → Nat) (table frame : Nat) : Nat → Nat :=
  Function.update level (frame * pmmFrameSize) (level table - 1)

section Link

variable {k : Kernel} {spaces : List Nat} {level : Nat → Nat} {identity table frame : Nat}
  {index : Fin 512}

/-- Every other entry of a table survives a link. -/
theorem Paging.linkTable_others (paging : Paging k spaces level identity) (isTable : level table ≠ 0)
    (free : frame ∈ freeSet k.pmm.bitmap) {other : Nat} {index' : Fin 512}
    (isOther : level other ≠ 0) (elsewhere : other ≠ table ∨ index' ≠ index) :
    entryAt (linkTable k table index frame).mem other index' = entryAt k.mem other index' := by
  have isFresh := paging.not_free free
  have tableAligned := paging.aligned isTable
  have otherAligned := paging.aligned isOther
  have bound := index.isLt
  have otherBound := index'.isLt
  have notFresh : other ≠ frame * pmmFrameSize := by
    rintro rfl
    exact isOther isFresh
  have outsideEntry : other + 8 * index'.val + 8 ≤ table + 8 * index.val ∨
      table + 8 * index.val + 8 ≤ other + 8 * index'.val := by
    rcases elsewhere with otherTable | otherIndex
    · omega
    · have : index'.val ≠ index.val := fun same => otherIndex (Fin.ext same)
      omega
  simp only [pmmFrameSize] at notFresh
  exact Memory.load_congr fun address lower above =>
    linkTable_mem (by simp only [pmmFrameSize]; omega) (by omega)

/-- What a link does to the forest of tables. -/
theorem Paging.link (paging : Paging k spaces level identity) (upper : 2 ≤ level table)
    (absent : tables k.mem level table index = .absent)
    (free : frame ∈ freeSet k.pmm.bitmap) :
    Link (tables k.mem level) level (tables (linkTable k table index frame).mem
      (linkLevel level table frame)) (linkLevel level table frame) table index
      (frame * pmmFrameSize) := by
  have isFresh : level (frame * pmmFrameSize) = 0 := paging.not_free free
  have tableAligned := paging.aligned (show level table ≠ 0 by omega)
  have inRange := (mem_freeSet.mp free).1
  have notFresh : ∀ {other}, level other ≠ 0 → other ≠ frame * pmmFrameSize := by
    rintro other isTable rfl
    exact isTable isFresh
  have different := notFresh (show level table ≠ 0 by omega)
  have levels : ∀ {other}, other ≠ frame * pmmFrameSize →
      linkLevel level table frame other = level other :=
    fun other => Function.update_of_ne other _ _
  have freshLevel : linkLevel level table frame (frame * pmmFrameSize) = level table - 1 :=
    Function.update_self _ _ _
  have bound := index.isLt
  refine
    { table := upper, wasAbsent := absent, isFresh := isFresh, linked := ?_, empty := ?_,
      same := ?_, freshLevel := by omega, levels := levels }
  · rw [tables, linkTable_entry k table index inRange, levels different]
    simp only [pmmFrameSize, pmmFrameCount, pmmMaxPhys] at inRange ⊢
    refine decode_eq_table.mpr ⟨?_, by omega, huge_eq_zero.mpr (by omega), ?_⟩
    · rw [Ne, present_eq_zero]
      omega
    · rw [addrMask_eq]
      omega
  · intro other
    have apart : table + 4096 ≤ frame * pmmFrameSize ∨ frame * pmmFrameSize + 4096 ≤ table := by
      simp only [pmmFrameSize] at different ⊢
      omega
    rw [tables, linkTable_empty k other.isLt (by omega)]
    exact decode_eq_absent.mpr rfl
  · intro other index' isTable elsewhere
    rw [tables, tables, levels (notFresh isTable),
      paging.linkTable_others (by omega) free isTable elsewhere]

end Link

/-- What growing the tables keeps: the forest, the frames in use, the bytes of
every frame that is no table, and the rest of the state. -/
structure Grown (k : Kernel) (level : Nat → Nat) (k' : Kernel) (level' : Nat → Nat) : Prop where
  forest : Grows (tables k.mem level) level (tables k'.mem level') level'
  entries : ∀ {table} {index : Fin 512}, level table ≠ 0 →
    entryAt k'.mem table index = entryAt k.mem table index ∨
      tables k.mem level table index = .absent ∧
        ∃ child, tables k'.mem level' table index = .table child
  below : ∀ {table}, level table = 0 → level' table < 4
  fresh : ∀ {table}, level table = 0 → level' table ≠ 0 →
    ∃ frame ∈ freeSet k.pmm.bitmap, table = frame * pmmFrameSize
  hung : ∀ {table}, level table = 0 → level' table ≠ 0 → ∃ root path, level root ≠ 0 ∧
    (tables k'.mem level').descend root path = some table
  free : ∀ {frame}, frame ∈ freeSet k'.pmm.bitmap ↔
    frame ∈ freeSet k.pmm.bitmap ∧ level' (frame * pmmFrameSize) = 0
  bytes : ∀ {address}, level' (address / 4096 * 4096) = 0 →
    address / 4096 ∉ freeSet k.pmm.bitmap → k'.mem address = k.mem address
  valid : k.pmm.Valid → k'.pmm.Valid
  rest : k' = { k with
    mem := k'.mem
    pmm := { k.pmm with
      bitmap := k'.pmm.bitmap, freeFrames := k'.pmm.freeFrames, hint := k'.pmm.hint } }

section Grown

variable {k k₁ k' : Kernel} {spaces : List Nat} {level level₁ level' : Nat → Nat}
  {identity table frame : Nat} {index : Fin 512}

theorem Grown.refl (paging : Paging k spaces level identity) : Grown k level k level where
  forest := .refl _ _
  entries _ := .inl rfl
  below unused := by omega
  fresh unused used := absurd unused used
  hung unused used := absurd unused used
  free := ⟨fun isFree => ⟨isFree, paging.not_free isFree⟩, And.left⟩
  bytes _ _ := rfl
  valid := id
  rest := rfl

theorem Grown.trans (first : Grown k level k₁ level₁) (second : Grown k₁ level₁ k' level') :
    Grown k level k' level' where
  forest := first.forest.trans second.forest
  entries := by
    intro table index isTable
    have isTable₁ : level₁ table ≠ 0 := by rwa [first.forest.levels isTable]
    rcases first.entries isTable with same | ⟨absent, child, linked⟩
    · have slot : tables k₁.mem level₁ table index = tables k.mem level table index := by
        rw [tables, tables, same, first.forest.levels isTable]
      rcases second.entries isTable₁ with same' | ⟨absent', linked'⟩
      · exact .inl (same'.trans same)
      · exact .inr ⟨slot ▸ absent', linked'⟩
    · exact .inr ⟨absent, child,
        (second.forest.slots isTable₁ (by rw [linked]; simp)).trans linked⟩
  below := by
    intro table unused
    by_cases middle : level₁ table = 0
    · exact second.below middle
    · rw [second.forest.levels middle]
      exact first.below unused
  fresh := by
    intro table unused used
    by_cases middle : level₁ table = 0
    · obtain ⟨frame, isFree, rfl⟩ := second.fresh middle used
      exact ⟨frame, (first.free.mp isFree).1, rfl⟩
    · exact first.fresh unused middle
  hung := by
    intro table unused used
    by_cases middle : level₁ table = 0
    · obtain ⟨root, path, isTable, reached⟩ := second.hung middle used
      by_cases rootOld : level root = 0
      · obtain ⟨root', path', isTable', reached'⟩ := first.hung rootOld isTable
        have toRoot := second.forest.descents (by rwa [first.forest.levels isTable']) reached'
        refine ⟨root', path' ++ path, isTable', ?_⟩
        rw [Store.descend_append, toRoot]
        exact reached
      · exact ⟨root, path, rootOld, reached⟩
    · obtain ⟨root, path, isTable, reached⟩ := first.hung unused middle
      exact ⟨root, path, isTable,
        second.forest.descents (by rwa [first.forest.levels isTable]) reached⟩
  free := by
    intro frame
    rw [second.free, first.free]
    constructor
    · rintro ⟨⟨isFree, _⟩, unused⟩
      exact ⟨isFree, unused⟩
    · rintro ⟨isFree, unused⟩
      refine ⟨⟨isFree, ?_⟩, unused⟩
      by_contra used
      exact used (by rw [← second.forest.levels used, unused])
  bytes := by
    intro address unused inUse
    have middle : level₁ (address / 4096 * 4096) = 0 := by
      by_contra used
      exact used (by rw [← second.forest.levels used, unused])
    rw [second.bytes unused fun free => inUse (first.free.mp free).1, first.bytes middle inUse]
  valid before := second.valid (first.valid before)
  rest := by
    rw [second.rest, first.rest]

/-- Growing keeps the invariant fields that do not depend on new tables. -/
theorem Grown.paging (grown : Grown k level k' level') (paging : Paging k spaces level identity)
    (shape : Shape (tables k'.mem level') level' 4 Shared) : Paging k' spaces level' identity where
  shape := shape
  root := by
    intro table
    rw [← paging.root]
    by_cases old : level table = 0
    · have := grown.below old
      omega
    · rw [grown.forest.levels old]
  bounded := by
    intro table
    by_cases old : level table = 0
    · have := grown.below old
      omega
    · rw [grown.forest.levels old]
      exact paging.bounded table
  rooted := by
    intro table isTable
    have old : ∀ {node}, level node ≠ 0 → ∃ space ∈ spaces, ∃ path,
        (tables k'.mem level').descend space path = some node := by
      intro node isNode
      obtain ⟨space, known, path, reached⟩ := paging.rooted isNode
      have rootLevel := paging.rootLevel known
      exact ⟨space, known, path, grown.forest.descents (by omega) reached⟩
    by_cases new : level table = 0
    · obtain ⟨root, path, isRoot, reached⟩ := grown.hung new isTable
      obtain ⟨space, known, path', reached'⟩ := old isRoot
      refine ⟨space, known, path' ++ path, ?_⟩
      rw [Store.descend_append, reached']
      exact reached
    · exact old new
  frame := by
    intro table isTable
    by_cases old : level table = 0
    · obtain ⟨frame, isFree, rfl⟩ := grown.fresh old isTable
      refine ⟨frame, ?_, (mem_freeSet.mp isFree).1, rfl, fun still => ?_⟩
      · rintro rfl
        exact paging.reserved isFree
      · exact isTable (grown.free.mp still).2
    · obtain ⟨frame, nonzero, small, rfl, used⟩ := paging.frame old
      exact ⟨frame, nonzero, small, rfl, fun still => used (grown.free.mp still).1⟩
  kernel := by rw [grown.rest]; exact paging.kernel
  current := by rw [grown.rest]; exact paging.current
  reserved := fun isFree => paging.reserved (grown.free.mp isFree).1
  window := by
    intro space known
    have rootLevel := paging.rootLevel known
    exact grown.forest.descents (by omega) (paging.window known)
  huge := by
    intro table index entry isTable upper slot
    obtain ⟨old, oldSlot⟩ := grown.forest.pages isTable slot
    rw [grown.forest.levels old] at upper
    exact paging.huge old upper oldSlot

theorem Grown.kernelSpace (grown : Grown k level k' level') : k'.kernelSpace = k.kernelSpace := by
  rw [grown.rest]

/-- A frame that was taken before the growth does not become a table. -/
theorem Grown.dataFrame_unused (grown : Grown k level k' level')
    (unused : level (frame * pmmFrameSize) = 0) (taken : frame ∉ freeSet k.pmm.bitmap) :
    level' (frame * pmmFrameSize) = 0 := by
  by_contra isTable
  obtain ⟨other, free, same⟩ := grown.fresh unused isTable
  have : frame = other := by simp only [pmmFrameSize] at same; omega
  exact taken (this ▸ free)

/-- A slot that was absent and holds a table after the growth holds a fresh one. -/
theorem Grown.link_fresh (grown : Grown k level k' level') (paging : Paging k spaces level identity)
    (shape : Shape (tables k'.mem level') level' 4 Shared) {child : Nat} (isTable : level table ≠ 0)
    (absent : tables k.mem level table index = .absent)
    (linked : tables k'.mem level' table index = .table child) (below : level table ≠ 4) :
    level child = 0 := by
  by_contra old
  have isTable' : level' table ≠ 0 := by rwa [grown.forest.levels isTable]
  have childLevel := shape.child isTable' linked
  have bounded := paging.bounded table
  rw [grown.forest.levels isTable, grown.forest.levels old] at childLevel
  obtain ⟨space, known, path, reached⟩ := paging.rooted old
  have rootLevel := paging.rootLevel known
  rcases List.eq_nil_or_concat path with rfl | ⟨init, last, rfl⟩
  · cases reached
    omega
  · rw [List.concat_eq_append] at reached
    obtain ⟨parent, toParent, slot⟩ := Store.descend_snoc.mp reached
    have parentTable := (paging.shape.descend_level (by omega) toParent).1
    have kept := grown.forest.keeps.links parentTable slot
    obtain ⟨rfl, rfl | ⟨top, _⟩⟩ :=
      shape.parent isTable' (by rwa [grown.forest.levels parentTable]) linked kept
    · rw [absent] at slot
      cases slot
    · rw [grown.forest.levels isTable] at top
      exact below top

/-- Linking a fresh table is a growth. -/
theorem Paging.linkTable_grown (paging : Paging k spaces level identity) (upper : 2 ≤ level table)
    (absent : tables k.mem level table index = .absent) (free : frame ∈ freeSet k.pmm.bitmap)
    (alloc : pmmAllocFrame k.pmm = (pmmTake k.pmm frame, frame * pmmFrameSize)) :
    Grown k level (linkTable k table index frame) (linkLevel level table frame) := by
  have link := paging.link upper absent free
  have freshLevel := link.freshLevel
  refine
    { forest := link.grows paging.shape, entries := ?_, below := ?_, fresh := ?_, hung := ?_, free := ?_,
      bytes := ?_, valid := ?_, rest := rfl }
  · intro other index' isTable
    by_cases here : other = table ∧ index' = index
    · obtain ⟨rfl, rfl⟩ := here
      exact .inr ⟨absent, _, link.linked⟩
    · have elsewhere : other ≠ table ∨ index' ≠ index := by
        by_contra both
        push Not at both
        exact here both
      exact .inl (paging.linkTable_others (by omega) free isTable elsewhere)
  · intro other unused
    by_cases isFresh : other = frame * pmmFrameSize
    · have bounded := paging.bounded table
      rw [isFresh]
      omega
    · rw [link.levels isFresh]
      omega
  · intro other unused used
    by_cases isFresh : other = frame * pmmFrameSize
    · exact ⟨frame, free, isFresh⟩
    · rw [link.levels isFresh] at used
      exact absurd unused used
  · intro other unused used
    have isFresh : other = frame * pmmFrameSize := by
      by_contra old
      rw [link.levels old] at used
      exact used unused
    refine ⟨table, [index], by omega, ?_⟩
    rw [isFresh, Store.descend_table link.linked, Store.descend]
  · intro other
    simp only [linkTable, pmmTake, freeSet_set, Finset.mem_erase]
    constructor
    · rintro ⟨different, isFree⟩
      refine ⟨isFree, ?_⟩
      rw [link.levels (by simp only [pmmFrameSize]; omega)]
      exact paging.not_free isFree
    · rintro ⟨isFree, unused⟩
      refine ⟨?_, isFree⟩
      rintro rfl
      omega
  · intro address unused _
    have tableAligned := paging.aligned (show level table ≠ 0 by omega)
    have bound := index.isLt
    have outside : ∀ {other}, linkLevel level table frame other ≠ 0 → other % 4096 = 0 →
        address < other ∨ other + 4096 ≤ address := by
      intro other used aligned
      by_contra inside
      have : address / 4096 * 4096 = other := by omega
      exact used (this ▸ unused)
    refine linkTable_mem (outside (by omega) (by simp [pmmFrameSize])) ?_
    have kept : linkLevel level table frame table ≠ 0 := by
      rw [link.levels (link.ne_fresh (by omega))]
      omega
    have := outside kept tableAligned.1
    omega
  · intro valid
    have next := valid.alloc
    rwa [alloc] at next

end Grown

/-- Why a walk stage stops at a slot: there is no table and none is made, or
the slot holds a large page. -/
def Blocked (k : Kernel) (level : Nat → Nat) (table : Nat) (index : Fin 512) (create : Bool) : Prop :=
  (tables k.mem level table index = .absent ∧
      (create = false ∨ (pmmAllocFrame k.pmm).2 = 0)) ∨
    ∃ entry, tables k.mem level table index = .page entry

/-- The stages of `vm_walk` along a path of indices. -/
def walkTables (k : Kernel) (table : Nat) : List (Fin 512) → Bool → Kernel × Option Nat
  | [], _ => (k, some table)
  | index :: rest, create =>
      match vmWalkLevel k (table + 8 * index) create with
      | (k, none) => (k, none)
      | (k, some next) => walkTables k next rest create

/-- `vm_walk` runs its three stages along the upper path of the address. -/
theorem vmWalk_eq (k : Kernel) (space va : Nat) (create : Bool) :
    vmWalk k space va create =
      if space = 0 then (k, 0)
      else
        match walkTables k space (upperPath va) create with
        | (k, none) => (k, 0)
        | (k, some table) => (k, table + 8 * leafIndex va) := by
  unfold vmWalk
  split
  · rfl
  simp only [upperPath, walkTables, pml4Index, pdptIndex, pdIndex]
  rcases vmWalkLevel k (space + 8 * (va >>> 39 &&& 511)) create with ⟨k₁, _ | pdpt⟩
  · rfl
  simp only
  rcases vmWalkLevel k₁ (pdpt + 8 * (va >>> 30 &&& 511)) create with ⟨k₂, _ | pd⟩
  · rfl
  simp only
  rcases vmWalkLevel k₂ (pd + 8 * (va >>> 21 &&& 511)) create with ⟨k₃, _ | pt⟩ <;> rfl

section Walk

variable {k : Kernel} {spaces : List Nat} {level : Nat → Nat} {identity table : Nat}

/-- What one stage of the walk can do: follow a table, link a fresh one, or stop. -/
theorem Paging.vmWalkLevel_cases (paging : Paging k spaces level identity)
    (upper : 2 ≤ level table) (index : Fin 512) (create : Bool) :
    (∃ child, tables k.mem level table index = .table child ∧
      vmWalkLevel k (table + 8 * index) create = (k, some child)) ∨
    (∃ frame ∈ freeSet k.pmm.bitmap, tables k.mem level table index = .absent ∧ create = true ∧
      pmmAllocFrame k.pmm = (pmmTake k.pmm frame, frame * pmmFrameSize) ∧
      vmWalkLevel k (table + 8 * index) create =
        (linkTable k table index frame, some (frame * pmmFrameSize))) ∨
    (Blocked k level table index create ∧ vmWalkLevel k (table + 8 * index) create = (k, none)) := by
  unfold vmWalkLevel
  rw [← entryAt]
  by_cases absent : entryAt k.mem table index &&& vmPtePresent = 0
  · have slot : tables k.mem level table index = .absent := decode_eq_absent.mpr absent
    cases create with
    | false => exact .inr (.inr ⟨.inl ⟨slot, .inl rfl⟩, by simp only [if_pos absent]; rfl⟩)
    | true =>
        rcases pmmAllocFrame_cases k.pmm with ⟨frame, free, taken⟩ | failed
        · have nonzero : frame ≠ 0 := by
            rintro rfl
            exact paging.reserved free
          have inRange := (mem_freeSet.mp free).1
          have written := linkTable_entry k table index inRange
          simp only [pmmFrameCount, pmmMaxPhys, pmmFrameSize] at inRange
          have entry : (frame * pmmFrameSize &&& vmAddrMask) ||| vmPtePresent ||| vmPteWrite =
              frame * pmmFrameSize + 3 :=
            tableEntry_eq (by simp [pmmFrameSize]) (by simp only [pmmFrameSize]; omega)
          have address : frame * pmmFrameSize + 3 &&& vmAddrMask = frame * pmmFrameSize := by
            rw [addrMask_eq]
            simp only [pmmFrameSize]
            omega
          have notNull : frame * pmmFrameSize ≠ 0 := by simpa [pmmFrameSize] using nonzero
          refine .inr (.inl ⟨frame, free, slot, rfl, taken, ?_⟩)
          rw [Kernel.allocFrame_eq taken]
          simp only [if_pos absent, if_true, if_neg notNull, entry]
          rw [entryAt, linkTable] at written
          rw [written, address, linkTable]
        · refine .inr (.inr ⟨.inl ⟨slot, .inr (by rw [failed])⟩, ?_⟩)
          rw [Kernel.allocFrame_eq failed]
          simp only [if_pos absent, if_true]
  · by_cases huge : entryAt k.mem table index &&& vmPteHuge ≠ 0
    · refine .inr (.inr ⟨.inr ⟨_, decode_eq_page.mpr ⟨absent, .inr huge, rfl⟩⟩, ?_⟩)
      simp only [if_neg absent, if_pos huge]
    · refine .inl ⟨_, decode_eq_table.mpr ⟨absent, by omega, not_not.mp huge, rfl⟩, ?_⟩
      simp only [if_neg absent, if_neg huge]

/-- A walk that makes no tables is a descent in the forest. -/
theorem Paging.walkTables_false (paging : Paging k spaces level identity) (path : List (Fin 512))
    (lengths : path.length < level table) :
    walkTables k table path false = (k, (tables k.mem level).descend table path) := by
  induction path generalizing table with
  | nil => rfl
  | cons index rest ih =>
      simp only [List.length_cons] at lengths
      rw [walkTables, Store.descend]
      rcases paging.vmWalkLevel_cases (show 2 ≤ level table by omega) index false with
        ⟨child, slot, run⟩ | ⟨_, _, _, impossible, _⟩ | ⟨blocked, run⟩
      · have below := (paging.shape.child (by omega) slot).2
        rw [run, slot]
        exact ih (by omega)
      · cases impossible
      · rw [run]
        rcases blocked with ⟨slot, _⟩ | ⟨_, slot⟩ <;> rw [slot]

/-- How a walk from `k` to `k'` ends: at the table below the whole path, or at
a blocked slot on it. Each stage takes at most one frame, a stopping one none. -/
def WalkOutcome (k k' : Kernel) (level : Nat → Nat) (table : Nat) (path : List (Fin 512))
    (create : Bool) : Option Nat → Prop
  | some bottom => (tables k'.mem level).descend table path = some bottom ∧
      k.pmm.freeFrames ≤ k'.pmm.freeFrames + path.length
  | none => ∃ init index rest node, path = init ++ index :: rest ∧
      (tables k'.mem level).descend table init = some node ∧
      Blocked k' level node index create ∧
      k.pmm.freeFrames < k'.pmm.freeFrames + path.length

/-- A walk below a table slot is a walk through it. -/
theorem WalkOutcome.cons {k₁ k' : Kernel} {child : Nat} {index : Fin 512}
    {rest : List (Fin 512)} {create : Bool} {result : Option Nat}
    (outcome : WalkOutcome k₁ k' level child rest create result)
    (slot : tables k'.mem level table index = .table child)
    (spent : k.pmm.freeFrames ≤ k₁.pmm.freeFrames + 1) :
    WalkOutcome k k' level table (index :: rest) create result := by
  cases result with
  | some bottom =>
      obtain ⟨reached, frames⟩ := outcome
      refine ⟨by rwa [Store.descend_table slot], ?_⟩
      rw [List.length_cons]
      omega
  | none =>
      obtain ⟨init, stop, after, node, rfl, reached, blocked, frames⟩ := outcome
      refine ⟨index :: init, stop, after, node, rfl, ?_, blocked, ?_⟩
      · rwa [Store.descend_table slot]
      · rw [List.length_cons]
        omega

/-- Below the old tables, new links appear only along the path of the walk. -/
def LinksAlong (k : Kernel) (level : Nat → Nat) (k' : Kernel) (level' : Nat → Nat) (table : Nat)
    (path : List (Fin 512)) : Prop :=
  ∀ {node index child}, level node ≠ 0 → tables k.mem level node index = .absent →
    tables k'.mem level' node index = .table child →
      ∃ init rest, path = init ++ index :: rest ∧
        (tables k'.mem level').descend table init = some node

theorem LinksAlong.refl (k : Kernel) (level : Nat → Nat) (table : Nat) (path : List (Fin 512)) :
    LinksAlong k level k level table path := by
  intro node index child _ absent linked
  rw [absent] at linked
  cases linked

/-- Links along the path below a child lie along the path through it. -/
theorem LinksAlong.cons {k' : Kernel} {level' : Nat → Nat} {child : Nat} {index : Fin 512}
    {rest : List (Fin 512)} (along : LinksAlong k level k' level' child rest)
    (slot : tables k'.mem level' table index = .table child) :
    LinksAlong k level k' level' table (index :: rest) := by
  intro node index' child' isTable absent linked
  obtain ⟨init, after, rfl, reached⟩ := along isTable absent linked
  exact ⟨index :: init, after, rfl, by rwa [Store.descend_table slot]⟩

/-- A walk keeps the invariant and grows the forest. -/
theorem Paging.walkTables_spec (paging : Paging k spaces level identity) (create : Bool)
    (path : List (Fin 512)) (lengths : path.length < level table) :
    ∃ level', Paging (walkTables k table path create).1 spaces level' identity ∧
      Grown k level (walkTables k table path create).1 level' ∧
      LinksAlong k level (walkTables k table path create).1 level' table path ∧
      WalkOutcome k (walkTables k table path create).1 level' table path create
        (walkTables k table path create).2 := by
  induction path generalizing k level table with
  | nil => exact ⟨level, paging, .refl paging, LinksAlong.refl k level table [], rfl,
      by simp [walkTables]⟩
  | cons index rest ih =>
      simp only [List.length_cons] at lengths
      rw [walkTables]
      rcases paging.vmWalkLevel_cases (show 2 ≤ level table by omega) index create with
        ⟨child, slot, run⟩ | ⟨frame, free, slot, _, alloc, run⟩ | ⟨blocked, run⟩
      · have below := (paging.shape.child (by omega) slot).2
        obtain ⟨level', paging', grown, along, outcome⟩ :=
          ih paging (show rest.length < level child by omega)
        rw [run]
        have kept : tables (walkTables k child rest create).1.mem level' table index =
            .table child :=
          (grown.forest.slots (by omega) (by rw [slot]; simp)).trans slot
        exact ⟨level', paging', grown, along.cons kept, outcome.cons kept (by omega)⟩
      · have link := paging.link (by omega) slot free
        have linked := paging.linkTable_grown (by omega) slot free alloc
        have freshLevel := link.freshLevel
        obtain ⟨level', paging', grown, along, outcome⟩ :=
          ih (linked.paging paging (link.shape paging.shape))
            (show rest.length < linkLevel level table frame (frame * pmmFrameSize) by omega)
        rw [run]
        have isTable : linkLevel level table frame table ≠ 0 := by
          rw [link.levels (link.ne_fresh (by omega))]
          omega
        have kept : tables (walkTables (linkTable k table index frame)
            (frame * pmmFrameSize) rest create).1.mem level' table index =
              .table (frame * pmmFrameSize) :=
          (grown.forest.slots isTable (by rw [link.linked]; simp)).trans link.linked
        refine ⟨level', paging', linked.trans grown, ?_, outcome.cons kept ?_⟩
        · intro node index' child isNode wasAbsent isLinked
          by_cases here : node = table ∧ index' = index
          · obtain ⟨rfl, rfl⟩ := here
            exact ⟨[], rest, rfl, rfl⟩
          · have elsewhere : node ≠ table ∨ index' ≠ index := by
              by_contra both
              push Not at both
              exact here both
            refine along.cons kept ?_ ((link.same isNode elsewhere).trans wasAbsent) isLinked
            rwa [link.levels (link.ne_fresh isNode)]
        · simp only [linkTable_pmm, pmmTake]
          omega
      · rw [run]
        refine ⟨level, paging, .refl paging, LinksAlong.refl k level table _, [], index, rest, table,
          rfl, rfl, blocked, ?_⟩
        simp

end Walk

end GodOs
