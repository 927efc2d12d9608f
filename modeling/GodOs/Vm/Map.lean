import GodOs.Vm.Walk

/-!
# Mapping and unmapping a page

`vmMap_cases` and `vmUnmap_cases` say what the two operations can do: refuse,
or walk (growing the forest) and write one leaf slot. `lookup_writeLeaf_other`
and `lookup_writeLeaf_private` bound what a leaf write can be seen by.
-/

namespace GodOs

open Lib Lib.Forest

/-- The upper path of an address leads to a bottom table. -/
theorem Paging.bottomLevel {k : Kernel} {spaces : List Nat} {level : Nat → Nat}
    {identity space va bottom : Nat} (paging : Paging k spaces level identity)
    (known : space ∈ spaces)
    (reached : (tables k.mem level).descend space (upperPath va) = some bottom) :
    level bottom = 1 := by
  have rootLevel := paging.rootLevel known
  have below := paging.shape.descend_level (by omega) reached
  rw [upperPath_length, rootLevel] at below
  omega

/-- Overwrite one entry of a bottom table. -/
def writeLeaf (k : Kernel) (table index value : Nat) : Kernel :=
  { k with mem := k.mem.store (table + 8 * index) 8 value }

section Leaf

variable {k : Kernel} {spaces : List Nat} {level : Nat → Nat} {identity table : Nat}
  {index : Fin 512}

theorem writeLeaf_mem {value address : Nat}
    (outside : address < table + 8 * index ∨ table + 8 * index + 8 ≤ address) :
    (writeLeaf k table index value).mem address = k.mem address :=
  Memory.store_outside outside

/-- A leaf write leaves the bytes of every other frame alone. -/
theorem Paging.writeLeaf_bytes (paging : Paging k spaces level identity) (bottom : level table = 1)
    {value address : Nat} (unused : level (address / 4096 * 4096) = 0) :
    (writeLeaf k table index value).mem address = k.mem address := by
  have aligned := paging.aligned (show level table ≠ 0 by omega)
  have bound := index.isLt
  have different : address / 4096 * 4096 ≠ table := by
    rintro rfl
    omega
  exact writeLeaf_mem (by omega)

/-- A leaf write leaves every other entry of a table alone. -/
theorem Paging.writeLeaf_others (paging : Paging k spaces level identity) (bottom : level table = 1)
    {value other : Nat} {index' : Fin 512} (isTable : level other ≠ 0)
    (elsewhere : other ≠ table ∨ index' ≠ index) :
    entryAt (writeLeaf k table index value).mem other index' = entryAt k.mem other index' := by
  have aligned := paging.aligned isTable
  have tableAligned := paging.aligned (show level table ≠ 0 by omega)
  have bound := index.isLt
  have otherBound := index'.isLt
  have outside : other + 8 * index'.val + 8 ≤ table + 8 * index.val ∨
      table + 8 * index.val + 8 ≤ other + 8 * index'.val := by
    rcases elsewhere with otherTable | otherIndex
    · omega
    · have : index'.val ≠ index.val := fun same => otherIndex (Fin.ext same)
      omega
  exact Memory.load_store_disjoint outside

/-- What a leaf write does to the forest of tables. -/
theorem Paging.setLeaf (paging : Paging k spaces level identity) (bottom : level table = 1)
    (index : Fin 512) (value : Nat) :
    SetLeaf (tables k.mem level) level (tables (writeLeaf k table index value).mem level)
      table index (decode 1 (u64 value)) where
  bottom := bottom
  leaf := by
    intro child slot
    exact (decode_eq_table.mp slot).2.1 rfl
  written := by
    have entry : entryAt (writeLeaf k table index value).mem table index = u64 value := by
      rw [entryAt, writeLeaf, Memory.load_store_same]
      rfl
    rw [tables, entry, bottom]
  same := by
    intro other index' isTable elsewhere
    rw [tables, tables, paging.writeLeaf_others bottom isTable elsewhere]

/-- Writing a leaf keeps the invariant, whatever is written. -/
theorem Paging.leaf (paging : Paging k spaces level identity) (bottom : level table = 1)
    (index : Fin 512) (value : Nat) :
    Paging (writeLeaf k table index value) spaces level identity where
  shape := (paging.setLeaf bottom index value).shape paging.shape
  root := paging.root
  bounded := paging.bounded
  rooted := by
    intro other isTable
    obtain ⟨space, known, path, reached⟩ := paging.rooted isTable
    have rootLevel := paging.rootLevel known
    refine ⟨space, known, path, ?_⟩
    rwa [(paging.setLeaf bottom index value).descend paging.shape (by omega)]
  frame := paging.frame
  kernel := paging.kernel
  current := paging.current
  reserved := paging.reserved
  window := by
    intro space known
    have rootLevel := paging.rootLevel known
    rw [(paging.setLeaf bottom index value).descend paging.shape (by omega)]
    exact paging.window known
  huge := by
    intro other index' entry isTable upper slot
    have different : other ≠ table := by
      rintro rfl
      exact upper bottom
    rw [(paging.setLeaf bottom index value).same isTable (.inl different)] at slot
    exact paging.huge isTable upper slot

theorem Paging.invlpg (paging : Paging k spaces level identity) (va : Nat) :
    Paging (vmInvlpg k va) spaces level identity :=
  { paging with }

section Lookup

variable {space other va va' value : Nat}

/-- A leaf written below one space is invisible at every other path, in every space. -/
theorem Paging.lookup_writeLeaf_other (paging : Paging k spaces level identity)
    (known : space ∈ spaces) (knownOther : other ∈ spaces) (bottom : level table = 1)
    (reached : (tables k.mem level).descend space (upperPath va) = some table)
    (different : path va' ≠ path va) :
    (tables (writeLeaf k table (leafIndex va) value).mem level).lookup other (path va') =
      (tables k.mem level).lookup other (path va') := by
  have rootLevel := paging.rootLevel known
  have otherLevel := paging.rootLevel knownOther
  refine (paging.setLeaf bottom (leafIndex va) value).lookup_miss paging.shape (by omega)
    (by rw [otherLevel]; exact Nat.le_refl 4) ?_
  intro init split hit
  rw [path_eq] at split
  obtain ⟨rfl, sameLeaf⟩ := List.append_inj' split rfl
  have unique := (paging.shape.descend_unique (by decide) rootLevel otherLevel reached hit rfl).1
  exact different (by rw [path_eq, path_eq, unique, List.singleton_inj.mp sameLeaf])

/-- A leaf written below a private PML4 slot of one space is invisible in every
other space. -/
theorem Paging.lookup_writeLeaf_private (paging : Paging k spaces level identity)
    (known : space ∈ spaces) (knownOther : other ∈ spaces) (bottom : level table = 1)
    (reached : (tables k.mem level).descend space (upperPath va) = some table)
    (different : other ≠ space) (notShared : ¬ Shared ⟨pml4Index va, pml4Index_lt va⟩) :
    (tables (writeLeaf k table (leafIndex va) value).mem level).lookup other (path va') =
      (tables k.mem level).lookup other (path va') := by
  have rootLevel := paging.rootLevel known
  have otherLevel := paging.rootLevel knownOther
  refine (paging.setLeaf bottom (leafIndex va) value).lookup_miss paging.shape (by omega)
    (by rw [otherLevel]; exact Nat.le_refl 4) ?_
  intro init split hit
  rw [path_eq] at split
  obtain ⟨rfl, _⟩ := List.append_inj' split rfl
  rcases (paging.shape.descend_unique (by decide) rootLevel otherLevel reached hit rfl).2 with
    same | ⟨index, rest, head, shared⟩
  · exact different same.symm
  · rw [upperPath, List.cons.injEq] at head
    exact notShared (head.1 ▸ shared)

/-- The written path itself. -/
theorem Paging.lookup_writeLeaf_self (paging : Paging k spaces level identity)
    (known : space ∈ spaces) (bottom : level table = 1)
    (reached : (tables k.mem level).descend space (upperPath va) = some table) :
    (tables (writeLeaf k table (leafIndex va) value).mem level).lookup space (path va) =
      (decode 1 (u64 value)).value?.map fun entry => (entry, []) := by
  have rootLevel := paging.rootLevel known
  rw [path_eq]
  exact (paging.setLeaf bottom (leafIndex va) value).lookup_hit paging.shape (by omega) reached

end Lookup

end Leaf

/-- The arguments that `vm_map` does not refuse at once. -/
structure MapGuards (va pa : Nat) : Prop where
  vaAligned : va % 4096 = 0
  paAligned : pa % 4096 = 0
  paBelow : pa < 2 ^ 30
  vaAbove : 2 ^ 30 ≤ va

section Cases

variable {k : Kernel} {spaces : List Nat} {level : Nat → Nat} {identity space : Nat}

/-- Why `vm_map` refuses after its walk: the walk stopped, or the leaf is taken. -/
def MapRefused (k k' : Kernel) (level : Nat → Nat) (space va : Nat) : Prop :=
  WalkOutcome k k' level space (upperPath va) true none ∨
    ∃ bottom, WalkOutcome k k' level space (upperPath va) true (some bottom) ∧
      tables k'.mem level bottom (leafIndex va) ≠ .absent

private theorem page_offset (address : Nat) : address &&& (vmPageSize - 1) = address % 4096 :=
  Bits.and_low address 12

/-- The guards of `vm_map` are the four checks before its walk. -/
theorem vmMap_eq (notNull : space ≠ 0) (va pa flags : Nat) :
    (¬ MapGuards va pa ∧ vmMap k space va pa flags = (k, -1)) ∨
    (MapGuards va pa ∧ vmMap k space va pa flags =
      match walkTables k space (upperPath va) true with
      | (k, none) => (k, -1)
      | (k, some bottom) =>
          if bottom + 8 * (leafIndex va).val = 0 then (k, -1)
          else if k.mem.load (bottom + 8 * (leafIndex va).val) 8 &&& vmPtePresent ≠ 0 then (k, -1)
          else
            (vmInvlpg (writeLeaf k bottom (leafIndex va) ((pa &&& vmAddrMask) ||| flags)) va, 0)) := by
  unfold vmMap
  rw [if_neg notNull, page_offset, page_offset]
  by_cases misaligned : va % 4096 ≠ 0 ∨ pa % 4096 ≠ 0
  · rw [if_pos misaligned]
    exact .inl ⟨fun guards => by have := guards.vaAligned; have := guards.paAligned; omega, rfl⟩
  rw [if_neg misaligned]
  by_cases paHigh : pa ≥ pmmMaxPhys
  · rw [if_pos paHigh]
    exact .inl ⟨fun guards => by have := guards.paBelow; simp only [pmmMaxPhys] at paHigh; omega, rfl⟩
  rw [if_neg paHigh]
  by_cases vaLow : va < pmmMaxPhys
  · rw [if_pos vaLow]
    exact .inl ⟨fun guards => by have := guards.vaAbove; simp only [pmmMaxPhys] at vaLow; omega, rfl⟩
  rw [if_neg vaLow]
  simp only [pmmMaxPhys] at paHigh vaLow
  refine .inr ⟨⟨by omega, by omega, by omega, by omega⟩, ?_⟩
  rw [vmWalk_eq, if_neg notNull]
  rcases walkTables k space (upperPath va) true with ⟨k', _ | bottom⟩ <;> rfl

/-- What `vm_map` can do. -/
theorem Paging.vmMap_cases (paging : Paging k spaces level identity) (known : space ∈ spaces)
    (va pa flags : Nat) :
    (¬ MapGuards va pa ∧ vmMap k space va pa flags = (k, -1)) ∨
    (MapGuards va pa ∧ ∃ k' level', Paging k' spaces level' identity ∧ Grown k level k' level' ∧
      LinksAlong k level k' level' space (upperPath va) ∧
      ((MapRefused k k' level' space va ∧ vmMap k space va pa flags = (k', -1)) ∨
        ∃ bottom, WalkOutcome k k' level' space (upperPath va) true (some bottom) ∧
          tables k'.mem level' bottom (leafIndex va) = .absent ∧
          vmMap k space va pa flags =
            (vmInvlpg (writeLeaf k' bottom (leafIndex va) ((pa &&& vmAddrMask) ||| flags)) va,
              0))) := by
  have rootLevel := paging.rootLevel known
  have notNull : space ≠ 0 := by
    have := paging.aligned (show level space ≠ 0 by omega)
    omega
  rcases vmMap_eq notNull va pa flags with refused | ⟨guards, run⟩
  · exact .inl refused
  refine .inr ⟨guards, ?_⟩
  rw [run]
  obtain ⟨level', paging', grown, along, outcome⟩ :=
    paging.walkTables_spec true (upperPath va) (by rw [rootLevel, upperPath_length]; decide)
  refine ⟨_, level', paging', grown, along, ?_⟩
  rcases walk : walkTables k space (upperPath va) true with ⟨k', result⟩
  rw [walk] at paging' outcome
  cases result with
  | none => exact .inl ⟨.inl outcome, rfl⟩
  | some bottom =>
      have isBottom := paging'.bottomLevel known outcome.1
      have pteNotNull : bottom + 8 * (leafIndex va).val ≠ 0 := by
        have := paging'.aligned (show level' bottom ≠ 0 by omega)
        omega
      simp only [if_neg pteNotNull]
      by_cases taken : k'.mem.load (bottom + 8 * (leafIndex va).val) 8 &&& vmPtePresent ≠ 0
      · rw [if_pos taken]
        exact .inl ⟨.inr ⟨bottom, outcome, fun absent => taken (decode_eq_absent.mp absent)⟩, rfl⟩
      · rw [if_neg taken]
        exact .inr ⟨bottom, outcome, decode_eq_absent.mpr (not_not.mp taken), rfl⟩

/-- What `vm_unmap` can do. -/
theorem Paging.vmUnmap_cases (paging : Paging k spaces level identity) (known : space ∈ spaces)
    (va : Nat) :
    ((∀ bottom, (tables k.mem level).descend space (upperPath va) = some bottom →
        tables k.mem level bottom (leafIndex va) = .absent) ∧ vmUnmap k space va = (k, 0)) ∨
    ∃ bottom entry, (tables k.mem level).descend space (upperPath va) = some bottom ∧
      level bottom = 1 ∧ tables k.mem level bottom (leafIndex va) = .page entry ∧
      vmUnmap k space va =
        (vmInvlpg (writeLeaf k bottom (leafIndex va) 0) va, entry &&& vmAddrMask) := by
  have rootLevel := paging.rootLevel known
  have notNull : space ≠ 0 := by
    have := paging.aligned (show level space ≠ 0 by omega)
    omega
  unfold vmUnmap
  rw [if_neg notNull, vmWalk_eq, if_neg notNull,
    paging.walkTables_false (upperPath va) (by rw [rootLevel, upperPath_length]; decide)]
  cases reached : (tables k.mem level).descend space (upperPath va) with
  | none => exact .inl ⟨fun bottom found => (nomatch found), by simp⟩
  | some bottom =>
      have isBottom := paging.bottomLevel known reached
      have pteNotNull : bottom + 8 * (leafIndex va).val ≠ 0 := by
        have := paging.aligned (show level bottom ≠ 0 by omega)
        omega
      simp only [pteNotNull, false_or]
      by_cases absent : k.mem.load (bottom + 8 * (leafIndex va).val) 8 &&& vmPtePresent = 0
      · rw [if_pos absent]
        refine .inl ⟨fun other found => ?_, rfl⟩
        cases found
        exact decode_eq_absent.mpr absent
      · rw [if_neg absent]
        exact .inr ⟨bottom, _, rfl, isBottom, decode_eq_page.mpr ⟨absent, .inl isBottom, rfl⟩, rfl⟩

end Cases

end GodOs
