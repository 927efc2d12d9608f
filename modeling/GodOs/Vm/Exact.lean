import GodOs.Vm.Refinement

/-!
# What a walk costs

A walk that makes tables takes a frame for every level that is missing on its
path. `walkTables_count` says how many it takes and when it runs out, and
`walkTables_left` that every frame it takes is a table on the path, empty or
with the one entry that leads on.
-/

namespace GodOs

open Lib Lib.Forest

/-- The table that a path of indices leads to. -/
def tableOn (mem : Memory) : Nat → List (Fin 512) → Option Nat
  | table, [] => some table
  | table, index :: rest =>
      let entry := entryAt mem table index
      if entry &&& vmPtePresent = 0 then none
      else if entry &&& vmPteHuge ≠ 0 then none
      else tableOn mem (entry &&& vmAddrMask) rest

/-- The number of tables that are missing on a path, which has none when it meets
a large page. -/
def missingLevels (mem : Memory) : Nat → List (Fin 512) → Option Nat
  | _, [] => some 0
  | table, index :: rest =>
      let entry := entryAt mem table index
      if entry &&& vmPtePresent = 0 then some (rest.length + 1)
      else if entry &&& vmPteHuge ≠ 0 then none
      else missingLevels mem (entry &&& vmAddrMask) rest

/-- A table that is all zero, or has a single child at the next index of a path. -/
def LeadsOn (mem : Memory) (table : Nat) (rest : List (Fin 512)) : Prop :=
  (∀ index : Fin 512, entryAt mem table index = 0) ∨
    ∃ next child, rest.head? = some next ∧ tableOn mem table [next] = some child ∧
      ∀ index : Fin 512, index ≠ next → entryAt mem table index = 0

/-- A table newly linked on a path: a part of the path led nowhere and now leads
to the table, which does nothing but lead on. -/
def NewTable (mem mem' : Memory) (root : Nat) (path : List (Fin 512)) (table : Nat) : Prop :=
  ∃ init index rest, path = init ++ index :: rest ∧
    tableOn mem root (init ++ [index]) = none ∧
    tableOn mem' root (init ++ [index]) = some table ∧ LeadsOn mem' table rest

section Slots

variable {mem : Memory} {level : Nat → Nat} {table child : Nat} {index : Fin 512}
  {rest : List (Fin 512)}

theorem tableOn_table (slot : tables mem level table index = .table child) :
    tableOn mem table (index :: rest) = tableOn mem child rest := by
  obtain ⟨present, _, small, rfl⟩ := decode_eq_table.mp slot
  rw [tableOn]
  simp only [if_neg present, small, ne_eq, not_true_eq_false, if_false]

theorem tableOn_absent (slot : tables mem level table index = .absent) :
    tableOn mem table (index :: rest) = none := by
  rw [tableOn]
  simp only [if_pos (decode_eq_absent.mp slot)]

theorem tableOn_page {entry : Nat} (upper : level table ≠ 1)
    (slot : tables mem level table index = .page entry) :
    tableOn mem table (index :: rest) = none := by
  obtain ⟨present, large, _⟩ := decode_eq_page.mp slot
  rw [tableOn]
  simp only [if_neg present, ne_eq, large.resolve_left upper, not_false_eq_true, if_true]

theorem tableOn_empty (empty : entryAt mem table index = 0) :
    tableOn mem table (index :: rest) = none := by
  rw [tableOn, empty]
  rfl

theorem missingLevels_table (slot : tables mem level table index = .table child) :
    missingLevels mem table (index :: rest) = missingLevels mem child rest := by
  obtain ⟨present, _, small, rfl⟩ := decode_eq_table.mp slot
  rw [missingLevels]
  simp only [if_neg present, small, ne_eq, not_true_eq_false, if_false]

theorem missingLevels_absent (slot : tables mem level table index = .absent) :
    missingLevels mem table (index :: rest) = some (rest.length + 1) := by
  rw [missingLevels]
  simp only [if_pos (decode_eq_absent.mp slot)]

theorem missingLevels_page {entry : Nat} (upper : level table ≠ 1)
    (slot : tables mem level table index = .page entry) :
    missingLevels mem table (index :: rest) = none := by
  obtain ⟨present, large, _⟩ := decode_eq_page.mp slot
  rw [missingLevels]
  simp only [if_neg present, ne_eq, large.resolve_left upper, not_false_eq_true, if_true]

/-- An empty table misses the whole path. -/
theorem missingLevels_empty (empty : ∀ index : Fin 512, entryAt mem table index = 0) :
    missingLevels mem table rest = some rest.length := by
  cases rest with
  | nil => rfl
  | cons index rest =>
      rw [missingLevels, empty index]
      rfl

/-- What is missing on a path is missing behind the table that a part of it leads to. -/
theorem missingLevels_descend {init : List (Fin 512)}
    (reached : (tables mem level).descend table init = some child) :
    missingLevels mem table (init ++ rest) = missingLevels mem child rest := by
  induction init generalizing table with
  | nil => cases reached; rfl
  | cons index init ih =>
      rw [Store.descend] at reached
      split at reached
      next next slot => rw [List.cons_append, missingLevels_table slot, ih reached]
      next => cases reached

end Slots

section Paging

variable {k k' : Kernel} {spaces : List Nat} {level level' : Nat → Nat} {identity table : Nat}

/-- A path leads through tables up to its missing levels or to a large page. -/
theorem Paging.missingLevels_cases (paging : Paging k spaces level identity)
    (path : List (Fin 512)) (lengths : path.length < level table) :
    (∃ init rest node, path = init ++ rest ∧
      (tables k.mem level).descend table init = some node ∧
      missingLevels k.mem table path = some rest.length) ∨
    ∃ init index rest node entry, path = init ++ index :: rest ∧
      (tables k.mem level).descend table init = some node ∧
      tables k.mem level node index = .page entry := by
  induction path generalizing table with
  | nil => exact .inl ⟨[], [], table, rfl, rfl, rfl⟩
  | cons index rest ih =>
      rw [List.length_cons] at lengths
      cases slot : tables k.mem level table index with
      | absent => exact .inl ⟨[], index :: rest, table, rfl, rfl, missingLevels_absent slot⟩
      | page entry => exact .inr ⟨[], index, rest, table, entry, rfl, rfl, slot⟩
      | table child =>
          have below := (paging.shape.child (by omega) slot).2
          rcases ih (show rest.length < level child by omega) with
            ⟨init, rest, node, rfl, reached, levels⟩ |
              ⟨init, stop, rest, node, entry, rfl, reached, large⟩
          · exact .inl ⟨index :: init, rest, node, rfl, by rwa [Store.descend_table slot],
              (missingLevels_table slot).trans levels⟩
          · exact .inr ⟨index :: init, stop, rest, node, entry, rfl,
              by rwa [Store.descend_table slot], large⟩

/-- Outside the identity window at most three levels are missing. -/
theorem Paging.missingLevels_some {space va : Nat} (paging : Paging k spaces level identity)
    (known : space ∈ spaces) (outside : pml4Index va ≠ 0 ∨ pdptIndex va ≠ 0) :
    ∃ missing ≤ 3, missingLevels k.mem space (upperPath va) = some missing := by
  have root := paging.rootLevel known
  rcases paging.missingLevels_cases (upperPath va) (by rw [root, upperPath_length]; decide) with
    ⟨init, rest, _, split, _, levels⟩ | ⟨_, _, _, _, _, split, reached, large⟩
  · have lengths : init.length + rest.length = 3 := by
      rw [← List.length_append, ← split, upperPath_length]
    exact ⟨rest.length, by omega, levels⟩
  · exact absurd large (paging.no_large known outside split reached)

/-- Outside the identity window, tables that are kept leave no more levels missing. -/
theorem Paging.missingLevels_le {space va missing : Nat} (paging : Paging k spaces level identity)
    {spaces' : List Nat} (paging' : Paging k' spaces' level' identity) (known : space ∈ spaces)
    (known' : space ∈ spaces') (outside : pml4Index va ≠ 0 ∨ pdptIndex va ≠ 0)
    (keeps : Keeps (tables k.mem level) level (tables k'.mem level') level')
    (levels : missingLevels k.mem space (upperPath va) = some missing) :
    ∃ missing' ≤ missing, missingLevels k'.mem space (upperPath va) = some missing' := by
  have root := paging.rootLevel known
  have root' := paging'.rootLevel known'
  rcases paging.missingLevels_cases (upperPath va) (by rw [root, upperPath_length]; decide) with
    ⟨init, rest, node, split, reached, before⟩ | ⟨_, _, _, _, _, split, reached, large⟩
  · have kept := keeps.descend paging.shape (show level space ≠ 0 by omega) reached
    have nodeLevel := paging'.shape.descend_level (show level' space ≠ 0 by omega) kept
    have lengths : init.length + rest.length = 3 := by
      rw [← List.length_append, ← split, upperPath_length]
    obtain rfl : rest.length = missing := Option.some.inj (before.symm.trans levels)
    rcases paging'.missingLevels_cases rest (show rest.length < level' node by omega) with
      ⟨init', rest', _, rfl, _, after⟩ | ⟨init', index, rest', node', entry, rfl, reached', large⟩
    · refine ⟨rest'.length, by rw [List.length_append]; omega, ?_⟩
      rw [split, missingLevels_descend kept, after]
    · have through : (tables k'.mem level').descend space (init ++ init') = some node' := by
        rw [Store.descend_append, kept]
        exact reached'
      rw [← List.append_assoc] at split
      exact absurd large (paging'.no_large known' outside split through)
  · exact absurd large (paging.no_large known outside split reached)

/-- Memory with the same slots leads along the same tables. -/
theorem Paging.tableOn_congr (paging : Paging k spaces level identity) {mem : Memory}
    (same : ∀ {node index}, level node ≠ 0 →
      tables mem level node index = tables k.mem level node index)
    (path : List (Fin 512)) (lengths : path.length < level table) :
    tableOn mem table path = tableOn k.mem table path := by
  induction path generalizing table with
  | nil => rfl
  | cons index rest ih =>
      rw [List.length_cons] at lengths
      have kept := @same table index (by omega)
      cases slot : tables k.mem level table index with
      | absent => rw [tableOn_absent slot, tableOn_absent (kept.trans slot)]
      | page entry =>
          rw [tableOn_page (by omega) slot, tableOn_page (by omega) (kept.trans slot)]
      | table child =>
          have below := (paging.shape.child (by omega) slot).2
          rw [tableOn_table slot, tableOn_table (kept.trans slot)]
          exact ih (by omega)

/-- Memory with the same slots misses the same levels. -/
theorem Paging.missingLevels_congr (paging : Paging k spaces level identity) {mem : Memory}
    (same : ∀ {node index}, level node ≠ 0 →
      tables mem level node index = tables k.mem level node index)
    (path : List (Fin 512)) (lengths : path.length < level table) :
    missingLevels mem table path = missingLevels k.mem table path := by
  induction path generalizing table with
  | nil => rfl
  | cons index rest ih =>
      rw [List.length_cons] at lengths
      have kept := @same table index (by omega)
      cases slot : tables k.mem level table index with
      | absent => rw [missingLevels_absent slot, missingLevels_absent (kept.trans slot)]
      | page entry =>
          rw [missingLevels_page (by omega) slot, missingLevels_page (by omega) (kept.trans slot)]
      | table child =>
          have below := (paging.shape.child (by omega) slot).2
          rw [missingLevels_table slot, missingLevels_table (kept.trans slot)]
          exact ih (by omega)

end Paging

section NewTable

variable {mem mem' : Memory} {level level' : Nat → Nat} {root child table : Nat} {index : Fin 512}
  {rest : List (Fin 512)}

/-- New tables on a path whose first step is kept are those on the rest of the path. -/
theorem newTable_kept (slot : tables mem level root index = .table child)
    (kept : tables mem' level' root index = .table child) :
    NewTable mem mem' root (index :: rest) table ↔ NewTable mem mem' child rest table := by
  constructor
  · rintro ⟨init, stop, after, split, missed, reached, contents⟩
    cases init with
    | nil =>
        obtain ⟨rfl, rfl⟩ := List.cons.inj split
        rw [List.nil_append, tableOn_table slot] at missed
        cases missed
    | cons first init =>
        obtain ⟨rfl, rfl⟩ := List.cons.inj split
        rw [List.cons_append, tableOn_table slot] at missed
        rw [List.cons_append, tableOn_table kept] at reached
        exact ⟨init, stop, after, rfl, missed, reached, contents⟩
  · rintro ⟨init, stop, after, rfl, missed, reached, contents⟩
    refine ⟨index :: init, stop, after, rfl, ?_, ?_, contents⟩
    · rwa [List.cons_append, tableOn_table slot]
    · rwa [List.cons_append, tableOn_table kept]

/-- New tables on a path whose first step is made: the table of the first step,
and those below it. -/
theorem newTable_linked {mid : Memory} (slot : tables mem level root index = .absent)
    (linked : tables mem' level' root index = .table child)
    (empty : ∀ other : Fin 512, entryAt mid child other = 0)
    (leads : LeadsOn mem' child rest) :
    NewTable mem mem' root (index :: rest) table ↔
      table = child ∨ NewTable mid mem' child rest table := by
  constructor
  · rintro ⟨init, stop, after, split, _, reached, contents⟩
    cases init with
    | nil =>
        obtain ⟨rfl, rfl⟩ := List.cons.inj split
        rw [List.nil_append, tableOn_table linked, tableOn] at reached
        cases reached
        exact .inl rfl
    | cons first init =>
        obtain ⟨rfl, rfl⟩ := List.cons.inj split
        rw [List.cons_append, tableOn_table linked] at reached
        refine .inr ⟨init, stop, after, rfl, ?_, reached, contents⟩
        cases init with
        | nil => exact tableOn_empty (empty stop)
        | cons second init => exact tableOn_empty (empty second)
  · rintro (rfl | ⟨init, stop, after, rfl, _, reached, contents⟩)
    · refine ⟨[], index, rest, rfl, tableOn_absent slot, ?_, leads⟩
      rw [List.nil_append, tableOn_table linked, tableOn]
    · refine ⟨index :: init, stop, after, rfl, tableOn_absent slot, ?_, contents⟩
      rwa [List.cons_append, tableOn_table linked]

theorem not_newTable_self : ¬ NewTable mem mem root rest table := by
  rintro ⟨init, index, after, _, missed, reached, _⟩
  rw [missed] at reached
  cases reached

end NewTable

/-- What a walk that makes tables costs: nothing when a large page stops it, a frame
for every missing level when the pool has them, and otherwise all there are, so
that fewer levels are missing afterwards. -/
inductive WalkCount (k k' : Kernel) (table : Nat) (path : List (Fin 512)) : Option Nat → Prop where
  | large (missing : missingLevels k.mem table path = none) (same : k' = k) :
      WalkCount k k' table path none
  | done {missing bottom : Nat} (levels : missingLevels k.mem table path = some missing)
      (count : k'.pmm.freeFrames + missing = k.pmm.freeFrames)
      (left : missingLevels k'.mem table path = some 0) : WalkCount k k' table path (some bottom)
  | short {missing : Nat} (levels : missingLevels k.mem table path = some missing)
      (empty : k'.pmm.freeFrames = 0) (few : k.pmm.freeFrames < missing)
      (left : missingLevels k'.mem table path = some (missing - k.pmm.freeFrames)) :
      WalkCount k k' table path none

section Walk

variable {k k' : Kernel} {spaces : List Nat} {level level' : Nat → Nat} {identity table child : Nat}
  {index : Fin 512} {rest : List (Fin 512)} {result : Option Nat}

/-- A walk through a kept table costs what it costs below the table. -/
theorem WalkCount.kept (cost : WalkCount k k' child rest result)
    (slot : tables k.mem level table index = .table child)
    (kept : tables k'.mem level' table index = .table child) :
    WalkCount k k' table (index :: rest) result := by
  cases cost with
  | large missing same => exact .large ((missingLevels_table slot).trans missing) same
  | done levels count left =>
      exact .done ((missingLevels_table slot).trans levels) count
        ((missingLevels_table kept).trans left)
  | short levels empty few left =>
      exact .short ((missingLevels_table slot).trans levels) empty few
        ((missingLevels_table kept).trans left)

/-- A walk through a table it makes costs one frame more. -/
theorem WalkCount.linked {k₁ : Kernel} (cost : WalkCount k₁ k' child rest result)
    (slot : tables k.mem level table index = .absent)
    (linked : tables k'.mem level' table index = .table child)
    (empty : ∀ other : Fin 512, entryAt k₁.mem child other = 0)
    (taken : k₁.pmm.freeFrames + 1 = k.pmm.freeFrames) :
    WalkCount k k' table (index :: rest) result := by
  have below : missingLevels k₁.mem child rest = some rest.length := missingLevels_empty empty
  have above : missingLevels k.mem table (index :: rest) = some (rest.length + 1) :=
    missingLevels_absent slot
  cases cost with
  | large missing _ =>
      rw [below] at missing
      cases missing
  | done levels count left =>
      rw [below] at levels
      cases levels
      exact .done above (by omega) ((missingLevels_table linked).trans left)
  | short levels empty few left =>
      rw [below] at levels
      cases levels
      refine .short above empty (by omega) ?_
      rw [missingLevels_table linked, left]
      congr 1
      omega

/-- The first stage of a walk that makes tables, with the walk that remains: it
follows a table that is kept, links an empty one that will only lead on, or stops. -/
inductive WalkStage (k k' : Kernel) (spaces : List Nat) (level : Nat → Nat) (identity table : Nat)
    (index : Fin 512) (rest : List (Fin 512)) (result : Option Nat) : Prop where
  | follow {child : Nat} {level' : Nat → Nat} (slot : tables k.mem level table index = .table child)
      (below : rest.length < level child) (run : walkTables k child rest true = (k', result))
      (kept : tables k'.mem level' table index = .table child)
  | link {frame : Nat} {level₁ level' : Nat → Nat} (free : frame ∈ freeSet k.pmm.bitmap)
      (slot : tables k.mem level table index = .absent)
      (paging : Paging (linkTable k table index frame) spaces level₁ identity)
      (valid : (linkTable k table index frame).pmm.Valid)
      (below : rest.length < level₁ (frame * pmmFrameSize))
      (run : walkTables (linkTable k table index frame) (frame * pmmFrameSize) rest true =
        (k', result))
      (linked : tables k'.mem level' table index = .table (frame * pmmFrameSize))
      (empty : ∀ other : Fin 512,
        entryAt (linkTable k table index frame).mem (frame * pmmFrameSize) other = 0)
      (leads : LeadsOn k'.mem (frame * pmmFrameSize) rest)
      (used : ∀ {other}, other ∈ freeSet k'.pmm.bitmap →
        other ∈ freeSet k.pmm.bitmap ∧ other ≠ frame)
  | stop (blocked : Blocked k level table index true) (same : k' = k) (none : result = none)

/-- A walk that starts at an empty table only makes it lead on. -/
theorem Paging.walkTables_leads (paging : Paging k spaces level identity)
    (below : rest.length < level table) (empty : ∀ index : Fin 512, entryAt k.mem table index = 0) :
    LeadsOn (walkTables k table rest true).1.mem table rest := by
  obtain ⟨level', paging', grown, along, _⟩ := paging.walkTables_spec true rest below
  have isTable : level table ≠ 0 := by omega
  have absent : ∀ index, tables k.mem level table index = .absent :=
    fun index => decode_eq_absent.mpr (by rw [empty index]; rfl)
  -- a new link of this table hangs at the first index of the path
  have head : ∀ {index child},
      tables (walkTables k table rest true).1.mem level' table index = .table child →
        rest.head? = some index := by
    intro index child linked
    obtain ⟨init, after, split, reached⟩ := along isTable (absent index) linked
    have levels := paging'.shape.descend_level (by rwa [grown.forest.levels isTable]) reached
    have atTop : init = [] := List.eq_nil_of_length_eq_zero (by omega)
    rw [split, atTop]
    rfl
  have changes := fun index => @Grown.entries _ _ _ _ grown table index isTable
  by_cases same : ∀ index : Fin 512, entryAt (walkTables k table rest true).1.mem table index = 0
  · exact .inl same
  · push Not at same
    obtain ⟨next, changed⟩ := same
    rcases changes next with kept | ⟨_, child, linked⟩
    · exact absurd (kept.trans (empty next)) changed
    · refine .inr ⟨next, child, head linked, ?_, fun other different => ?_⟩
      · rw [tableOn_table linked, tableOn]
      · rcases changes other with kept | ⟨_, child', linked'⟩
        · exact kept.trans (empty other)
        · exact absurd (Option.some.inj ((head linked').symm.trans (head linked))) different

/-- Every walk that makes tables begins with such a stage. -/
theorem Paging.walkTables_stage (paging : Paging k spaces level identity) (valid : k.pmm.Valid)
    (lengths : rest.length + 1 < level table) :
    WalkStage k (walkTables k table (index :: rest) true).1 spaces level identity table index rest
      (walkTables k table (index :: rest) true).2 := by
  rw [walkTables]
  rcases paging.vmWalkLevel_cases (show 2 ≤ level table by omega) index true with
    ⟨child, slot, run⟩ | ⟨frame, free, slot, _, alloc, run⟩ | ⟨blocked, run⟩
  · have below := (paging.shape.child (by omega) slot).2
    obtain ⟨level', _, grown, _⟩ :=
      paging.walkTables_spec true rest (show rest.length < level child by omega)
    rw [run]
    exact .follow slot (by omega) rfl
      ((grown.forest.slots (by omega) (by rw [slot]; simp)).trans slot)
  · have link := paging.link (by omega) slot free
    have linkGrown := paging.linkTable_grown (by omega) slot free alloc
    have paging₁ := linkGrown.paging paging (link.shape paging.shape)
    have freshLevel := link.freshLevel
    have below : rest.length < linkLevel level table frame (frame * pmmFrameSize) := by omega
    have isTable : linkLevel level table frame table ≠ 0 := by
      rw [link.levels (link.ne_fresh (by omega))]
      omega
    have empty : ∀ other : Fin 512,
        entryAt (linkTable k table index frame).mem (frame * pmmFrameSize) other = 0 := by
      intro other
      have tableAligned := paging.aligned (show level table ≠ 0 by omega)
      have different := link.ne_fresh (show level table ≠ 0 by omega)
      have bound := index.isLt
      refine linkTable_empty k other.isLt ?_
      simp only [pmmFrameSize] at different ⊢
      omega
    obtain ⟨level', _, grown, _⟩ := paging₁.walkTables_spec true rest below
    rw [run]
    refine .link free slot paging₁ ?_ below rfl
      ((grown.forest.slots isTable (by rw [link.linked]; simp)).trans link.linked) empty
      (paging₁.walkTables_leads below empty) fun still => ?_
    · have next := valid.alloc
      rwa [alloc] at next
    · have old := (grown.free.mp still).1
      simp only [linkTable_pmm, pmmTake, freeSet_set, Finset.mem_erase] at old
      exact ⟨old.2, old.1⟩
  · rw [run]
    exact .stop blocked rfl rfl

/-- The cost of every walk that makes tables. -/
theorem Paging.walkTables_count (paging : Paging k spaces level identity) (valid : k.pmm.Valid)
    (path : List (Fin 512)) (lengths : path.length < level table) :
    WalkCount k (walkTables k table path true).1 table path (walkTables k table path true).2 := by
  induction path generalizing k level table with
  | nil => exact .done rfl rfl rfl
  | cons index rest ih =>
      rw [List.length_cons] at lengths
      have stage := @Paging.walkTables_stage k spaces level identity table index rest paging valid lengths
      generalize final : walkTables k table (index :: rest) true = after at stage ⊢
      obtain ⟨k', result⟩ := after
      cases stage with
      | follow slot below run kept =>
          have cost := ih paging valid below
          rw [run] at cost
          exact cost.kept slot kept
      | @link frame level₁ level' free slot paging₁ valid₁ below run linked empty leads used =>
          have cost := ih paging₁ valid₁ below
          rw [run] at cost
          refine cost.linked slot linked empty ?_
          have nonempty := Finset.card_pos.mpr ⟨_, free⟩
          have count := valid.count
          simp only [linkTable_pmm, pmmTake]
          omega
      | stop blocked same none =>
          simp only at same none
          subst same none
          rcases blocked with ⟨slot, impossible | exhausted⟩ | ⟨entry, slot⟩
          · cases impossible
          · have empty := valid.alloc_zero_iff.mp exhausted
            refine .short (missingLevels_absent slot) empty (by omega) ?_
            rw [missingLevels_absent slot, empty]
            rfl
          · exact .large (missingLevels_page (by omega) slot) rfl

/-- The frames that a walk takes from the pool are the tables newly linked on its path. -/
theorem Paging.walkTables_left (paging : Paging k spaces level identity) (valid : k.pmm.Valid)
    (path : List (Fin 512)) (lengths : path.length < level table) {frame : Nat} :
    frame ∈ freeSet k.pmm.bitmap ∧
        frame ∉ freeSet (walkTables k table path true).1.pmm.bitmap ↔
      NewTable k.mem (walkTables k table path true).1.mem table path (frame * pmmFrameSize) := by
  induction path generalizing k level table with
  | nil =>
      rw [walkTables]
      exact ⟨fun left => absurd left.1 left.2, fun made => absurd made not_newTable_self⟩
  | cons index rest ih =>
      rw [List.length_cons] at lengths
      have stage := @Paging.walkTables_stage k spaces level identity table index rest paging valid lengths
      generalize final : walkTables k table (index :: rest) true = after at stage ⊢
      obtain ⟨k', result⟩ := after
      cases stage with
      | follow slot below run kept =>
          have left := ih paging valid below
          rw [run] at left
          rw [newTable_kept slot kept]
          exact left
      | @link made level₁ level' free slot paging₁ valid₁ below run linked empty leads used =>
          have left := ih paging₁ valid₁ below
          rw [run] at left
          rw [newTable_linked slot linked empty leads, ← left]
          simp only [linkTable_pmm, pmmTake, freeSet_set, Finset.mem_erase]
          constructor
          · rintro ⟨wasFree, taken⟩
            by_cases here : frame = made
            · exact .inl (by rw [here])
            · exact .inr ⟨⟨here, wasFree⟩, taken⟩
          · rintro (same | ⟨⟨_, wasFree⟩, taken⟩)
            · have here : frame = made := by
                simp only [pmmFrameSize] at same
                omega
              rw [here]
              exact ⟨free, fun still => (used still).2 rfl⟩
            · exact ⟨wasFree, taken⟩
      | stop blocked same none =>
          simp only at same
          subst same
          exact ⟨fun left => absurd left.1 left.2, fun made => absurd made not_newTable_self⟩

end Walk

/-- Two states between which nothing was mapped: every address translates as before
in every space, and the frames that left the pool are the tables newly linked on
one path, on which as many levels fewer are missing. -/
structure Refusal (k k' : Kernel) (spaces : List Nat) (space : Nat) (path : List (Fin 512)) :
    Prop where
  translations : ∀ {other va}, other ∈ spaces →
    translatePage k'.mem other va = translatePage k.mem other va
  pool : freeSet k'.pmm.bitmap ⊆ freeSet k.pmm.bitmap
  left : ∀ {frame}, frame ∈ freeSet k.pmm.bitmap \ freeSet k'.pmm.bitmap ↔
    NewTable k.mem k'.mem space path (frame * pmmFrameSize)
  count : k'.pmm.freeFrames + (freeSet k.pmm.bitmap \ freeSet k'.pmm.bitmap).card =
    k.pmm.freeFrames
  levels : ∀ {missing}, missingLevels k.mem space path = some missing →
    ∃ remaining, missingLevels k'.mem space path = some remaining ∧
      remaining + (freeSet k.pmm.bitmap \ freeSet k'.pmm.bitmap).card = missing

section Map

variable {k k' : Kernel} {spaces : List Nat} {level : Nat → Nat} {identity space va pa flags : Nat}

theorem Refusal.refl (k : Kernel) (spaces : List Nat) (space : Nat) (path : List (Fin 512)) :
    Refusal k k spaces space path where
  translations _ := rfl
  pool := Finset.Subset.refl _
  left := by
    intro frame
    rw [Finset.sdiff_self]
    exact ⟨fun none => absurd none (Finset.notMem_empty _), fun made => absurd made not_newTable_self⟩
  count := by rw [Finset.sdiff_self, Finset.card_empty, Nat.add_zero]
  levels := by
    intro missing levels
    rw [Finset.sdiff_self, Finset.card_empty]
    exact ⟨missing, levels, rfl⟩

/-- The frames gone from a pool are counted by the difference of its free counts. -/
theorem Pmm.Valid.count_left {pmm pmm' : Pmm} (valid : pmm.Valid) (valid' : pmm'.Valid)
    (pool : freeSet pmm'.bitmap ⊆ freeSet pmm.bitmap) :
    pmm'.freeFrames + (freeSet pmm.bitmap \ freeSet pmm'.bitmap).card = pmm.freeFrames := by
  rw [valid.count, valid'.count, Nat.add_comm]
  exact Finset.card_sdiff_add_card_eq_card pool

/-- A walk alone maps nothing. -/
theorem Paging.walk_refusal (paging : Paging k spaces level identity) (valid : k.pmm.Valid)
    (known : space ∈ spaces) (va : Nat) :
    Refusal k (walkTables k space (upperPath va) true).1 spaces space (upperPath va) := by
  have root := paging.rootLevel known
  have lengths : (upperPath va).length < level space := by
    rw [root, upperPath_length]
    decide
  obtain ⟨level', paging', grown, _, _⟩ := paging.walkTables_spec true (upperPath va) lengths
  have cost := paging.walkTables_count valid (upperPath va) lengths
  have pool : freeSet (walkTables k space (upperPath va) true).1.pmm.bitmap ⊆
      freeSet k.pmm.bitmap := fun frame still => (grown.free.mp still).1
  have count := valid.count_left (grown.valid valid) pool
  refine
    { translations := ?_, pool := pool, left := ?_, count := count, levels := ?_ }
  · intro other va' knownOther
    have otherRoot := paging.rootLevel knownOther
    exact paging.translatePage_congr paging' knownOther knownOther
      (grown.forest.lookups _ (by omega))
  · intro frame
    rw [Finset.mem_sdiff]
    exact paging.walkTables_left valid (upperPath va) lengths
  · intro missing before
    generalize (freeSet k.pmm.bitmap \
      freeSet (walkTables k space (upperPath va) true).1.pmm.bitmap).card = gone at count ⊢
    generalize walkTables k space (upperPath va) true = after at cost count
    obtain ⟨k', result⟩ := after
    cases cost with
    | large none _ =>
        rw [before] at none
        cases none
    | done levels spent left =>
        rw [before] at levels
        cases levels
        exact ⟨0, left, by simp only at spent count; omega⟩
    | short levels empty few left =>
        rw [before] at levels
        cases levels
        exact ⟨_, left, by simp only at empty count; omega⟩

/-- A page can be mapped: it is not translated, and the pool has a frame for every
level that is missing on its path. -/
def Mappable (k : Kernel) (space va missing : Nat) : Prop :=
  translatePage k.mem space va = none ∧
    missingLevels k.mem space (upperPath va) = some missing ∧ missing ≤ k.pmm.freeFrames

/-- `vm_map` maps exactly the mappable pages, for a frame each missing level, and is
otherwise only its walk. -/
theorem Paging.vmMap_exact (paging : Paging k spaces level identity) (valid : k.pmm.Valid)
    (known : space ∈ spaces) (canonical : Canonical va) (guards : MapGuards va pa) :
    (∃ missing, Mappable k space va missing ∧ (vmMap k space va pa flags).2 = 0 ∧
      (vmMap k space va pa flags).1.pmm.freeFrames + missing = k.pmm.freeFrames) ∨
    (∀ missing, ¬ Mappable k space va missing) ∧
      vmMap k space va pa flags = ((walkTables k space (upperPath va) true).1, -1) := by
  have root := paging.rootLevel known
  have notNull : space ≠ 0 := by
    have := paging.aligned (show level space ≠ 0 by omega)
    omega
  have lengths : (upperPath va).length < level space := by
    rw [root, upperPath_length]
    decide
  obtain ⟨level', paging', grown, _, outcome⟩ := paging.walkTables_spec true (upperPath va) lengths
  have cost := paging.walkTables_count valid (upperPath va) lengths
  have undefined : translatePage k.mem space va = none ↔
      (tables k.mem level).lookup space (path va) = none := by
    rw [paging.translatePage_eq_lookup known canonical, Option.map_eq_none_iff]
  have sameLookup := grown.forest.lookups (path va) (show level space ≠ 0 by omega)
  rcases vmMap_eq notNull va pa flags with ⟨refused, _⟩ | ⟨_, run⟩
  · exact absurd guards refused
  rw [run]
  generalize walkTables k space (upperPath va) true = after at *
  obtain ⟨k', result⟩ := after
  simp only at paging' cost sameLookup
  cases cost with
  | large none _ =>
      refine .inr ⟨fun missing mappable => ?_, rfl⟩
      rw [mappable.2.1] at none
      cases none
  | short levels empty few _ =>
      refine .inr ⟨fun missing mappable => ?_, rfl⟩
      obtain ⟨_, levels', enough⟩ := mappable
      rw [levels] at levels'
      cases levels'
      omega
  | @done missing bottom levels count _ =>
      have reached := outcome.1
      have isBottom := paging'.bottomLevel known reached
      have pteNotNull : bottom + 8 * (leafIndex va).val ≠ 0 := by
        have := paging'.aligned (show level' bottom ≠ 0 by omega)
        omega
      rw [path_eq, Store.lookup_of_descend reached, Store.lookup] at sameLookup
      simp only [if_neg pteNotNull]
      by_cases taken : k'.mem.load (bottom + 8 * (leafIndex va).val) 8 &&& vmPtePresent ≠ 0
      · rw [if_pos taken]
        refine .inr ⟨fun missing mappable => ?_, rfl⟩
        have slot : tables k'.mem level' bottom (leafIndex va) = .page _ :=
          decode_eq_page.mpr ⟨taken, .inl isBottom, rfl⟩
        rw [slot, ← path_eq, undefined.mp mappable.1] at sameLookup
        cases sameLookup
      · rw [if_neg taken]
        have slot : tables k'.mem level' bottom (leafIndex va) = .absent :=
          decode_eq_absent.mpr (not_not.mp taken)
        rw [slot, ← path_eq] at sameLookup
        exact .inl ⟨missing, ⟨undefined.mpr sameLookup.symm, levels, by omega⟩, rfl, count⟩

/-- A mappable page is mapped, for a frame each missing level. -/
theorem Paging.vmMap_mappable (paging : Paging k spaces level identity) (valid : k.pmm.Valid)
    (known : space ∈ spaces) (canonical : Canonical va) (guards : MapGuards va pa) {missing : Nat}
    (mappable : Mappable k space va missing) : ∃ k', vmMap k space va pa flags = (k', 0) ∧
      k'.pmm.freeFrames + missing = k.pmm.freeFrames := by
  rcases @Paging.vmMap_exact k spaces level identity space va pa flags paging valid known canonical
    guards with ⟨missing', mappable', status, count⟩ | ⟨unmappable, _⟩
  · obtain rfl : missing' = missing :=
      Option.some.inj (mappable'.2.1.symm.trans mappable.2.1)
    exact ⟨_, Prod.ext rfl status, count⟩
  · exact absurd mappable (unmappable missing)

/-- A `vm_map` that returns `-1` has mapped nothing. -/
theorem Paging.vmMap_refusal (paging : Paging k spaces level identity) (valid : k.pmm.Valid)
    (known : space ∈ spaces) (canonical : Canonical va)
    (refused : vmMap k space va pa flags = (k', -1)) :
    Refusal k k' spaces space (upperPath va) := by
  by_cases guards : MapGuards va pa
  · rcases @Paging.vmMap_exact k spaces level identity space va pa flags paging valid known canonical
      guards with ⟨_, _, status, _⟩ | ⟨_, run⟩
    · rw [refused] at status
      cases status
    · rw [refused] at run
      obtain ⟨rfl, _⟩ := Prod.mk.inj run
      exact paging.walk_refusal valid known va
  · rcases paging.vmMap_cases known va pa flags with ⟨_, run⟩ | ⟨passed, _⟩
    · rw [refused] at run
      obtain ⟨rfl, _⟩ := Prod.mk.inj run
      exact .refl _ _ _ _
    · exact absurd passed guards

end Map

end GodOs
