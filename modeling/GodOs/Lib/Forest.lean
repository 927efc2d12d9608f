import Mathlib

/-!
# Shared forests of lookup tables

A multi-level table is a graph of tables: each slot of a table is absent, holds
a page, or points to a table one level below. Several roots may share
sub-tables, but only below slots whose index is declared shared. `Shape` states
this discipline for a store with a level function; `Link`, `SetLeaf` and
`AddRoot` are the three edits of such a graph, each described by what the new
store holds. The lemmas say which lookups an edit can change, and that every
edit keeps the shape.
-/

namespace Lib.Forest

variable {Node Index Value : Type}

/-- One slot of a table. -/
inductive Slot (Node Value : Type) where
  | absent
  | table (child : Node)
  | page (value : Value)
deriving DecidableEq

/-- The page a slot holds itself. -/
def Slot.value? : Slot Node Value → Option Value
  | .page value => some value
  | _ => none

/-- The slots of every table. -/
abbrev Store (Node Index Value : Type) := Node → Index → Slot Node Value

/-- Follow table slots along a path of indices. -/
def Store.descend (store : Store Node Index Value) : Node → List Index → Option Node
  | node, [] => some node
  | node, index :: rest =>
      match store node index with
      | .table child => store.descend child rest
      | _ => none

/-- Translate a path of indices: the first page met, with the indices not yet used. -/
def Store.lookup (store : Store Node Index Value) : Node → List Index → Option (Value × List Index)
  | _, [] => none
  | node, index :: rest =>
      match store node index with
      | .absent => none
      | .page value => some (value, rest)
      | .table child => store.lookup child rest

section Paths

variable {store : Store Node Index Value} {root node child : Node} {index : Index}
  {path rest : List Index}

theorem Store.descend_table (slot : store node index = .table child) :
    store.descend node (index :: rest) = store.descend child rest := by
  rw [Store.descend, slot]

/-- A descent of two path segments passes through the node between them. -/
theorem Store.descend_append (store : Store Node Index Value) (root : Node)
    (path rest : List Index) :
    store.descend root (path ++ rest) =
      (store.descend root path).bind fun node => store.descend node rest := by
  induction path generalizing root with
  | nil => rfl
  | cons index path ih =>
      rw [List.cons_append, Store.descend, Store.descend]
      split
      · exact ih _
      · rfl

/-- The last step of a descent. -/
theorem Store.descend_snoc :
    store.descend root (path ++ [index]) = some child ↔
      ∃ node, store.descend root path = some node ∧ store node index = .table child := by
  rw [Store.descend_append, Option.bind_eq_some_iff]
  refine exists_congr fun node => and_congr_right fun _ => ?_
  rw [Store.descend]
  split
  next other slot => simp [Store.descend, slot]
  next other => simp only [reduceCtorEq, false_iff]; exact other child

/-- Lookup continues from the node a descent reached. -/
theorem Store.lookup_of_descend (reached : store.descend root path = some node) :
    store.lookup root (path ++ rest) = store.lookup node rest := by
  induction path generalizing root with
  | nil => cases reached; rfl
  | cons index path ih =>
      rw [Store.descend] at reached
      split at reached
      next next slot => rw [List.cons_append, Store.lookup, slot]; exact ih reached
      next => cases reached

/-- A lookup that uses up its path ends at a page slot below the rest of the path. -/
theorem Store.lookup_snoc_full {value : Value}
    (found : store.lookup root (path ++ [index]) = some (value, [])) :
    ∃ node, store.descend root path = some node ∧ store node index = .page value := by
  induction path generalizing root with
  | nil =>
      rw [List.nil_append, Store.lookup] at found
      split at found
      next => cases found
      next slot => cases found; exact ⟨root, rfl, slot⟩
      next => cases found
  | cons first rest ih =>
      rw [List.cons_append, Store.lookup] at found
      split at found
      next => cases found
      next => simp at found
      next child slot =>
        obtain ⟨node, reached, page⟩ := ih found
        exact ⟨node, by rwa [Store.descend_table slot], page⟩

/-- Two roots with one top slot in common translate its paths alike. -/
theorem Store.lookup_congr_slot {other : Node} (same : store root index = store other index) :
    store.lookup root (index :: rest) = store.lookup other (index :: rest) := by
  rw [Store.lookup, Store.lookup, same]

end Paths

/-- The discipline of a shared forest: a table slot leads exactly one level
down, and a table has one parent slot, except that top tables may share a slot
at the same shared index. Level `0` means that a node is no table. -/
structure Shape (store : Store Node Index Value) (level : Node → Nat) (top : Nat)
    (Shared : Index → Prop) : Prop where
  child : ∀ {node index child}, level node ≠ 0 → store node index = .table child →
    level child ≠ 0 ∧ level child + 1 = level node
  parent : ∀ {node other index index' child}, level node ≠ 0 → level other ≠ 0 →
    store node index = .table child → store other index' = .table child →
      index = index' ∧ (node = other ∨ level node = top ∧ level other = top ∧ Shared index)

section Shape

variable {store : Store Node Index Value} {level : Node → Nat} {top : Nat}
  {Shared : Index → Prop} {root other node : Node} {path path' : List Index}

/-- A descent loses one level for every index of its path. -/
theorem Shape.descend_level (shape : Shape store level top Shared) (table : level root ≠ 0)
    (reached : store.descend root path = some node) :
    level node ≠ 0 ∧ level node + path.length = level root := by
  induction path generalizing root with
  | nil => cases reached; simp [table]
  | cons index path ih =>
      rw [Store.descend] at reached
      split at reached
      next next slot =>
        have below := shape.child table slot
        have tail := ih below.1 reached
        simp only [List.length_cons]
        omega
      next => cases reached

/-- **Path uniqueness.** Descents of equal length from two top tables that end
in one table used the same path, from the same root or through a shared slot. -/
theorem Shape.descend_unique (shape : Shape store level top Shared) (positive : top ≠ 0)
    (rootTop : level root = top) (otherTop : level other = top)
    (reached : store.descend root path = some node)
    (reached' : store.descend other path' = some node) (lengths : path.length = path'.length) :
    path = path' ∧ (root = other ∨ ∃ index rest, path = index :: rest ∧ Shared index) := by
  induction path using List.reverseRecOn generalizing node path' with
  | nil =>
      have empty : path' = [] := List.eq_nil_of_length_eq_zero (by simpa using lengths.symm)
      subst empty
      cases reached
      cases reached'
      exact ⟨rfl, .inl rfl⟩
  | append_singleton init index ih =>
      rcases List.eq_nil_or_concat path' with rfl | ⟨init', index', rfl⟩
      · simp at lengths
      rw [List.concat_eq_append] at reached' lengths ⊢
      have sameLength : init.length = init'.length := by simpa using lengths
      obtain ⟨parent, toParent, slot⟩ := Store.descend_snoc.mp reached
      obtain ⟨parent', toParent', slot'⟩ := Store.descend_snoc.mp reached'
      have parentLevel := shape.descend_level (by omega) toParent
      have parentLevel' := shape.descend_level (by omega) toParent'
      obtain ⟨rfl, rfl | ⟨atTop, _, shared⟩⟩ :=
        shape.parent parentLevel.1 parentLevel'.1 slot slot'
      · obtain ⟨rfl, same | ⟨first, rest, rfl, shared⟩⟩ := ih toParent toParent' sameLength
        · exact ⟨rfl, .inl same⟩
        · exact ⟨rfl, .inr ⟨first, rest ++ [index], rfl, shared⟩⟩
      · -- both parents are top tables, so both paths consist of the shared index alone
        have empty : init = [] := List.eq_nil_of_length_eq_zero (by omega)
        have empty' : init' = [] := List.eq_nil_of_length_eq_zero (by omega)
        subst empty
        subst empty'
        exact ⟨rfl, .inr ⟨index, [], rfl, shared⟩⟩

/-- A shape, its descents and its lookups depend only on the slots of tables. -/
theorem Shape.congr {store' : Store Node Index Value} (shape : Shape store level top Shared)
    (same : ∀ {node index}, level node ≠ 0 → store' node index = store node index) :
    Shape store' level top Shared where
  child table slot := shape.child table (by rwa [same table] at slot)
  parent table table' slot slot' :=
    shape.parent table table' (by rwa [same table] at slot) (by rwa [same table'] at slot')

theorem Shape.descend_congr {store' : Store Node Index Value}
    (shape : Shape store level top Shared)
    (same : ∀ {node index}, level node ≠ 0 → store' node index = store node index)
    (path : List Index) (table : level root ≠ 0) :
    store'.descend root path = store.descend root path := by
  induction path generalizing root with
  | nil => rfl
  | cons index rest ih =>
      rw [Store.descend, Store.descend, same table]
      split
      next child slot => exact ih (shape.child table slot).1
      next => rfl

theorem Shape.lookup_congr {store' : Store Node Index Value} (shape : Shape store level top Shared)
    (same : ∀ {node index}, level node ≠ 0 → store' node index = store node index)
    (path : List Index) (table : level root ≠ 0) :
    store'.lookup root path = store.lookup root path := by
  induction path generalizing root with
  | nil => rfl
  | cons index rest ih =>
      rw [Store.lookup, Store.lookup, same table]
      split
      next => rfl
      next => rfl
      next child slot => exact ih (shape.child table slot).1

end Shape

/-- What growing a forest keeps: the old tables, their occupied slots, and every
translation and descent from them. New tables hold no page. -/
structure Grows (store : Store Node Index Value) (level : Node → Nat)
    (store' : Store Node Index Value) (level' : Node → Nat) : Prop where
  levels : ∀ {node}, level node ≠ 0 → level' node = level node
  slots : ∀ {node index}, level node ≠ 0 → store node index ≠ .absent →
    store' node index = store node index
  pages : ∀ {node index value}, level' node ≠ 0 → store' node index = .page value →
    level node ≠ 0 ∧ store node index = .page value
  lookups : ∀ {node} path, level node ≠ 0 → store'.lookup node path = store.lookup node path
  descents : ∀ {node path last}, level node ≠ 0 → store.descend node path = some last →
    store'.descend node path = some last

section Grows

variable {store middle store' : Store Node Index Value} {level level₁ level' : Node → Nat}

theorem Grows.refl (store : Store Node Index Value) (level : Node → Nat) :
    Grows store level store level where
  levels _ := rfl
  slots _ _ := rfl
  pages table slot := ⟨table, slot⟩
  lookups _ _ := rfl
  descents _ reached := reached

theorem Grows.trans (first : Grows store level middle level₁)
    (second : Grows middle level₁ store' level') : Grows store level store' level' where
  levels table := by
    rw [second.levels (by rwa [first.levels table]), first.levels table]
  slots table occupied := by
    have kept := first.slots table occupied
    rw [second.slots (by rwa [first.levels table]) (by rwa [kept]), kept]
  pages table slot := by
    have middlePage := second.pages table slot
    exact first.pages middlePage.1 middlePage.2
  lookups path table := by
    rw [second.lookups path (by rwa [first.levels table]), first.lookups path table]
  descents table reached :=
    second.descents (by rwa [first.levels table]) (first.descents table reached)

end Grows

/-- What every edit of a forest keeps: tables stay tables of their level, and a
slot that holds a table holds it for good. -/
structure Keeps (store : Store Node Index Value) (level : Node → Nat)
    (store' : Store Node Index Value) (level' : Node → Nat) : Prop where
  levels : ∀ {node}, level node ≠ 0 → level' node = level node
  links : ∀ {node index child}, level node ≠ 0 → store node index = .table child →
    store' node index = .table child

section Keeps

variable {store middle store' : Store Node Index Value} {level level₁ level' : Node → Nat} {top : Nat}
  {Shared : Index → Prop}

theorem Keeps.refl (store : Store Node Index Value) (level : Node → Nat) :
    Keeps store level store level where
  levels _ := rfl
  links _ slot := slot

theorem Keeps.trans (first : Keeps store level middle level₁)
    (second : Keeps middle level₁ store' level') : Keeps store level store' level' where
  levels table := by rw [second.levels (by rwa [first.levels table]), first.levels table]
  links table slot := second.links (by rwa [first.levels table]) (first.links table slot)

/-- Descents survive every edit. -/
theorem Keeps.descend (keeps : Keeps store level store' level')
    (shape : Shape store level top Shared) {root last : Node} {path : List Index}
    (table : level root ≠ 0) (reached : store.descend root path = some last) :
    store'.descend root path = some last := by
  induction path generalizing root with
  | nil => exact reached
  | cons index rest ih =>
      rw [Store.descend] at reached
      split at reached
      next child slot =>
        rw [Store.descend_table (keeps.links table slot)]
        exact ih (shape.child table slot).1 reached
      next => cases reached

theorem Grows.keeps (grows : Grows store level store' level') : Keeps store level store' level' where
  levels := grows.levels
  links table slot := (grows.slots table (by rw [slot]; simp)).trans slot

/-- A store with the same tables has grown by nothing. -/
theorem Shape.grows_of_same (shape : Shape store level top Shared)
    (same : ∀ {node index}, level node ≠ 0 → store' node index = store node index) :
    Grows store level store' level where
  levels _ := rfl
  slots table _ := same table
  pages table slot := ⟨table, by rwa [same table] at slot⟩
  lookups path table := shape.lookup_congr same path table
  descents table reached := by rwa [shape.descend_congr same _ table]

end Keeps

/-- Hang a fresh empty table below an absent slot. -/
structure Link (store : Store Node Index Value) (level : Node → Nat)
    (store' : Store Node Index Value) (level' : Node → Nat)
    (node : Node) (index : Index) (fresh : Node) : Prop where
  table : 2 ≤ level node
  wasAbsent : store node index = .absent
  isFresh : level fresh = 0
  linked : store' node index = .table fresh
  empty : ∀ index, store' fresh index = .absent
  same : ∀ {other index'}, level other ≠ 0 → other ≠ node ∨ index' ≠ index →
    store' other index' = store other index'
  freshLevel : level' fresh + 1 = level node
  levels : ∀ {other}, other ≠ fresh → level' other = level other

section Link

variable {store store' : Store Node Index Value} {level level' : Node → Nat} {top : Nat}
  {Shared : Index → Prop} {node fresh : Node} {index : Index}

theorem Link.ne_fresh (link : Link store level store' level' node index fresh) {other : Node}
    (table : level other ≠ 0) : other ≠ fresh := by
  rintro rfl
  exact table link.isFresh

/-- A table slot of the new store is old, or it is the new link. -/
theorem Link.slot_cases (link : Link store level store' level' node index fresh)
    {other child : Node} {index' : Index} (table : level' other ≠ 0)
    (slot : store' other index' = .table child) :
    (level other ≠ 0 ∧ store other index' = .table child) ∨
      (other = node ∧ index' = index ∧ child = fresh) := by
  classical
  by_cases isFresh : other = fresh
  · subst isFresh
    rw [link.empty] at slot
    cases slot
  have old : level other ≠ 0 := by rwa [← link.levels isFresh]
  by_cases here : other = node ∧ index' = index
  · obtain ⟨rfl, rfl⟩ := here
    rw [link.linked] at slot
    cases slot
    exact .inr ⟨rfl, rfl, rfl⟩
  · left
    refine ⟨old, ?_⟩
    rw [← link.same old (by tauto)]
    exact slot

theorem Link.shape (link : Link store level store' level' node index fresh)
    (shape : Shape store level top Shared) : Shape store' level' top Shared where
  child := by
    intro parent index' child table slot
    have nodeTable : level node ≠ 0 := by have := link.table; omega
    rcases link.slot_cases table slot with ⟨old, oldSlot⟩ | ⟨rfl, rfl, rfl⟩
    · have below := shape.child old oldSlot
      rw [link.levels (link.ne_fresh old), link.levels (link.ne_fresh below.1)]
      exact below
    · have freshLevel := link.freshLevel
      have := link.table
      rw [link.levels (link.ne_fresh nodeTable)]
      omega
  parent := by
    intro first second i j child table table' slot slot'
    have old : ∀ {other i'}, level other ≠ 0 → store other i' ≠ .table fresh := by
      intro other i' oldTable hit
      exact (shape.child oldTable hit).1 link.isFresh
    rcases link.slot_cases table slot with ⟨oldTable, oldSlot⟩ | ⟨rfl, rfl, rfl⟩ <;>
      rcases link.slot_cases table' slot' with ⟨oldTable', oldSlot'⟩ | ⟨rfl, rfl, childEq⟩
    · rw [link.levels (link.ne_fresh oldTable), link.levels (link.ne_fresh oldTable')]
      exact shape.parent oldTable oldTable' oldSlot oldSlot'
    · subst childEq
      exact absurd oldSlot (old oldTable)
    · exact absurd oldSlot' (old oldTable')
    · exact ⟨rfl, .inl rfl⟩

/-- A fresh empty table changes no translation. -/
theorem Link.lookup (link : Link store level store' level' node index fresh)
    (shape : Shape store level top Shared) {root : Node} (path : List Index)
    (table : level root ≠ 0) : store'.lookup root path = store.lookup root path := by
  classical
  induction path generalizing root with
  | nil => rfl
  | cons first rest ih =>
      rw [Store.lookup, Store.lookup]
      by_cases here : root = node ∧ first = index
      · obtain ⟨rfl, rfl⟩ := here
        rw [link.linked, link.wasAbsent]
        cases rest with
        | nil => rfl
        | cons second rest => simp [Store.lookup, link.empty]
      · rw [link.same table (by tauto)]
        split
        next => rfl
        next => rfl
        next child slot => exact ih (shape.child table slot).1

theorem Link.descend (link : Link store level store' level' node index fresh)
    (shape : Shape store level top Shared) {root last : Node} {path : List Index}
    (table : level root ≠ 0) (reached : store.descend root path = some last) :
    store'.descend root path = some last := by
  classical
  induction path generalizing root with
  | nil => exact reached
  | cons first rest ih =>
      rw [Store.descend] at reached ⊢
      by_cases here : root = node ∧ first = index
      · obtain ⟨rfl, rfl⟩ := here
        rw [link.wasAbsent] at reached
        cases reached
      · rw [link.same table (by tauto)]
        split at reached
        next child slot => exact ih (shape.child table slot).1 reached
        next => cases reached

/-- Linking grows the forest. -/
theorem Link.grows (link : Link store level store' level' node index fresh)
    (shape : Shape store level top Shared) : Grows store level store' level' where
  levels table := link.levels (link.ne_fresh table)
  slots := by
    intro other index' table occupied
    refine link.same table ?_
    by_contra both
    push Not at both
    obtain ⟨rfl, rfl⟩ := both
    exact occupied link.wasAbsent
  pages := by
    classical
    intro other index' value table slot
    by_cases isFresh : other = fresh
    · subst isFresh
      rw [link.empty] at slot
      cases slot
    have old : level other ≠ 0 := by rwa [← link.levels isFresh]
    refine ⟨old, ?_⟩
    by_cases here : other = node ∧ index' = index
    · obtain ⟨rfl, rfl⟩ := here
      rw [link.linked] at slot
      cases slot
    · rw [← link.same old (by tauto)]
      exact slot
  lookups path table := link.lookup shape path table
  descents table reached := link.descend shape table reached

end Link

/-- Overwrite one slot of a bottom-level table by a slot that is no table. -/
structure SetLeaf (store : Store Node Index Value) (level : Node → Nat)
    (store' : Store Node Index Value) (node : Node) (index : Index)
    (slot : Slot Node Value) : Prop where
  bottom : level node = 1
  leaf : ∀ child, slot ≠ .table child
  written : store' node index = slot
  same : ∀ {other index'}, level other ≠ 0 → other ≠ node ∨ index' ≠ index →
    store' other index' = store other index'

section SetLeaf

variable {store store' : Store Node Index Value} {level : Node → Nat} {top : Nat}
  {Shared : Index → Prop} {node root : Node} {index : Index} {slot : Slot Node Value}
  {path : List Index}

/-- Overwriting a leaf changes no table slot. -/
theorem SetLeaf.table_iff (edit : SetLeaf store level store' node index slot)
    (shape : Shape store level top Shared) {other child : Node} {index' : Index}
    (table : level other ≠ 0) :
    store' other index' = .table child ↔ store other index' = .table child := by
  classical
  by_cases here : other = node ∧ index' = index
  · obtain ⟨rfl, rfl⟩ := here
    rw [edit.written]
    constructor
    · intro isTable
      exact absurd isTable (edit.leaf child)
    · intro isTable
      have below := shape.child table isTable
      have bottom := edit.bottom
      omega
  · rw [edit.same table (by tauto)]

theorem SetLeaf.shape (edit : SetLeaf store level store' node index slot)
    (shape : Shape store level top Shared) : Shape store' level top Shared where
  child table isTable := shape.child table ((edit.table_iff shape table).mp isTable)
  parent table table' isTable isTable' :=
    shape.parent table table' ((edit.table_iff shape table).mp isTable)
      ((edit.table_iff shape table').mp isTable')

theorem SetLeaf.keeps (edit : SetLeaf store level store' node index slot)
    (shape : Shape store level top Shared) : Keeps store level store' level where
  levels _ := rfl
  links table isTable := (edit.table_iff shape table).mpr isTable

/-- Overwriting a leaf changes no descent. -/
theorem SetLeaf.descend (edit : SetLeaf store level store' node index slot)
    (shape : Shape store level top Shared) (table : level root ≠ 0) (path : List Index) :
    store'.descend root path = store.descend root path := by
  induction path generalizing root with
  | nil => rfl
  | cons first rest ih =>
      rw [Store.descend, Store.descend]
      cases old : store root first with
      | table child =>
          rw [(edit.table_iff shape table).mpr old]
          exact ih (shape.child table old).1
      | absent | page =>
          cases new : store' root first with
          | table child => simp [(edit.table_iff shape table).mp new] at old
          | absent | page => rfl

/-- The path through the written slot translates to what was written. -/
theorem SetLeaf.lookup_hit (edit : SetLeaf store level store' node index slot)
    (shape : Shape store level top Shared) (table : level root ≠ 0)
    (reached : store.descend root path = some node) :
    store'.lookup root (path ++ [index]) = slot.value?.map fun value => (value, []) := by
  rw [← edit.descend shape table] at reached
  rw [Store.lookup_of_descend reached, Store.lookup, edit.written]
  cases slot <;> rfl

/-- Every other path translates as before. -/
theorem SetLeaf.lookup_miss (edit : SetLeaf store level store' node index slot)
    (shape : Shape store level top Shared) (table : level root ≠ 0)
    (short : path.length ≤ level root)
    (miss : ∀ init, path = init ++ [index] → store.descend root init ≠ some node) :
    store'.lookup root path = store.lookup root path := by
  classical
  induction path generalizing root with
  | nil => rfl
  | cons first rest ih =>
      rw [Store.lookup, Store.lookup]
      by_cases here : root = node ∧ first = index
      · -- a bottom-level table leaves room for one index only
        obtain ⟨rfl, rfl⟩ := here
        have bottom := edit.bottom
        have empty : rest = [] := List.eq_nil_of_length_eq_zero (by
          simp only [List.length_cons] at short
          omega)
        subst empty
        exact absurd rfl (miss [] rfl)
      · rw [edit.same table (by tauto)]
        split
        next => rfl
        next => rfl
        next child isTable =>
          have below := shape.child table isTable
          refine ih below.1 ?_ ?_
          · simp only [List.length_cons] at short
            omega
          · rintro init rfl reached
            exact miss (first :: init) rfl (by rwa [Store.descend_table isTable])

end SetLeaf

/-- Add a top table that copies the shared slots of an existing one. -/
structure AddRoot (store : Store Node Index Value) (level : Node → Nat)
    (store' : Store Node Index Value) (level' : Node → Nat) (top : Nat)
    (Shared : Index → Prop) (model fresh : Node) : Prop where
  modelTop : level model = top
  isFresh : level fresh = 0
  freshLevel : level' fresh = top
  copied : ∀ {index}, Shared index → store' fresh index = store model index
  empty : ∀ {index}, ¬ Shared index → store' fresh index = .absent
  same : ∀ {other index}, level other ≠ 0 → store' other index = store other index
  levels : ∀ {other}, other ≠ fresh → level' other = level other

section AddRoot

variable {store store' : Store Node Index Value} {level level' : Node → Nat} {top : Nat}
  {Shared : Index → Prop} {model fresh root : Node} {path : List Index}

theorem AddRoot.ne_fresh (add : AddRoot store level store' level' top Shared model fresh)
    {other : Node} (table : level other ≠ 0) : other ≠ fresh := by
  rintro rfl
  exact table add.isFresh

theorem AddRoot.keeps (add : AddRoot store level store' level' top Shared model fresh) :
    Keeps store level store' level' where
  levels table := add.levels (add.ne_fresh table)
  links table slot := (add.same table).trans slot

/-- Every table slot of the new store stands in an old table, which is the
model itself when the slot belongs to the new root. -/
theorem AddRoot.slot_cases (add : AddRoot store level store' level' top Shared model fresh)
    (positive : top ≠ 0) {other child : Node} {index : Index} (table : level' other ≠ 0)
    (slot : store' other index = .table child) :
    (other ≠ fresh ∧ level other ≠ 0 ∧ store other index = .table child) ∨
      (other = fresh ∧ Shared index ∧ level model ≠ 0 ∧ store model index = .table child) := by
  classical
  by_cases isFresh : other = fresh
  · subst isFresh
    by_cases shared : Shared index
    · rw [add.copied shared] at slot
      exact .inr ⟨rfl, shared, by rw [add.modelTop]; exact positive, slot⟩
    · rw [add.empty shared] at slot
      cases slot
  · have old : level other ≠ 0 := by rwa [← add.levels isFresh]
    rw [add.same old] at slot
    exact .inl ⟨isFresh, old, slot⟩

theorem AddRoot.shape (add : AddRoot store level store' level' top Shared model fresh)
    (positive : top ≠ 0) (shape : Shape store level top Shared) :
    Shape store' level' top Shared where
  child := by
    intro parent index child table slot
    rcases add.slot_cases positive table slot with ⟨_, old, oldSlot⟩ | ⟨rfl, _, old, oldSlot⟩
    · have below := shape.child old oldSlot
      rw [add.levels (add.ne_fresh old), add.levels (add.ne_fresh below.1)]
      exact below
    · have below := shape.child old oldSlot
      rw [add.freshLevel, add.levels (add.ne_fresh below.1), ← add.modelTop]
      exact below
  parent := by
    intro first second i j child table table' slot slot'
    rcases add.slot_cases positive table slot with ⟨_, old, oldSlot⟩ | ⟨rfl, shared, old, oldSlot⟩ <;>
      rcases add.slot_cases positive table' slot' with
        ⟨_, old', oldSlot'⟩ | ⟨rfl, shared', old', oldSlot'⟩ <;>
      obtain ⟨sameIndex, sameTable⟩ := shape.parent old old' oldSlot oldSlot' <;>
      subst sameIndex
    · rw [add.levels (add.ne_fresh old), add.levels (add.ne_fresh old')]
      exact ⟨rfl, sameTable⟩
    · have firstTop : level first = top := by
        rcases sameTable with rfl | ⟨atTop, _⟩
        · exact add.modelTop
        · exact atTop
      refine ⟨rfl, .inr ⟨?_, add.freshLevel, shared'⟩⟩
      rw [add.levels (add.ne_fresh old), firstTop]
    · have secondTop : level second = top := by
        rcases sameTable with rfl | ⟨_, atTop, _⟩
        · exact add.modelTop
        · exact atTop
      refine ⟨rfl, .inr ⟨add.freshLevel, ?_, shared⟩⟩
      rw [add.levels (add.ne_fresh old'), secondTop]
    · exact ⟨rfl, .inl rfl⟩

/-- A new root changes no translation from an old table. -/
theorem AddRoot.lookup (add : AddRoot store level store' level' top Shared model fresh)
    (shape : Shape store level top Shared) (path : List Index) (table : level root ≠ 0) :
    store'.lookup root path = store.lookup root path :=
  shape.lookup_congr add.same path table

/-- A new root changes no descent from an old table. -/
theorem AddRoot.descend (add : AddRoot store level store' level' top Shared model fresh)
    (shape : Shape store level top Shared) (path : List Index) (table : level root ≠ 0) :
    store'.descend root path = store.descend root path :=
  shape.descend_congr add.same path table

/-- The new root translates nothing below a private slot. -/
theorem AddRoot.lookup_private (add : AddRoot store level store' level' top Shared model fresh)
    {index : Index} (notShared : ¬ Shared index) : store'.lookup fresh (index :: path) = none := by
  rw [Store.lookup, add.empty notShared]

end AddRoot

end Lib.Forest
