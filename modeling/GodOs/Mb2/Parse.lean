import GodOs.Lib.Memory
import GodOs.Lib.Outcome
import GodOs.Pmm.Frame

/-!
# The multiboot2 parser of `mb2.c`

`mb2Init` walks the tags of the information structure and copies the usable
ranges of its memory map. The output array is the list of the ranges written to
it, and `none` is the return value `-1`.
-/

namespace GodOs

open Lib

def mb2TagEnd : Nat := 0
def mb2TagMmap : Nat := 6
def mb2MmapTypeAvailable : Nat := 1
def mb2MaxRanges : Nat := 32

/-- A usable physical range. -/
structure Mb2Range where
  base : Nat
  length : Nat
deriving Repr, DecidableEq

def mb2AlignUp8 (x : Nat) : Nat := u64 (x + 7) &&& 0xFFFFFFFFFFFFFFF8

/-- The loop over the `left` remaining entries of one memory-map tag, from entry `i`. -/
def mb2Entries (mem : Memory) (p size entrySize maxRanges : Nat) :
    Nat → Nat → List Mb2Range → Option (List Mb2Range)
  | 0, _, ranges => some ranges
  | left + 1, i, ranges =>
      let e := u64 (p + 16 + i * entrySize)
      if u64 (e + 24) > u64 (p + size) then none
      else if mem.load (u64 (e + 16)) 4 ≠ mb2MmapTypeAvailable then
        mb2Entries mem p size entrySize maxRanges left (i + 1) ranges
      else if ranges.length ≥ maxRanges then none
      else
        let range : Mb2Range := ⟨mem.load e 8, mem.load (u64 (e + 8)) 8⟩
        mb2Entries mem p size entrySize maxRanges left (i + 1) (ranges ++ [range])

/-- The tag loop, with a budget of iterations. -/
def mb2Tags (mem : Memory) (finish maxRanges : Nat) :
    Nat → Nat → List Mb2Range → Outcome (Option (List Mb2Range))
  | 0, _, _ => .loop
  | budget + 1, p, ranges =>
      if u64 (p + 8) > finish then .done (some ranges)
      else
        let type := mem.load p 4
        let size := mem.load (u64 (p + 4)) 4
        if type = mb2TagEnd then .done (some ranges)
        else if size < 8 ∨ u64 (p + size) > finish then .done none
        else if type = mb2TagMmap then
          if size < 16 then .done none
          else
            let entrySize := mem.load (u64 (p + 8)) 4
            if entrySize < 24 then .done none
            else
              match mb2Entries mem p size entrySize maxRanges ((size - 16) / entrySize) 0 ranges with
              | none => .done none
              | some ranges =>
                  mb2Tags mem finish maxRanges budget (mb2AlignUp8 (u64 (p + size))) ranges
        else mb2Tags mem finish maxRanges budget (mb2AlignUp8 (u64 (p + size))) ranges

/-- `mb2_init` with non-null outputs. The caller's `*info_end` comes in as `infoEnd` and goes out
beside the usable ranges. -/
def mb2Init (mem : Memory) (infoAddr maxRanges infoEnd : Nat) :
    Outcome (Nat × Option (List Mb2Range)) :=
  if maxRanges = 0 then .done (infoEnd, none)
  else
    let totalSize := mem.load infoAddr 4
    if totalSize = 0 ∨ totalSize > 0x100000 then .done (infoEnd, none)
    else
      let finish := u64 (infoAddr + totalSize)
      (mb2Tags mem finish maxRanges (2 ^ 64) (u64 (infoAddr + 8)) []).bind fun ranges =>
        .done (finish, ranges)

/-- What a successful parse says: the end of the structure comes from its total
size, and the ranges from its tags. -/
theorem mb2Init_done {mem : Memory} {infoAddr maxRanges infoEnd finish : Nat}
    {ranges : List Mb2Range}
    (run : mb2Init mem infoAddr maxRanges infoEnd = .done (finish, some ranges)) :
    finish = u64 (infoAddr + mem.load infoAddr 4) ∧ 0 < mem.load infoAddr 4 ∧
      mem.load infoAddr 4 ≤ 0x100000 ∧
      mb2Tags mem finish maxRanges (2 ^ 64) (u64 (infoAddr + 8)) [] = .done (some ranges) := by
  unfold mb2Init at run
  split at run
  · simp at run
  simp only at run
  split at run
  · simp at run
  next sized =>
    obtain ⟨result, tags, same⟩ := Outcome.bind_eq_done.mp run
    obtain ⟨rfl, rfl⟩ := Prod.mk.inj (Outcome.done.inj same)
    exact ⟨rfl, by omega, by omega, tags⟩

/-- A range whose two words fit 64 bits, as every range that the parser reads. -/
def Mb2Range.Fits (range : Mb2Range) : Prop := range.base < 2 ^ 64 ∧ range.length < 2 ^ 64

section Fits

variable {mem : Memory} {maxRanges : Nat} {ranges found : List Mb2Range}

theorem mb2Entries_fits {p size entrySize left i : Nat}
    (run : mb2Entries mem p size entrySize maxRanges left i ranges = some found)
    (fits : ∀ range ∈ ranges, range.Fits) : ∀ range ∈ found, range.Fits := by
  induction left generalizing i ranges with
  | zero =>
      cases run
      exact fits
  | succ left ih =>
      rw [mb2Entries] at run
      simp only at run
      split at run
      · cases run
      split at run
      · exact ih run fits
      split at run
      · cases run
      · refine ih run fun range member => ?_
        rcases List.mem_append.mp member with earlier | last
        · exact fits range earlier
        · rw [List.mem_singleton.mp last]
          exact ⟨mem.load_lt _ 8, mem.load_lt _ 8⟩

theorem mb2Tags_fits {finish budget p : Nat}
    (run : mb2Tags mem finish maxRanges budget p ranges = .done (some found))
    (fits : ∀ range ∈ ranges, range.Fits) : ∀ range ∈ found, range.Fits := by
  induction budget generalizing p ranges with
  | zero => cases run
  | succ budget ih =>
      rw [mb2Tags] at run
      simp only at run
      split at run
      · cases run
        exact fits
      split at run
      · cases run
        exact fits
      split at run
      · cases run
      split at run
      · split at run
        · cases run
        split at run
        · cases run
        split at run
        · cases run
        next entries => exact ih run (mb2Entries_fits entries fits)
      · exact ih run fits

/-- The ranges of a successful parse are made of 64-bit words. -/
theorem mb2Init_fits {infoAddr infoEnd finish : Nat}
    (run : mb2Init mem infoAddr maxRanges infoEnd = .done (finish, some found)) :
    ∀ range ∈ found, range.Fits :=
  mb2Tags_fits (mb2Init_done run).2.2.2 (by simp)

end Fits

end GodOs
