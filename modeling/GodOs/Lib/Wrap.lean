import Mathlib.Data.List.Basic

/-!
# Texts on rows of a fixed width

A text is cut into lines, and a line into rows. A row that is full is followed by another
row at once, also if nothing comes after it. `rows` says which rows these are, and `fill`
makes them while the text comes in.
-/

namespace Lib.Wrap

variable {α : Type} {width : Nat} {ends : α → Bool}

/-- The rows of a line: those that are full, and what is left, if only an empty row. -/
def chop (width : Nat) (line : List α) : List (List α) :=
  (List.range (line.length / width + 1)).map fun i => (line.drop (i * width)).take width

/-- The rows of a text: those of its lines. -/
def rows (width : Nat) (ends : α → Bool) (text : List α) : List (List α) :=
  (text.splitOnP ends).flatMap (chop width)

/-- The rows of a text that comes in while a row is being filled. -/
def fill (width : Nat) (ends : α → Bool) (row : List α) : List α → List (List α)
  | [] => [row]
  | c :: text =>
      if ends c then row :: fill width ends [] text
      else if row.length + 1 < width then fill width ends (row ++ [c]) text
      else (row ++ [c]) :: fill width ends [] text

/-- A line that does not fill a row is one row. -/
theorem chop_short {line : List α} (short : line.length < width) : chop width line = [line] := by
  rw [chop, Nat.div_eq_of_lt short]
  simp [List.take_of_length_le (Nat.le_of_lt short)]

/-- A full row comes first. -/
theorem chop_full {row line : List α} (full : row.length = width) (wide : 0 < width) :
    chop width (row ++ line) = row :: chop width line := by
  have rest : (row ++ line).length / width = line.length / width + 1 := by
    rw [List.length_append, full, Nat.add_div_left _ wide]
  rw [chop, rest, List.range_succ_eq_map, List.map_cons, List.map_map]
  congr 1
  · simp [← full]
  · refine List.map_congr_left fun i _ => ?_
    have skipped : (i + 1) * width = row.length + i * width := by
      rw [full, Nat.add_mul, Nat.one_mul, Nat.add_comm]
    simp only [Function.comp, Nat.succ_eq_add_one, skipped]
    rw [← List.drop_drop, List.drop_left]

theorem modifyHead_nil_append (lines : List (List α)) : lines.modifyHead ([] ++ ·) = lines := by
  cases lines <;> rfl

/-- Filling rows makes the rows of the text after what was in the first row. -/
theorem fill_eq (wide : 0 < width) {row : List α} (short : row.length < width) (text : List α) :
    fill width ends row text = ((text.splitOnP ends).modifyHead (row ++ ·)).flatMap (chop width) := by
  have empty : ([] : List α).length < width := wide
  induction text generalizing row with
  | nil => simp [fill, chop_short short]
  | cons c text ih =>
      rw [fill, List.splitOnP_cons_eq_if_modifyHead]
      by_cases ended : ends c
      · rw [if_pos ended, if_pos ended, ih empty]
        rw [modifyHead_nil_append]
        simp [chop_short short]
      · rw [if_neg ended, if_neg ended]
        by_cases room : row.length + 1 < width
        · rw [if_pos room, ih (by simpa using room), List.modifyHead_modifyHead]
          congr 2
          funext line
          simp
        · rw [if_neg room, ih empty]
          have full : (row ++ [c]).length = width := by
            rw [List.length_append, List.length_singleton]
            omega
          cases split : text.splitOnP ends with
          | nil => exact absurd split (List.splitOnP_ne_nil _ _)
          | cons line lines =>
              have first := @chop_full α width (row ++ [c]) line full wide
              simp only [List.append_assoc, List.singleton_append] at first
              simp [first]

/-- Filling rows from an empty one makes the rows of the text. -/
theorem fill_nil (wide : 0 < width) (text : List α) : fill width ends [] text = rows width ends text := by
  rw [fill_eq wide (show ([] : List α).length < width from wide), modifyHead_nil_append, rows]

/-- The end of a line cuts the rows of a text in two. -/
theorem rows_append {c : α} (ended : ends c) (first second : List α) :
    rows width ends (first ++ c :: second) = rows width ends first ++ rows width ends second := by
  rw [rows, List.splitOnP_append_cons _ _ ended, List.flatMap_append]
  rfl

/-- A text without an end of line that does not fill a row is one row. -/
theorem rows_line {line : List α} (short : line.length < width) (inner : ∀ c ∈ line, ends c = false) :
    rows width ends line = [line] := by
  rw [rows, List.splitOnP_eq_singleton inner, List.flatMap_singleton, chop_short short]

end Lib.Wrap
