import GodOs.Lib.Wrap
import GodOs.Vga.Colour

/-!
# A dump of the screen and `decode_vga.py`

The text buffer is saved as bytes, and the decoder prints them as text. `dump_shows_text`
says which text that is, in terms of what the kernel sent to the screen.
-/

namespace GodOs

open Lib

/-- The text buffer as saved from `0xB8000` on: the low byte of each cell comes first. -/
def vgaDump (vga : Vga) : List UInt8 :=
  (List.range (2 * (vgaHeight * vgaWidth))).map fun offset =>
    if offset % 2 = 0 then (vga.buffer (offset / 2)).toUInt8
    else (vga.buffer (offset / 2) >>> 8).toUInt8

/-- `COLS`. -/
def decodeCols : Nat := 80

/-- `ROWS`. -/
def decodeHeight : Nat := 25

/-- `ROW_BYTES`. -/
def decodeRowBytes : Nat := decodeCols * 2

/-- A byte that is not printable becomes a dot. -/
def decodeChar (ch : UInt8) : Char := if 32 ≤ ch ∧ ch < 127 then Char.ofNat ch.toNat else '.'

def rstrip (text : List Char) : List Char := text.rdropWhile Char.isWhitespace

/-- One turn of the outer loop of `decode_rows`. An index past the end of the data raises
an exception, which is `none`. -/
def decodeRow (data : List UInt8) (r : Nat) : Option (List Char × List UInt8) := do
  let cells ← (List.range decodeCols).mapM fun c => do
    let ch ← data[r * decodeRowBytes + c * 2]?
    let attr ← data[r * decodeRowBytes + c * 2 + 1]?
    some (decodeChar ch, attr)
  some (rstrip (cells.map Prod.fst), cells.map Prod.snd)

def decodeRows (data : List UInt8) : Option (List (List Char × List UInt8)) :=
  (List.range decodeHeight).mapM (decodeRow data)

/-- The format `02X`. -/
def hex02 (n : Nat) : List Char := ((Nat.toDigits 16 n).map Char.toUpper).leftpad 2 '0'

/-- A line that the decoder prints. -/
def decodeLine (showAttr : Bool) (r : Nat) (row : List Char × List UInt8) : List Char :=
  hex02 r ++ "  ".toList ++ row.1 ++
    if showAttr then
      "   [attr: ".toList ++
        " ".toList.intercalate ((row.2.dedup.mergeSort (· ≤ ·)).map fun a => hex02 a.toNat) ++
        "]".toList
    else []

/-- What the decoder prints to `stderr`. -/
inductive DecodeError where
  | usage
  | unreadable (path reason : String)
  | short (path : String) (size need : Nat)

/-- The messages; `doc` is the text at the head of the decoder. -/
def DecodeError.text (doc : String) : DecodeError → String
  | usage => doc
  | unreadable path reason => "错误: 读不了 " ++ path ++ ": " ++ reason ++
      "\n      dump 文件要先用 QEMU monitor 的 memsave 生成, QEMU 那步失败的话这里就没有文件。"
  | short path size need => "错误: " ++ path ++ " 只有 " ++ toString size ++ " 字节, 解码 " ++
      toString decodeHeight ++ "x" ++ toString decodeCols ++ " 文本模式需要 " ++ toString need ++ " 字节"

/-- How the decoder ends. -/
structure Decoding where
  stdout : List (List Char)
  stderr : Option DecodeError
  status : Nat

/-- `main` of the decoder, for the files that it can read. -/
def decodeMain (readFile : String → Except String (List UInt8)) (args : List String) :
    Option Decoding :=
  let showAttr := args.contains "--attr"
  match args.filter (· ≠ "--attr") with
  | [path] =>
      match readFile path with
      | .error reason => some ⟨[], some (.unreadable path reason), 1⟩
      | .ok data =>
          let need := decodeHeight * decodeRowBytes
          if data.length < need then some ⟨[], some (.short path data.length need), 1⟩
          else do
            let rows ← decodeRows data
            some ⟨rows.mapIdx (decodeLine showAttr), none, 0⟩
  | _ => some ⟨[], some .usage, 2⟩

/-- The rows of a log that the screen has room for, with empty rows below a short log. -/
def lastRows (log : List (List UInt8)) : List (List UInt8) := (log.rtake 25).rightpad 25 []

/-- The rows of a text on the screen. -/
def textRows (text : List UInt8) : List (List UInt8) := Wrap.rows 80 (· == 0x0A) text

/-- A row of the screen as the decoder prints it. -/
def decodedRow (row : List UInt8) : List Char := rstrip (row.map decodeChar)

section Rows

variable {α β : Type} {f : α → Option β} {g : α → β}

theorem mapM_eq_map {list : List α} (each : ∀ x ∈ list, f x = some (g x)) :
    list.mapM f = some (list.map g) := by
  induction list with
  | nil => rfl
  | cons x list ih =>
      rw [List.mapM_cons, each x List.mem_cons_self, ih fun y member => each y (.tail x member)]
      rfl

end Rows

section Decode

variable {vga : Vga} {t : Terminal} {r c : Nat}

theorem vgaDump_length (vga : Vga) : (vgaDump vga).length = 4000 := by
  rw [vgaDump, List.length_map, List.length_range]
  rfl

/-- Where the dump holds the two bytes of a cell. -/
theorem vgaDump_cell (row : r < 25) (column : c < 80) :
    (vgaDump vga)[r * decodeRowBytes + c * 2]? = some (vga.buffer (r * 80 + c)).toUInt8 ∧
      (vgaDump vga)[r * decodeRowBytes + c * 2 + 1]? =
        some (vga.buffer (r * 80 + c) >>> 8).toUInt8 := by
  have bytes : decodeRowBytes = 160 := rfl
  have size : 2 * (vgaHeight * vgaWidth) = 4000 := rfl
  rw [vgaDump, List.getElem?_map, List.getElem?_map, bytes, size, List.getElem?_range (by omega),
    List.getElem?_range (by omega)]
  have low : (r * 160 + c * 2) / 2 = r * 80 + c := by omega
  have high : (r * 160 + c * 2 + 1) / 2 = r * 80 + c := by omega
  simp only [Option.map_some, low, high]
  rw [if_pos (by omega), if_neg (by omega)]
  exact ⟨rfl, rfl⟩

/-- The decoder on the dump of a screen. -/
theorem decodeRows_vgaDump (vga : Vga) : decodeRows (vgaDump vga) =
    some ((List.range 25).map fun r =>
      (rstrip ((List.range 80).map fun c => decodeChar (vga.buffer (r * 80 + c)).toUInt8),
        (List.range 80).map fun c => (vga.buffer (r * 80 + c) >>> 8).toUInt8)) := by
  refine mapM_eq_map fun r row => ?_
  have cells : (List.range decodeCols).mapM (fun c => do
      let ch ← (vgaDump vga)[r * decodeRowBytes + c * 2]?
      let attr ← (vgaDump vga)[r * decodeRowBytes + c * 2 + 1]?
      some (decodeChar ch, attr)) = some ((List.range 80).map fun c =>
        (decodeChar (vga.buffer (r * 80 + c)).toUInt8, (vga.buffer (r * 80 + c) >>> 8).toUInt8)) := by
    refine mapM_eq_map fun c column => ?_
    obtain ⟨low, high⟩ := @vgaDump_cell vga r c (List.mem_range.mp row) (List.mem_range.mp column)
    rw [low, high]
    rfl
  rw [decodeRow, cells]
  simp only [Option.bind_eq_bind, Option.bind_some, List.map_map, Function.comp_def]

end Decode

/-- The character of a log at a place, which is blank where the log has none. -/
def glyph (log : List (List UInt8)) (r c : Nat) : UInt8 := (log.getD r []).getD c 0x20

section Glyph

variable {log above : List (List UInt8)} {row : List UInt8} {r c : Nat} {byte : UInt8}

theorem glyph_after (outside : log.length ≤ r) : glyph log r c = 0x20 := by
  rw [glyph, List.getD_eq_default log [] outside]
  rfl

/-- An empty row adds no character. -/
theorem glyph_append_nil : glyph (log ++ [[]]) r c = glyph log r c := by
  by_cases inside : r < log.length
  · rw [glyph, List.getD_append _ _ _ _ inside, glyph]
  · rw [glyph_after (Nat.le_of_not_lt inside), glyph, List.getD_append_right _ _ _ _ (by omega)]
    cases r - log.length <;> rfl

/-- A character at the end of the last row. -/
theorem glyph_append : glyph (above ++ [row ++ [byte]]) r c =
    if r = above.length ∧ c = row.length then byte else glyph (above ++ [row]) r c := by
  rcases Nat.lt_trichotomy r above.length with upper | rfl | outside
  · rw [if_neg (by omega), glyph, glyph, List.getD_append _ _ _ _ upper, List.getD_append _ _ _ _ upper]
  · rw [glyph, glyph, List.getD_append_right _ _ _ _ (Nat.le_refl _),
      List.getD_append_right _ _ _ _ (Nat.le_refl _), Nat.sub_self, List.getD_cons_zero,
      List.getD_cons_zero]
    rcases Nat.lt_trichotomy c row.length with earlier | rfl | later
    · rw [if_neg (by omega), List.getD_append _ _ _ _ earlier]
    · rw [if_pos ⟨rfl, rfl⟩, List.getD_append_right _ _ _ _ (Nat.le_refl _), Nat.sub_self,
        List.getD_cons_zero]
    · have size : (row ++ [byte]).length = row.length + 1 := by simp
      rw [if_neg (by omega), List.getD_eq_default _ _ (by omega), List.getD_eq_default _ _ (by omega)]
  · have size : (above ++ [row]).length = above.length + 1 := by simp
    have size' : (above ++ [row ++ [byte]]).length = above.length + 1 := by simp
    rw [if_neg (by omega), glyph_after (by omega), glyph_after (by omega)]

end Glyph

section Log

variable {t : Terminal} {log above : List (List UInt8)} {row text : List UInt8} {c : UInt8}

/-- The characters of the terminal are those of a log, down to its last row. -/
structure Terminal.Reads (t : Terminal) (log : List (List UInt8)) : Prop where
  rows : t.row + 1 = log.length
  width : ∀ row ∈ log, row.length ≤ 80
  cells : ∀ r c, (r ≤ t.row ∨ r < 25) → c < 80 → (t.cells r c).toUInt8 = glyph log r c

/-- The cursor is behind the last row, which has room. -/
structure Terminal.Follows (t : Terminal) (above : List (List UInt8)) (row : List UInt8) : Prop
    extends t.Reads (above ++ [row]) where
  col : t.col = row.length
  room : row.length < 80

/-- Going to the next row starts an empty one. -/
theorem Terminal.Reads.newline (reads : t.Reads log) : t.newline.Follows log [] where
  rows := by
    rw [List.length_append, ← reads.rows]
    rfl
  width row member := by
    rcases List.mem_append.mp member with old | new
    · exact reads.width row old
    · rw [List.mem_singleton.mp new]
      exact Nat.zero_le _
  cells r c valid column := by
    have entered := reads.rows
    replace valid : r ≤ t.row + 1 ∨ r < 25 := valid
    rw [glyph_append_nil, Terminal.newline]
    by_cases shallow : t.row + 1 < 25
    · simp only [if_pos shallow]
      exact reads.cells r c (by omega) column
    · simp only [if_neg shallow]
      by_cases last : r = t.row + 1
      · rw [last, Function.update_self, vgaEntry_low, glyph_after (by omega)]
      · rw [Function.update_of_ne last]
        exact reads.cells r c (by omega) column
  col := rfl
  room := by decide

/-- The cell that a character fills. -/
theorem Terminal.Follows.fill (follows : t.Follows above row) (c : UInt8) :
    Terminal.Reads { t with
      cells := Function.update t.cells t.row
        (Function.update (t.cells t.row) t.col (vgaEntry c t.color)) } (above ++ [row ++ [c]]) := by
  have last : t.row = above.length := by
    have rows := follows.rows
    rw [List.length_append, List.length_singleton] at rows
    omega
  refine ⟨?_, fun line member => ?_, fun r column valid inRow => ?_⟩
  · rw [List.length_append, List.length_singleton]
    exact congrArg (· + 1) last
  · rcases List.mem_append.mp member with old | new
    · exact follows.width line (List.mem_append_left _ old)
    · rw [List.mem_singleton.mp new, List.length_append, List.length_singleton]
      exact follows.room
  · have before := follows.cells r column valid inRow
    rw [glyph_append, ← last, ← follows.col, ← before]
    dsimp only
    by_cases same : r = t.row
    · rw [same, Function.update_self]
      by_cases here : column = t.col
      · rw [if_pos ⟨rfl, here⟩, here, Function.update_self, vgaEntry_low]
      · rw [if_neg fun both => here both.2, Function.update_of_ne here]
    · rw [if_neg fun both => same both.1, Function.update_of_ne same]

/-- A character extends the last row, or ends it. -/
theorem Terminal.Follows.write (follows : t.Follows above row) (c : UInt8) :
    if row.length + 1 < 80 then (t.write c).Follows above (row ++ [c])
    else (t.write c).Follows (above ++ [row ++ [c]]) [] := by
  have filled := follows.fill c
  have col := follows.col
  rw [Terminal.write, Terminal.moveTo]
  by_cases short : row.length + 1 < 80
  · rw [if_pos short, if_pos (by rw [col]; exact short)]
    have size : (row ++ [c]).length = row.length + 1 := by simp
    exact ⟨⟨filled.rows, filled.width, filled.cells⟩, size ▸ congrArg (· + 1) col, size ▸ short⟩
  · rw [if_neg short, if_neg (by rw [col]; exact short)]
    exact Terminal.Reads.newline ⟨filled.rows, filled.width, filled.cells⟩

/-- The characters that only move the cursor within a row. -/
def StaysInRow (c : UInt8) : Prop := c = 0x0D ∨ c = 0x09 ∨ c = 0x08

instance (c : UInt8) : Decidable (StaysInRow c) := inferInstanceAs (Decidable (_ ∨ _))

/-- A text fills rows. -/
theorem Terminal.Follows.run (follows : t.Follows above row) (plain : ∀ c ∈ text, ¬ StaysInRow c) :
    (t.run (text.map .putchar)).Reads (above ++ Wrap.fill 80 (· == 0x0A) row text) := by
  induction text generalizing t above row with
  | nil => exact follows.toReads
  | cons c text ih =>
      obtain ⟨first, others⟩ := List.forall_mem_cons.mp plain
      rw [List.map_cons, Terminal.run, List.foldl_cons, Terminal.apply, Terminal.putchar, Wrap.fill]
      by_cases ended : c = 0x0A
      · have next := ih follows.toReads.newline others
        rw [List.append_assoc] at next
        rw [if_pos ended, if_pos (beq_iff_eq.mpr ended)]
        exact next
      · rw [StaysInRow, not_or, not_or] at first
        rw [if_neg ended, if_neg first.1, if_neg first.2.1, if_neg first.2.2,
          if_neg (by simpa using ended)]
        have written := follows.write c
        by_cases short : row.length + 1 < 80
        · rw [if_pos short] at written ⊢
          exact ih written others
        · rw [if_neg short] at written ⊢
          have next := ih written others
          rw [List.append_assoc] at next
          exact next

end Log

section Colour

variable {t : Terminal} {text : List UInt8} {c color : UInt8}

/-- Every cell has the current colour. -/
structure Terminal.Monochrome (t : Terminal) (color : UInt8) : Prop where
  current : t.color = color
  cells : ∀ r c, (t.cells r c >>> 8).toUInt8 = color

theorem Terminal.Monochrome.newline (mono : t.Monochrome color) : t.newline.Monochrome color := by
  refine ⟨mono.current, fun r c => ?_⟩
  rw [Terminal.newline]
  dsimp only
  split
  · exact mono.cells r c
  · by_cases last : r = t.row + 1
    · rw [last, Function.update_self, vgaEntry_high, if_pos blank_lower, mono.current]
    · rw [Function.update_of_ne last]
      exact mono.cells r c

theorem Terminal.Monochrome.moveTo (mono : t.Monochrome color) (col : Nat) :
    (t.moveTo col).Monochrome color := by
  rw [Terminal.moveTo]
  split
  · exact ⟨mono.current, mono.cells⟩
  · exact Terminal.Monochrome.newline ⟨mono.current, mono.cells⟩

theorem Terminal.Monochrome.fill (mono : t.Monochrome color) (lower : c < 0x80) :
    Terminal.Monochrome { t with
      cells := Function.update t.cells t.row
        (Function.update (t.cells t.row) t.col (vgaEntry c t.color)) } color := by
  refine ⟨mono.current, fun r column => ?_⟩
  dsimp only
  by_cases sameRow : r = t.row
  · rw [sameRow, Function.update_self]
    by_cases sameCol : column = t.col
    · rw [sameCol, Function.update_self, vgaEntry_high, if_pos lower, mono.current]
    · rw [Function.update_of_ne sameCol]
      exact mono.cells _ column
  · rw [Function.update_of_ne sameRow]
    exact mono.cells r column

theorem Terminal.Monochrome.putchar (mono : t.Monochrome color) (lower : c < 0x80) :
    (t.putchar c).Monochrome color := by
  rw [Terminal.putchar]
  split
  · exact mono.newline
  split
  · exact ⟨mono.current, mono.cells⟩
  split
  · exact mono.moveTo _
  split
  · exact ⟨mono.current, mono.cells⟩
  exact (mono.fill lower).moveTo _

theorem Terminal.Monochrome.run (mono : t.Monochrome color) (lower : ∀ c ∈ text, c < 0x80) :
    (t.run (text.map .putchar)).Monochrome color := by
  induction text generalizing t with
  | nil => exact mono
  | cons c text ih =>
      obtain ⟨first, others⟩ := List.forall_mem_cons.mp lower
      exact ih (mono.putchar first) others

end Colour

section Show

variable {vga : Vga} {t : Terminal} {log : List (List UInt8)} {row text : List UInt8}

theorem rstrip_blanks (text : List Char) (count : Nat) :
    rstrip (text ++ List.replicate count ' ') = rstrip text := by
  induction count with
  | zero => rw [List.replicate_zero, List.append_nil]
  | succ count ih =>
      rw [List.replicate_succ', ← List.append_assoc, rstrip,
        List.rdropWhile_concat_pos _ _ _ (by decide : Char.isWhitespace ' ' = true)]
      exact ih

/-- A row of the screen is its text and blanks. -/
theorem decodedRow_eq (width : row.length ≤ 80) :
    rstrip ((List.range 80).map fun c => decodeChar (row.getD c 0x20)) = decodedRow row := by
  have filled : (List.range 80).map (fun c => decodeChar (row.getD c 0x20)) =
      row.map decodeChar ++ List.replicate (80 - row.length) ' ' := by
    refine List.ext_getElem (by simp; omega) fun c _ _ => ?_
    by_cases inside : c < row.length
    · simp [inside]
    · simp only [List.getElem_map, List.getElem_range]
      rw [List.getD_eq_default _ _ (by omega),
        List.getElem_append_right (by rw [List.length_map]; omega), List.getElem_replicate]
      rfl
  rw [filled, rstrip_blanks, decodedRow]

/-- The rows that the screen shows, by their numbers. -/
theorem lastRows_eq (log : List (List UInt8)) :
    lastRows log = (List.range 25).map fun r => log.getD (log.length - 25 + r) [] := by
  have taken : (log.rtake 25).length = log.length - (log.length - 25) := by
    rw [List.rtake, List.length_drop]
  rw [lastRows, List.rightpad]
  refine List.ext_getElem (by simp; omega) fun r small _ => ?_
  rw [List.getElem_map, List.getElem_range]
  by_cases inside : r < (log.rtake 25).length
  · rw [List.getElem_append_left inside]
    simp only [List.rtake, List.getElem_drop]
    rw [List.getD_eq_getElem _ _ (by omega)]
  · rw [List.getElem_append_right (by omega), List.getElem_replicate,
      List.getD_eq_default _ _ (by omega)]

/-- The decoder on a screen that shows a terminal. -/
theorem Settled.decodeRows (settled : Settled vga t) (reads : t.Reads log) :
    GodOs.decodeRows (vgaDump vga) = some ((List.range 25).map fun r =>
      (decodedRow (log.getD (log.length - 25 + r) []),
        (List.range 80).map fun c => (t.cells (t.base + r) c >>> 8).toUInt8)) := by
  rw [decodeRows_vgaDump]
  have rows := reads.rows
  have first : t.base = log.length - 25 := by
    rw [Terminal.base]
    omega
  refine congrArg some (List.map_congr_left fun r small => ?_)
  have inRange := List.mem_range.mp small
  have width : (log.getD (log.length - 25 + r) []).length ≤ 80 := by
    by_cases inside : log.length - 25 + r < log.length
    · rw [List.getD_eq_getElem _ _ inside]
      exact reads.width _ (List.getElem_mem _)
    · rw [List.getD_eq_default _ _ (by omega)]
      exact Nat.zero_le _
  rw [← decodedRow_eq width]
  refine congrArg₂ Prod.mk (congrArg rstrip (List.map_congr_left fun c column => ?_))
    (List.map_congr_left fun c column => ?_)
  · rw [settled.cells r inRange c (List.mem_range.mp column),
      reads.cells _ c (by rw [Terminal.base]; omega) (List.mem_range.mp column), first]
    rfl
  · rw [settled.cells r inRange c (List.mem_range.mp column)]

/-- A fresh terminal has one empty row. -/
theorem Terminal.fresh_follows (color : UInt8) : (Terminal.fresh color).Follows [] [] where
  rows := rfl
  width := by simp
  cells r c _ _ := by
    rw [Terminal.fresh, vgaEntry_low]
    exact (@glyph_append_nil [] r c).symm
  col := rfl
  room := by decide

theorem Terminal.fresh_monochrome (color : UInt8) : (Terminal.fresh color).Monochrome color where
  current := rfl
  cells _ _ := by
    rw [Terminal.fresh, vgaEntry_high, if_pos blank_lower]

/-- The lines that the decoder prints for a log in one colour. -/
theorem Settled.decodedLines {showAttr : Bool} {color : UInt8} (settled : Settled vga t)
    (reads : t.Reads log) (mono : showAttr = true → t.Monochrome color) :
    ∃ rows, GodOs.decodeRows (vgaDump vga) = some rows ∧ rows.mapIdx (decodeLine showAttr) =
      (lastRows log).mapIdx fun r row =>
        decodeLine showAttr r (decodedRow row, List.replicate 80 color) := by
  refine ⟨_, settled.decodeRows reads, ?_⟩
  rw [lastRows_eq]
  refine List.ext_getElem (by simp) fun r _ _ => ?_
  simp only [List.getElem_mapIdx, List.getElem_map, List.getElem_range]
  cases showAttr with
  | false => simp only [decodeLine, Bool.false_eq_true, if_false]
  | true =>
      have attrs : (List.range 80).map (fun c => (t.cells (t.base + r) c >>> 8).toUInt8) =
          List.replicate 80 color := by
        refine List.eq_replicate_iff.mpr ⟨by simp, fun attr member => ?_⟩
        obtain ⟨c, _, rfl⟩ := List.mem_map.mp member
        exact (mono rfl).cells _ c
      rw [attrs]

/-- The decoder on the dump of a screen that shows a log. -/
theorem Settled.decodeMain {color : UInt8} {readFile : String → Except String (List UInt8)}
    {args : List String} {path : String} (settled : Settled vga t) (reads : t.Reads log)
    (one : args.filter (· ≠ "--attr") = [path]) (file : readFile path = .ok (vgaDump vga))
    (mono : "--attr" ∈ args → t.Monochrome color) :
    GodOs.decodeMain readFile args = some ⟨(lastRows log).mapIdx fun r row =>
      decodeLine (args.contains "--attr") r (decodedRow row, List.replicate 80 color), none, 0⟩ := by
  have size : ¬ (vgaDump vga).length < decodeHeight * decodeRowBytes := by
    rw [vgaDump_length]
    decide
  obtain ⟨rows, decoded, lines⟩ := @Settled.decodedLines vga t log (args.contains "--attr") color
    settled reads fun flag => mono (List.contains_iff_mem.mp flag)
  rw [GodOs.decodeMain, one]
  simp only [file, if_neg size, decoded]
  exact congrArg (fun lines => some (Decoding.mk lines none 0)) lines

/-- **The decoder shows what the kernel printed.** Clear the screen, print a text without
carriage returns, tabs and backspaces, save the screen and decode it: the decoder ends with
status 0 and prints 25 numbered lines. They are the last rows of the text, without the blanks
at their ends and with dots for what is not printable. A line of the text goes on in the next
row after 80 characters, so one that fills a row leaves an empty row behind it. With `--attr`,
for a text of bytes below 128, each line ends in the colour. -/
theorem dump_shows_text (start : Vga) (plain : ∀ c ∈ text, ¬ StaysInRow c) :
    ∃ vga, vgaRun start (.clear :: text.map .putchar) = some vga ∧
      ∀ {readFile args path}, args.filter (· ≠ "--attr") = [path] →
        readFile path = .ok (vgaDump vga) → ("--attr" ∈ args → ∀ c ∈ text, c < 0x80) →
        decodeMain readFile args = some ⟨(lastRows (textRows text)).mapIdx fun r row =>
          decodeLine (args.contains "--attr") r (decodedRow row, List.replicate 80 start.color),
          none, 0⟩ := by
  obtain ⟨cleared, first, settled⟩ := vgaClear_settled start
  obtain ⟨vga, rest, final⟩ := settled.run (text.map .putchar)
  have reads := (Terminal.fresh_follows start.color).run plain
  rw [List.nil_append, Wrap.fill_nil (by decide)] at reads
  refine ⟨vga, ?_, fun one file attributes => final.decodeMain reads one file fun flag =>
    (Terminal.fresh_monochrome start.color).run (attributes flag)⟩
  rw [vgaRun, List.foldlM_cons, VgaOp.apply, first]
  exact rest

end Show

/-- The first line that the kernel prints after its self-tests. -/
def sampleGreeting : List UInt8 := "Hello, kernel!\n".toList.map fun c => UInt8.ofNat c.toNat

/-- A screen before it is cleared. -/
def sampleScreen : Vga := ⟨fun _ => 0, 0, 0, 0x07, 0, fun _ => 0⟩

theorem dump_shows_text_sample :
    ∃ vga lines, vgaRun sampleScreen (.clear :: sampleGreeting.map .putchar) = some vga ∧
      decodeMain (fun _ => .ok (vgaDump vga)) ["build/m6.bin"] = some ⟨lines, none, 0⟩ ∧
      lines.take 2 = ["00  Hello, kernel!".toList, "01  ".toList] := by
  obtain ⟨vga, run, shows⟩ := @dump_shows_text sampleGreeting sampleScreen (by decide +kernel)
  have decoded := @shows (fun _ => .ok (vgaDump vga)) ["build/m6.bin"] "build/m6.bin"
    (by decide +kernel) rfl (by simp)
  exact ⟨vga, _, run, decoded, by decide +kernel⟩

end GodOs
