import GodOs.Vga.Screen

/-!
# The screen is a window on an unbounded terminal

`Terminal` has a row for every number and never scrolls. The screen shows its
last rows: 24 rows above the cursor once the cursor has come that far.
-/

namespace GodOs

/-- A terminal with unboundedly many rows. -/
structure Terminal where
  cells : Nat → Nat → UInt16
  row : Nat
  col : Nat
  color : UInt8

namespace Terminal

/-- A terminal whose rows are blanks of one colour. -/
def fresh (color : UInt8) : Terminal where
  cells _ _ := vgaEntry 0x20 color
  row := 0
  col := 0
  color := color

/-- Go to the next row. A row beyond the first 25 is filled with blanks of the
current colour as the cursor enters it, which happens once: rows only grow. -/
def newline (t : Terminal) : Terminal :=
  { t with
    row := t.row + 1
    col := 0
    cells := if t.row + 1 < 25 then t.cells
      else Function.update t.cells (t.row + 1) fun _ => vgaEntry 0x20 t.color }

/-- Move to a column, which is on the next row from column 80 on. -/
def moveTo (t : Terminal) (col : Nat) : Terminal :=
  if col < 80 then { t with col := col } else newline { t with col := col }

/-- Write a cell and step over it. -/
def write (t : Terminal) (c : UInt8) : Terminal :=
  moveTo { t with
    cells := Function.update t.cells t.row
      (Function.update (t.cells t.row) t.col (vgaEntry c t.color)) } (t.col + 1)

/-- One character: newline, carriage return, tab to the next multiple of 8,
backspace, or a cell. -/
def putchar (t : Terminal) (c : UInt8) : Terminal :=
  if c = 0x0A then t.newline
  else if c = 0x0D then { t with col := 0 }
  else if c = 0x09 then t.moveTo ((t.col / 8 + 1) * 8)
  else if c = 0x08 then { t with col := t.col - 1 }
  else t.write c

/-- What the terminal does at a call of the screen. -/
def apply (t : Terminal) : VgaOp → Terminal
  | .clear => fresh t.color
  | .setColor attr => { t with color := attr }
  | .putchar c => t.putchar c

def run (t : Terminal) (ops : List VgaOp) : Terminal := ops.foldl apply t

/-- The first row that the screen shows. -/
def base (t : Terminal) : Nat := t.row - 24

end Terminal

/-- The screen shows the terminal's rows from its base on. -/
structure Shows (vga : Vga) (t : Terminal) : Prop where
  row : vga.row = t.row - t.base
  col : vga.col = t.col
  color : vga.color = t.color
  cells : ∀ r < 25, ∀ c < 80, vga.buffer (r * 80 + c) = t.cells (t.base + r) c

/-- What holds between two calls: the screen shows the terminal, the cursor is
inside the screen, and the display controller has its position. -/
structure Settled (vga : Vga) (t : Terminal) : Prop extends Shows vga t where
  inside : t.col < 80
  cursor : vga.cursor = vga.row * 80 + vga.col

section Refinement

variable {vga : Vga} {t : Terminal}

theorem Shows.row_lt (shows' : Shows vga t) : vga.row < 25 := by
  have row := shows'.row
  simp only [Terminal.base] at row
  omega

/-- Columns do not matter to the cells. -/
theorem Shows.setCol (shows' : Shows vga t) (col : Nat) :
    Shows { vga with col := col } { t with col := col } where
  row := shows'.row
  col := rfl
  color := shows'.color
  cells := shows'.cells

theorem Shows.newline (shows' : Shows vga t) :
    ∃ vga', vgaNewline vga = some vga' ∧ Shows vga' t.newline := by
  have row := shows'.row
  have height : vgaHeight = 25 := rfl
  simp only [Terminal.base] at row
  rw [vgaNewline]
  simp only
  by_cases bottom : vga.row + 1 ≥ vgaHeight
  · -- the last row scrolls up: the base moves with the cursor
    rw [if_pos bottom, vgaScroll_eq]
    refine ⟨_, rfl, ?_, rfl, shows'.color, ?_⟩
    · simp only [Terminal.newline, Terminal.base]
      omega
    · intro r inRange c inRow
      have next : t.newline.base + r = t.base + (r + 1) := by
        simp only [Terminal.newline, Terminal.base]
        omega
      have deep : ¬ t.row + 1 < 25 := by omega
      rw [next]
      simp only [Terminal.newline, if_neg deep]
      by_cases last : r = 24
      · have entered : t.base + (r + 1) = t.row + 1 := by
          simp only [Terminal.base]
          omega
        rw [if_neg (by omega), if_pos (by omega), entered, Function.update_self, shows'.color]
      · have older : t.base + (r + 1) ≠ t.row + 1 := by
          simp only [Terminal.base]
          omega
        rw [if_pos (by omega), Function.update_of_ne older, ← shows'.cells (r + 1) (by omega) c inRow]
        congr 1
        omega
  · rw [if_neg bottom]
    have shallow : t.row + 1 < 25 := by omega
    refine ⟨_, rfl, ?_, rfl, shows'.color, ?_⟩
    · simp only [Terminal.newline, Terminal.base]
      omega
    · intro r inRange c inRow
      have same : t.newline.base = t.base := by
        simp only [Terminal.newline, Terminal.base]
        omega
      rw [same]
      simp only [Terminal.newline, if_pos shallow]
      exact shows'.cells r inRange c inRow

/-- Moving on to a column, or past the end of the row. -/
theorem Shows.moveTo (shows' : Shows vga t) (col : Nat) :
    ∃ vga', (if col ≥ vgaWidth then vgaNewline { vga with col := col }
      else some { vga with col := col }) = some vga' ∧ Shows vga' (t.moveTo col) ∧
        (t.moveTo col).col < 80 := by
  have width : vgaWidth = 80 := rfl
  have moved := shows'.setCol col
  rw [Terminal.moveTo]
  by_cases inside : col < 80
  · rw [if_neg (by omega), if_pos inside]
    exact ⟨_, rfl, moved, inside⟩
  · obtain ⟨vga', result, shows''⟩ := moved.newline
    rw [if_pos (by omega), if_neg inside]
    exact ⟨vga', result, shows'', (by decide : 0 < 80)⟩

/-- Writing a cell at the cursor. -/
theorem Shows.write (shows' : Shows vga t) (inside : t.col < 80) (c : UInt8) :
    ∃ vga', vga.write (vga.row * vgaWidth + vga.col) (vgaEntry c vga.color) = some vga' ∧
      vga'.col = vga.col ∧ Shows vga' { t with
        cells := Function.update t.cells t.row
          (Function.update (t.cells t.row) t.col (vgaEntry c t.color)) } := by
  have rowLt := shows'.row_lt
  have row := shows'.row
  have col := shows'.col
  have size : vgaHeight * vgaWidth = 2000 := rfl
  have width : vgaWidth = 80 := rfl
  have place : t.base + vga.row = t.row := by
    simp only [Terminal.base] at row ⊢
    omega
  rw [Vga.write, if_pos (by rw [size, width]; omega)]
  refine ⟨_, rfl, rfl, row, col, shows'.color, fun r inRange c' inRow => ?_⟩
  have cell := shows'.cells r inRange c' inRow
  change Function.update vga.buffer (vga.row * vgaWidth + vga.col) (vgaEntry c vga.color)
    (r * 80 + c') = Function.update t.cells t.row
      (Function.update (t.cells t.row) t.col (vgaEntry c t.color)) (t.base + r) c'
  by_cases sameRow : r = vga.row
  · rw [sameRow, place] at cell ⊢
    rw [Function.update_self, width, shows'.color]
    by_cases sameCol : c' = t.col
    · rw [sameCol, col, Function.update_self, Function.update_self]
    · rw [Function.update_of_ne (by omega), Function.update_of_ne sameCol, cell]
  · have other : t.base + r ≠ t.row := by omega
    rw [Function.update_of_ne (by rw [width]; omega), Function.update_of_ne other, cell]

/-- Sending the cursor position does not change what is shown. -/
theorem Shows.settle (shows' : Shows vga t) (inside : t.col < 80) :
    Settled (vgaUpdateCursor vga) t where
  row := shows'.row
  col := shows'.col
  color := shows'.color
  cells := shows'.cells
  inside := inside
  cursor := by
    have rowLt := shows'.row_lt
    have col := shows'.col
    have width : vgaWidth = 80 := rfl
    exact vgaUpdateCursor_cursor (by rw [width]; omega)

/-- One character moves the screen as it moves the terminal. -/
theorem Shows.place (shows' : Shows vga t) (inside : t.col < 80) (c : UInt8) :
    ∃ vga', vgaPlace vga c = some vga' ∧ Shows vga' (t.putchar c) ∧ (t.putchar c).col < 80 := by
  have col := shows'.col
  rw [vgaPlace, Terminal.putchar]
  by_cases isNewline : c = 0x0A
  · simp only [if_pos isNewline]
    obtain ⟨vga', result, after⟩ := shows'.newline
    exact ⟨vga', result, after, (by decide : 0 < 80)⟩
  simp only [if_neg isNewline]
  by_cases isReturn : c = 0x0D
  · simp only [if_pos isReturn]
    exact ⟨_, rfl, shows'.setCol 0, (by decide : 0 < 80)⟩
  simp only [if_neg isReturn]
  by_cases isTab : c = 0x09
  · simp only [if_pos isTab]
    have stop : (vga.col + 8) &&& 0xFFFFFFF8 = (t.col / 8 + 1) * 8 := by
      rw [show 0xFFFFFFF8 = (2 ^ 29 - 1) * 2 ^ 3 from rfl, Lib.Bits.and_field]
      omega
    rw [stop]
    exact shows'.moveTo _
  simp only [if_neg isTab]
  by_cases isBack : c = 0x08
  · simp only [if_pos isBack]
    by_cases moves : vga.col > 0
    · rw [if_pos moves, ← col]
      exact ⟨_, rfl, shows'.setCol (vga.col - 1), (by omega : vga.col - 1 < 80)⟩
    · have first : t.col - 1 = t.col := by omega
      rw [if_neg moves, first]
      exact ⟨_, rfl, shows', inside⟩
  simp only [if_neg isBack]
  obtain ⟨written, result, same, shown⟩ := shows'.write inside c
  rw [result]
  simp only [Option.bind_eq_bind, Option.bind_some, same, col]
  exact shown.moveTo (t.col + 1)

/-- One character keeps the screen and the terminal together. -/
theorem Settled.putchar (settled : Settled vga t) (c : UInt8) :
    ∃ vga', vgaPutchar vga c = some vga' ∧ Settled vga' (t.putchar c) := by
  obtain ⟨vga', result, after, within⟩ := settled.toShows.place settled.inside c
  refine ⟨vgaUpdateCursor vga', ?_, after.settle within⟩
  rw [vgaPutchar, result]
  rfl

/-- Clearing makes a fresh terminal of the current colour. -/
theorem vgaClear_settled (vga : Vga) :
    ∃ vga', vgaClear vga = some vga' ∧ Settled vga' (Terminal.fresh vga.color) := by
  rw [vgaClear, vgaBlank_eq (by decide)]
  refine ⟨_, rfl, Shows.settle ⟨rfl, rfl, rfl, ?_⟩ (by decide : 0 < 80)⟩
  intro r inRange c inRow
  have size : 0 + vgaWidth * vgaHeight = 2000 := rfl
  exact if_pos (by rw [size]; omega)

theorem Settled.apply (settled : Settled vga t) (op : VgaOp) :
    ∃ vga', op.apply vga = some vga' ∧ Settled vga' (t.apply op) := by
  cases op with
  | clear =>
      rw [Terminal.apply, ← settled.color]
      exact vgaClear_settled vga
  | setColor attr =>
      refine ⟨_, rfl, ?_⟩
      exact { settled with color := rfl }
  | putchar c => exact settled.putchar c

/-- A run of calls keeps the screen and the terminal together. -/
theorem Settled.run (settled : Settled vga t) (ops : List VgaOp) :
    ∃ vga', vgaRun vga ops = some vga' ∧ Settled vga' (t.run ops) := by
  induction ops generalizing vga t with
  | nil => exact ⟨vga, rfl, settled⟩
  | cons op ops ih =>
      obtain ⟨middle, first, settled'⟩ := settled.apply op
      obtain ⟨vga', rest, settled''⟩ := ih settled'
      refine ⟨vga', ?_, settled''⟩
      rw [vgaRun, List.foldlM_cons, first]
      exact rest

/-- **The screen refines the unbounded terminal.** After `vga_clear` and any
sequence of calls, all of whose buffer accesses were in range, the screen shows
the terminal from row `max(0, row - 24)` on, the cursor is inside the screen, and
the display controller has its position. -/
theorem screen_refines_terminal (start : Vga) (ops : List VgaOp) :
    ∃ vga, vgaRun start (.clear :: ops) = some vga ∧
      vga.row < 25 ∧ vga.col < 80 ∧
      vga.row = ((Terminal.fresh start.color).run ops).row -
        (((Terminal.fresh start.color).run ops).row - 24) ∧
      vga.col = ((Terminal.fresh start.color).run ops).col ∧
      (∀ r < 25, ∀ c < 80, vga.buffer (r * 80 + c) =
        ((Terminal.fresh start.color).run ops).cells
          (((Terminal.fresh start.color).run ops).row - 24 + r) c) ∧
      vga.cursor = vga.row * 80 + vga.col := by
  obtain ⟨cleared, first, settled⟩ := vgaClear_settled start
  obtain ⟨vga, rest, final⟩ := settled.run ops
  refine ⟨vga, ?_, final.row_lt, ?_, final.row, final.col, final.cells, final.cursor⟩
  · rw [vgaRun, List.foldlM_cons, VgaOp.apply, first]
    exact rest
  · rw [final.col]
    exact final.inside

end Refinement

end GodOs
