import GodOs.Vga.Terminal

/-!
# Characters and colours on the screen

`Sheet` is the terminal with the character and the attribute of each cell apart.
The screen packs both into 16 bits, and the conversion of a signed character spoils
the colour of the upper half of the character set: `colours_intact` says when the
colours survive.
-/

namespace GodOs

/-- A terminal whose cells are characters with the attributes they were written in. -/
structure Sheet where
  cells : Nat → Nat → UInt8 × UInt8
  row : Nat
  col : Nat
  color : UInt8

namespace Sheet

/-- Blanks of one colour. -/
def fresh (color : UInt8) : Sheet where
  cells _ _ := (0x20, color)
  row := 0
  col := 0
  color := color

/-- Go to the next row; from row 25 on it is blanked in the current colour. -/
def newline (sheet : Sheet) : Sheet :=
  { sheet with
    row := sheet.row + 1
    col := 0
    cells := if sheet.row + 1 < 25 then sheet.cells
      else Function.update sheet.cells (sheet.row + 1) fun _ => (0x20, sheet.color) }

/-- Move to a column, which is on the next row from column 80 on. -/
def moveTo (sheet : Sheet) (col : Nat) : Sheet :=
  if col < 80 then { sheet with col := col } else newline { sheet with col := col }

/-- Place a character in the current colour. -/
def place (sheet : Sheet) (c : UInt8) : Sheet :=
  { sheet with
    cells := Function.update sheet.cells sheet.row
      (Function.update (sheet.cells sheet.row) sheet.col (c, sheet.color)) }

def putchar (sheet : Sheet) (c : UInt8) : Sheet :=
  if c = 0x0A then sheet.newline
  else if c = 0x0D then { sheet with col := 0 }
  else if c = 0x09 then sheet.moveTo ((sheet.col / 8 + 1) * 8)
  else if c = 0x08 then { sheet with col := sheet.col - 1 }
  else (sheet.place c).moveTo (sheet.col + 1)

def apply (sheet : Sheet) : VgaOp → Sheet
  | .clear => fresh sheet.color
  | .setColor attr => { sheet with color := attr }
  | .putchar c => sheet.putchar c

def run (sheet : Sheet) (ops : List VgaOp) : Sheet := ops.foldl apply sheet

/-- The terminal with both halves packed into its cells. -/
def print (sheet : Sheet) : Terminal where
  cells row col := vgaEntry (sheet.cells row col).1 (sheet.cells row col).2
  row := sheet.row
  col := sheet.col
  color := sheet.color

end Sheet

/-- The screen shows the characters of the sheet in their attributes: the low and the
high byte of every cell. -/
def ColoursIntact (vga : Vga) (sheet : Sheet) : Prop :=
  ∀ r < 25, ∀ c < 80,
    (vga.buffer (r * 80 + c)).toUInt8 = (sheet.cells (sheet.row - 24 + r) c).1 ∧
      (vga.buffer (r * 80 + c) >>> 8).toUInt8 = (sheet.cells (sheet.row - 24 + r) c).2

/-- The current attribute after a sequence of calls. -/
def colorAfter (color : UInt8) (ops : List VgaOp) : UInt8 :=
  ops.foldl (fun color op => match op with | .setColor attr => attr | _ => color) color

section Entry

variable {c color : UInt8}

theorem blank_lower : (0x20 : UInt8) < 0x80 := by decide

/-- The low byte of a cell is the character. -/
theorem vgaEntry_low (c color : UInt8) : (vgaEntry c color).toUInt8 = c := by
  have colour : (color.toUInt16 <<< 8).toUInt8 = 0 := by
    revert color
    decide +kernel
  have character : c.toInt8.toInt16.toUInt16.toUInt8 = c := by
    revert c
    decide +kernel
  rw [vgaEntry, UInt16.toUInt8_or, colour, character, UInt8.or_zero]

/-- The high byte is the attribute, but for a character with its top bit set it is `0xFF`. -/
theorem vgaEntry_high (c color : UInt8) :
    (vgaEntry c color >>> 8).toUInt8 = if c < 0x80 then color else 0xFF := by
  have colour : ((color.toUInt16 <<< 8) >>> 8).toUInt8 = color := by
    revert color
    decide +kernel
  have sign : (c.toInt8.toInt16.toUInt16 >>> 8).toUInt8 = if c < 0x80 then 0 else 0xFF := by
    revert c
    decide +kernel
  have full : 0xFF ||| color = 0xFF := by
    revert color
    decide +kernel
  rw [vgaEntry, UInt16.shiftRight_or, UInt16.toUInt8_or, colour, sign]
  split
  · rw [UInt8.zero_or]
  · exact full

/-- The attribute survives in a cell for a character of the lower half, or if it is `0xFF`. -/
theorem vgaEntry_high_iff :
    (vgaEntry c color >>> 8).toUInt8 = color ↔ c < 0x80 ∨ color = 0xFF := by
  rw [vgaEntry_high]
  by_cases lower : c < 0x80
  · simp [lower]
  · rw [if_neg lower, eq_comm]
    exact (or_iff_right lower).symm

end Entry

namespace Sheet

variable {sheet : Sheet} {vga : Vga}

theorem print_newline (sheet : Sheet) : sheet.newline.print = sheet.print.newline := by
  refine Terminal.mk.injEq .. ▸ ⟨?_, rfl, rfl, rfl⟩
  by_cases shallow : sheet.row + 1 < 25
  · have same : sheet.newline.cells = sheet.cells := if_pos shallow
    rw [same]
    exact (if_pos shallow).symm
  · have entered : sheet.newline.cells =
        Function.update sheet.cells (sheet.row + 1) fun _ => (0x20, sheet.color) := if_neg shallow
    rw [entered]
    refine Eq.trans ?_ (if_neg shallow).symm
    funext row col
    by_cases last : row = sheet.row + 1
    · subst last
      simp only [Function.update_self, print]
    · simp only [Function.update_of_ne last, print]

theorem print_moveTo (sheet : Sheet) (col : Nat) :
    (sheet.moveTo col).print = sheet.print.moveTo col := by
  rw [moveTo, Terminal.moveTo]
  split
  · rfl
  · exact print_newline _

theorem print_place (sheet : Sheet) (c : UInt8) : (sheet.place c).print = { sheet.print with
    cells := Function.update sheet.print.cells sheet.row
      (Function.update (sheet.print.cells sheet.row) sheet.col (vgaEntry c sheet.color)) } := by
  simp only [print, place, Terminal.mk.injEq, and_true]
  funext row col
  by_cases sameRow : row = sheet.row
  · rw [sameRow, Function.update_self, Function.update_self]
    by_cases sameCol : col = sheet.col
    · rw [sameCol, Function.update_self, Function.update_self]
    · rw [Function.update_of_ne sameCol, Function.update_of_ne sameCol]
  · rw [Function.update_of_ne sameRow, Function.update_of_ne sameRow]

/-- Packing the cells commutes with every call. -/
theorem print_apply (sheet : Sheet) (op : VgaOp) : (sheet.apply op).print = sheet.print.apply op := by
  cases op with
  | clear => rfl
  | setColor attr => rfl
  | putchar c =>
      simp only [apply, putchar, Terminal.apply, Terminal.putchar, Terminal.write]
      split_ifs with isNewline isReturn isTab isBack
      · exact print_newline sheet
      · rfl
      · exact print_moveTo sheet _
      · rfl
      · rw [print_moveTo, print_place]
        rfl

theorem print_run (sheet : Sheet) (ops : List VgaOp) : (sheet.run ops).print = sheet.print.run ops := by
  induction ops generalizing sheet with
  | nil => rfl
  | cons op ops ih =>
      rw [run, List.foldl_cons, Terminal.run, List.foldl_cons, ← print_apply]
      exact ih (sheet.apply op)

theorem run_snoc (sheet : Sheet) (ops : List VgaOp) (op : VgaOp) :
    sheet.run (ops ++ [op]) = (sheet.run ops).apply op := by
  rw [run, run, List.foldl_append]
  rfl

/-- The current attribute is the one set last. -/
theorem run_color (sheet : Sheet) (ops : List VgaOp) :
    (sheet.run ops).color = colorAfter sheet.color ops := by
  induction ops generalizing sheet with
  | nil => rfl
  | cons op ops ih =>
      rw [run, List.foldl_cons, colorAfter, List.foldl_cons]
      refine (ih (sheet.apply op)).trans ?_
      rw [colorAfter]
      congr 1
      cases op with
      | clear => rfl
      | setColor attr => rfl
      | putchar c =>
          simp only [apply, putchar, moveTo, newline, place]
          split_ifs <;> rfl

/-- Every character of the sheet leaves its attribute visible. -/
def Legible (sheet : Sheet) : Prop :=
  ∀ row col, (sheet.cells row col).1 < 0x80 ∨ (sheet.cells row col).2 = 0xFF

theorem Legible.newline (legible : sheet.Legible) : sheet.newline.Legible := by
  intro row col
  simp only [Sheet.newline]
  split
  · exact legible row col
  · by_cases entered : row = sheet.row + 1
    · rw [entered, Function.update_self]
      exact .inl blank_lower
    · rw [Function.update_of_ne entered]
      exact legible row col

theorem Legible.moveTo (legible : sheet.Legible) (col : Nat) : (sheet.moveTo col).Legible := by
  rw [Sheet.moveTo]
  split
  · exact legible
  · exact @Legible.newline { sheet with col := col } legible

theorem Legible.place (legible : sheet.Legible) {c : UInt8} (fits : c < 0x80 ∨ sheet.color = 0xFF) :
    (sheet.place c).Legible := by
  intro row col
  simp only [Sheet.place]
  by_cases sameRow : row = sheet.row
  · rw [sameRow, Function.update_self]
    by_cases sameCol : col = sheet.col
    · rw [sameCol, Function.update_self]
      exact fits
    · rw [Function.update_of_ne sameCol]
      exact legible _ col
  · rw [Function.update_of_ne sameRow]
    exact legible row col

/-- Calls whose characters leave the current attribute visible keep the sheet legible. -/
theorem Legible.apply (legible : sheet.Legible) {op : VgaOp}
    (fits : ∀ c, op = .putchar c → c < 0x80 ∨ sheet.color = 0xFF) : (sheet.apply op).Legible := by
  cases op with
  | clear => exact fun _ _ => .inl blank_lower
  | setColor attr => exact legible
  | putchar c =>
      simp only [Sheet.apply, putchar]
      split_ifs with isNewline isReturn isTab isBack
      · exact legible.newline
      · exact legible
      · exact legible.moveTo _
      · exact legible
      · exact (legible.place (fits c rfl)).moveTo _

theorem Legible.run (legible : sheet.Legible) {ops : List VgaOp}
    (fits : ∀ before c after, ops = before ++ .putchar c :: after →
      c < 0x80 ∨ colorAfter sheet.color before = 0xFF) : (sheet.run ops).Legible := by
  induction ops using List.reverseRecOn with
  | nil => exact legible
  | append_singleton ops op ih =>
      rw [run_snoc]
      refine (ih fun before c after shape => ?_).apply fun c isPut => ?_
      · exact fits before c (after ++ [op]) (by rw [shape, List.append_assoc]; rfl)
      · rw [run_color]
        exact fits ops c [] (by rw [isPut])

/-- A printed character stands where the cursor was. -/
theorem placed (sheet : Sheet) {c : UInt8} (upper : ¬ c < 0x80) :
    (sheet.putchar c).cells sheet.row sheet.col = (c, sheet.color) ∧
      ((sheet.putchar c).row = sheet.row ∨ (sheet.putchar c).row = sheet.row + 1) := by
  have printed : sheet.putchar c = (sheet.place c).moveTo (sheet.col + 1) := by
    have notControl : c ≠ 0x0A ∧ c ≠ 0x0D ∧ c ≠ 0x09 ∧ c ≠ 0x08 := by
      refine ⟨?_, ?_, ?_, ?_⟩ <;>
      · rintro rfl
        exact upper (by decide)
    rw [putchar, if_neg notControl.1, if_neg notControl.2.1, if_neg notControl.2.2.1,
      if_neg notControl.2.2.2]
  have here : (sheet.place c).cells sheet.row sheet.col = (c, sheet.color) := by
    rw [place]
    simp only [Function.update_self]
  rw [printed, moveTo]
  split
  · exact ⟨here, .inl rfl⟩
  · refine ⟨?_, .inr rfl⟩
    simp only [newline]
    split
    · exact here
    · rw [Function.update_of_ne (by simp only [place]; omega)]
      exact here

end Sheet

section Colours

variable {vga : Vga} {sheet : Sheet}

/-- The screen is the packed sheet, so its colours depend on the cells it shows. -/
theorem Settled.coloursIntact_iff (settled : Settled vga sheet.print) :
    ColoursIntact vga sheet ↔ ∀ r < 25, ∀ c < 80,
      (sheet.cells (sheet.row - 24 + r) c).1 < 0x80 ∨
        (sheet.cells (sheet.row - 24 + r) c).2 = 0xFF := by
  refine forall₂_congr fun r inRange => forall₂_congr fun c inRow => ?_
  rw [settled.cells r inRange c inRow]
  exact (and_iff_right (vgaEntry_low _ _)).trans vgaEntry_high_iff

/-- After `vga_clear` and any calls the screen is the packed sheet. -/
theorem vgaRun_sheet (start : Vga) (ops : List VgaOp) :
    ∃ vga, vgaRun start (.clear :: ops) = some vga ∧
      Settled vga ((Sheet.fresh start.color).run ops).print := by
  obtain ⟨cleared, first, settled⟩ := vgaClear_settled start
  obtain ⟨vga, rest, final⟩ := settled.run ops
  refine ⟨vga, ?_, ?_⟩
  · rw [vgaRun, List.foldlM_cons, VgaOp.apply, first]
    exact rest
  · rw [Sheet.print_run]
    exact final

/-- **The colours of the screen.** After `vga_clear`, characters and attributes are intact
in every state of a run exactly when each character it prints is of the lower half of
the character set, or printed in the attribute `0xFF`. -/
theorem colours_intact (start : Vga) (ops : List VgaOp) :
    (∀ before after, ops = before ++ after → ∃ vga, vgaRun start (.clear :: before) = some vga ∧
      ColoursIntact vga ((Sheet.fresh start.color).run before)) ↔
    ∀ before c after, ops = before ++ .putchar c :: after →
      c < 0x80 ∨ colorAfter start.color before = 0xFF := by
  constructor
  · intro intact before c after shape
    by_contra spoiled
    rw [not_or] at spoiled
    obtain ⟨earlier, _, settled⟩ := vgaRun_sheet start before
    obtain ⟨vga, run, final⟩ := vgaRun_sheet start (before ++ [.putchar c])
    obtain ⟨vga', run', shown⟩ := intact (before ++ [.putchar c]) after (by rw [shape, List.append_assoc]; rfl)
    obtain rfl := Option.some.inj (run.symm.trans run')
    -- the character is on the screen, at the place where the cursor was
    rw [Sheet.run_snoc] at shown final
    obtain ⟨here, rows⟩ := ((Sheet.fresh start.color).run before).placed spoiled.1
    have inside : ((Sheet.fresh start.color).run before).col < 80 := settled.inside
    have cell := final.coloursIntact_iff.mp shown
      (((Sheet.fresh start.color).run before).row -
        ((((Sheet.fresh start.color).run before).apply (.putchar c)).row - 24))
      (by simp only [Sheet.apply]; omega) _ inside
    have place : (((Sheet.fresh start.color).run before).apply (.putchar c)).row - 24 +
        (((Sheet.fresh start.color).run before).row -
          ((((Sheet.fresh start.color).run before).apply (.putchar c)).row - 24)) =
        ((Sheet.fresh start.color).run before).row := by
      simp only [Sheet.apply]
      omega
    rw [place, Sheet.apply] at cell
    simp only [here, Sheet.run_color] at cell
    exact cell.elim spoiled.1 spoiled.2
  · intro fits before after shape
    obtain ⟨vga, run, settled⟩ := vgaRun_sheet start before
    refine ⟨vga, run, settled.coloursIntact_iff.mpr fun r _ c _ => ?_⟩
    have blank : (Sheet.fresh start.color).Legible := fun _ _ => .inl blank_lower
    refine blank.run (fun before' c' after' shape' => ?_) _ _
    exact fits before' c' (after' ++ after) (by rw [shape, shape', List.append_assoc]; rfl)

/-- A character of the upper half, written in grey on black, turns its cell white on white. -/
theorem colour_spoiled : ∃ start vga, start.color = 0x07 ∧
    vgaRun start [.clear, .putchar 0xE9] = some vga ∧ vga.buffer 0 = 0xFFE9 ∧
    ((Sheet.fresh start.color).run [.putchar 0xE9]).cells 0 0 = (0xE9, 0x07) ∧
    ¬ ColoursIntact vga ((Sheet.fresh start.color).run [.putchar 0xE9]) := by
  obtain ⟨vga, run, settled⟩ := vgaRun_sheet
    ⟨fun _ => 0, 0, 0, 0x07, 0, fun _ => 0⟩ [.putchar 0xE9]
  have cell := settled.cells 0 (by decide) 0 (by decide)
  refine ⟨_, vga, rfl, run, cell, rfl, fun intact => ?_⟩
  have colour := (intact 0 (by decide) 0 (by decide)).2
  rw [cell] at colour
  exact absurd colour (by decide)

end Colours

end GodOs
