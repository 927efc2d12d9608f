import GodOs.Lib.Bits

/-!
# The text screen of `vga.c`

A buffer of 80 by 25 cells, a cursor in static variables, and the hardware cursor
behind a pair of ports. Every access to the buffer is checked: an index outside
it gives `none`, so a result says that all indices were in range.
-/

namespace GodOs

open Lib

def vgaWidth : Nat := 80
def vgaHeight : Nat := 25

/-- The text buffer, the static variables of `vga.c`, and the cursor registers of
the display controller with the index port that selects one of them. -/
structure Vga where
  buffer : Nat → UInt16
  row : Nat
  col : Nat
  color : UInt8
  crtcIndex : UInt8
  crtc : UInt8 → UInt8

/-- A character and its colour in one cell. `char` is signed, so the conversion to
16 bits copies its top bit. -/
def vgaEntry (c color : UInt8) : UInt16 := c.toInt8.toInt16.toUInt16 ||| (color.toUInt16 <<< 8)

def Vga.read (vga : Vga) (index : Nat) : Option UInt16 :=
  if index < vgaHeight * vgaWidth then some (vga.buffer index) else none

def Vga.write (vga : Vga) (index : Nat) (entry : UInt16) : Option Vga :=
  if index < vgaHeight * vgaWidth then
    some { vga with buffer := Function.update vga.buffer index entry }
  else none

/-- The first `count` rounds of the loop that moves rows up. -/
def vgaMoveUp (vga : Vga) : Nat → Option Vga
  | 0 => some vga
  | i + 1 => do
      let vga ← vgaMoveUp vga i
      let entry ← vga.read (i + vgaWidth)
      vga.write i entry

/-- The loop that writes `count` blanks from the index `first` on. -/
def vgaBlank (vga : Vga) (first : Nat) : Nat → Option Vga
  | 0 => some vga
  | i + 1 => do
      let vga ← vgaBlank vga first i
      vga.write (first + i) (vgaEntry 0x20 vga.color)

def vgaScroll (vga : Vga) : Option Vga := do
  let vga ← vgaMoveUp vga ((vgaHeight - 1) * vgaWidth)
  vgaBlank vga ((vgaHeight - 1) * vgaWidth) vgaWidth

def vgaNewline (vga : Vga) : Option Vga :=
  let vga := { vga with col := 0, row := vga.row + 1 }
  if vga.row ≥ vgaHeight then do
    let vga ← vgaScroll vga
    some { vga with row := vgaHeight - 1 }
  else some vga

/-- A byte sent to one of the two ports of the display controller. -/
def outb (vga : Vga) (port : Nat) (value : UInt8) : Vga :=
  if port = 0x3D4 then { vga with crtcIndex := value }
  else if port = 0x3D5 then { vga with crtc := Function.update vga.crtc vga.crtcIndex value }
  else vga

def vgaEnableCursor (vga : Vga) : Vga :=
  let vga := outb vga 0x3D4 0x0A
  let start := vga.crtc vga.crtcIndex
  let vga := outb vga 0x3D5 ((start &&& 0xC0) ||| 0x0E)
  let vga := outb vga 0x3D4 0x0B
  outb vga 0x3D5 0x0F

def vgaUpdateCursor (vga : Vga) : Vga :=
  let pos := UInt16.ofNat (vga.row * vgaWidth + vga.col)
  let vga := outb vga 0x3D4 0x0F
  let vga := outb vga 0x3D5 (pos &&& 0xFF).toUInt8
  let vga := outb vga 0x3D4 0x0E
  outb vga 0x3D5 (pos >>> 8).toUInt8

def vgaClear (vga : Vga) : Option Vga := do
  let vga ← vgaBlank vga 0 (vgaWidth * vgaHeight)
  some (vgaUpdateCursor (vgaEnableCursor { vga with row := 0, col := 0 }))

def vgaSetColor (vga : Vga) (attr : UInt8) : Vga := { vga with color := attr }

/-- The `switch` of `vga_putchar`. -/
def vgaPlace (vga : Vga) (c : UInt8) : Option Vga :=
  if c = 0x0A then vgaNewline vga
  else if c = 0x0D then some { vga with col := 0 }
  else if c = 0x09 then
    let vga := { vga with col := (vga.col + 8) &&& 0xFFFFFFF8 }
    if vga.col ≥ vgaWidth then vgaNewline vga else some vga
  else if c = 0x08 then some (if vga.col > 0 then { vga with col := vga.col - 1 } else vga)
  else do
    let vga ← vga.write (vga.row * vgaWidth + vga.col) (vgaEntry c vga.color)
    let vga := { vga with col := vga.col + 1 }
    if vga.col ≥ vgaWidth then vgaNewline vga else some vga

def vgaPutchar (vga : Vga) (c : UInt8) : Option Vga := do
  let vga ← vgaPlace vga c
  some (vgaUpdateCursor vga)

/-- The calls of the screen. -/
inductive VgaOp where
  | clear
  | setColor (attr : UInt8)
  | putchar (c : UInt8)
deriving Repr, DecidableEq

def VgaOp.apply (vga : Vga) : VgaOp → Option Vga
  | clear => vgaClear vga
  | setColor attr => some (vgaSetColor vga attr)
  | putchar c => vgaPutchar vga c

/-- A sequence of calls. -/
def vgaRun (vga : Vga) (ops : List VgaOp) : Option Vga := ops.foldlM VgaOp.apply vga

/-- The position that the display controller holds. -/
def Vga.cursor (vga : Vga) : Nat := (vga.crtc 0x0E).toNat * 256 + (vga.crtc 0x0F).toNat

section Loops

variable {vga : Vga} {count : Nat}

theorem vgaMoveUp_eq (fits : count + vgaWidth ≤ vgaHeight * vgaWidth) :
    vgaMoveUp vga count = some { vga with
      buffer := fun i => if i < count then vga.buffer (i + vgaWidth) else vga.buffer i } := by
  induction count with
  | zero => simp [vgaMoveUp]
  | succ count ih =>
      have width : vgaWidth = 80 := rfl
      rw [vgaMoveUp, ih (by omega)]
      simp only [Option.bind_eq_bind, Option.bind_some, Vga.read, Vga.write]
      rw [if_pos (by omega)]
      simp only [Option.bind_some]
      rw [if_pos (by omega)]
      congr 2
      funext i
      rw [Function.update_apply]
      by_cases last : i = count
      · subst last
        rw [if_pos rfl, if_neg (by omega), if_pos (by omega)]
      · rw [if_neg last]
        exact if_congr (by omega) rfl rfl

theorem vgaBlank_eq {first : Nat} (fits : first + count ≤ vgaHeight * vgaWidth) :
    vgaBlank vga first count = some { vga with
      buffer := fun i => if first ≤ i ∧ i < first + count then vgaEntry 0x20 vga.color
        else vga.buffer i } := by
  induction count with
  | zero =>
      have nothing : (fun i => if first ≤ i ∧ i < first + 0 then vgaEntry 0x20 vga.color
          else vga.buffer i) = vga.buffer := by
        funext i
        rw [if_neg (by omega)]
      rw [vgaBlank, nothing]
  | succ count ih =>
      rw [vgaBlank, ih (by omega)]
      simp only [Option.bind_eq_bind, Option.bind_some, Vga.write]
      rw [if_pos (by omega)]
      congr 2
      funext i
      rw [Function.update_apply]
      by_cases last : i = first + count
      · rw [if_pos last, if_pos (by omega)]
      · rw [if_neg last]
        exact if_congr (by omega) rfl rfl

/-- What scrolling does to the buffer. -/
theorem vgaScroll_eq (vga : Vga) : vgaScroll vga = some { vga with
    buffer := fun i =>
      if i < 1920 then vga.buffer (i + 80)
      else if i < 2000 then vgaEntry 0x20 vga.color
      else vga.buffer i } := by
  rw [vgaScroll, vgaMoveUp_eq (by decide)]
  simp only [Option.bind_eq_bind, Option.bind_some]
  rw [vgaBlank_eq (by decide)]
  congr 2
  funext i
  have width : vgaWidth = 80 := rfl
  have moved : (vgaHeight - 1) * vgaWidth = 1920 := rfl
  dsimp only
  split_ifs <;> first | rfl | omega

/-- The registers after the cursor was sent. -/
theorem vgaUpdateCursor_eq (vga : Vga) : vgaUpdateCursor vga = { vga with
    crtcIndex := 0x0E
    crtc := Function.update
      (Function.update vga.crtc 0x0F
        (UInt16.ofNat (vga.row * vgaWidth + vga.col) &&& 0xFF).toUInt8)
      0x0E (UInt16.ofNat (vga.row * vgaWidth + vga.col) >>> 8).toUInt8 } := rfl

/-- The controller gets the position that the variables give. -/
theorem vgaUpdateCursor_cursor (small : vga.row * vgaWidth + vga.col < 2 ^ 16) :
    (vgaUpdateCursor vga).cursor = vga.row * vgaWidth + vga.col := by
  rw [vgaUpdateCursor_eq, Vga.cursor]
  simp only [Function.update_self, Function.update_of_ne (show (0x0F : UInt8) ≠ 0x0E by decide)]
  generalize vga.row * vgaWidth + vga.col = pos at small
  have low : ((UInt16.ofNat pos &&& 0xFF).toUInt8).toNat = pos % 256 := by
    rw [UInt16.toNat_toUInt8, UInt16.toNat_and, UInt16.toNat_ofNat_of_lt' small,
      show (0xFF : UInt16).toNat = 2 ^ 8 - 1 from rfl, Nat.and_two_pow_sub_one_eq_mod]
    omega
  have high : ((UInt16.ofNat pos >>> 8).toUInt8).toNat = pos / 256 := by
    rw [UInt16.toNat_toUInt8, UInt16.toNat_shiftRight, UInt16.toNat_ofNat_of_lt' small,
      show (8 : UInt16).toNat % 16 = 8 from rfl, Nat.shiftRight_eq_div_pow]
    omega
  rw [low, high]
  omega

end Loops

end GodOs
