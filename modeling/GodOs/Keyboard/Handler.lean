import GodOs.Lib.Bits
import GodOs.Lib.Ring

/-!
# The keyboard driver of `keyboard.c`

`keyboardHandler` is the interrupt side: it decodes one scancode and puts the
character into the ring buffer. `kbGet` is the other side, as one step. Characters
are bytes, and the tables give `0` for a key without one.
-/

namespace GodOs

open Lib

def kbBufSize : Nat := 64

/-- The static variables of `keyboard.c`. -/
structure Keyboard where
  buf : Nat → UInt8
  head : Nat
  tail : Nat
  shiftLeft : Bool
  shiftRight : Bool
  e0Prefix : Bool

/-- All variables start as zero. -/
def Keyboard.initial : Keyboard :=
  { buf := fun _ => 0, head := 0, tail := 0, shiftLeft := false, shiftRight := false,
    e0Prefix := false }

/-- The ring buffer among the variables. -/
def Keyboard.ring (kb : Keyboard) : RingBuffer UInt8 := ⟨kb.buf, kb.head, kb.tail⟩

/-- The initialisers of `kb_normal`. -/
def kbNormalKeys : List (UInt8 × Char) :=
  [(0x01, '\x1b'),
    (0x02, '1'), (0x03, '2'), (0x04, '3'), (0x05, '4'), (0x06, '5'),
    (0x07, '6'), (0x08, '7'), (0x09, '8'), (0x0A, '9'), (0x0B, '0'),
    (0x0C, '-'), (0x0D, '='), (0x0E, '\x08'), (0x0F, '\t'),
    (0x10, 'q'), (0x11, 'w'), (0x12, 'e'), (0x13, 'r'), (0x14, 't'),
    (0x15, 'y'), (0x16, 'u'), (0x17, 'i'), (0x18, 'o'), (0x19, 'p'),
    (0x1A, '['), (0x1B, ']'), (0x1C, '\n'),
    (0x1E, 'a'), (0x1F, 's'), (0x20, 'd'), (0x21, 'f'), (0x22, 'g'),
    (0x23, 'h'), (0x24, 'j'), (0x25, 'k'), (0x26, 'l'), (0x27, ';'),
    (0x28, '\x27'), (0x29, '\x60'), (0x2B, '\x5c'),
    (0x2C, 'z'), (0x2D, 'x'), (0x2E, 'c'), (0x2F, 'v'),
    (0x30, 'b'), (0x31, 'n'), (0x32, 'm'), (0x33, ','),
    (0x34, '.'), (0x35, '/'), (0x37, '*'), (0x39, ' '),
    (0x47, '7'), (0x48, '8'), (0x49, '9'), (0x4A, '-'),
    (0x4B, '4'), (0x4C, '5'), (0x4D, '6'), (0x4E, '+'),
    (0x4F, '1'), (0x50, '2'), (0x51, '3'), (0x52, '0'), (0x53, '.')]

/-- The initialisers of `kb_shift`. -/
def kbShiftKeys : List (UInt8 × Char) :=
  [(0x01, '\x1b'),
    (0x02, '!'), (0x03, '@'), (0x04, '#'), (0x05, '$'), (0x06, '%'),
    (0x07, '^'), (0x08, '&'), (0x09, '*'), (0x0A, '('), (0x0B, ')'),
    (0x0C, '_'), (0x0D, '+'), (0x0E, '\x08'), (0x0F, '\t'),
    (0x10, 'Q'), (0x11, 'W'), (0x12, 'E'), (0x13, 'R'), (0x14, 'T'),
    (0x15, 'Y'), (0x16, 'U'), (0x17, 'I'), (0x18, 'O'), (0x19, 'P'),
    (0x1A, '\x7b'), (0x1B, '\x7d'), (0x1C, '\n'),
    (0x1E, 'A'), (0x1F, 'S'), (0x20, 'D'), (0x21, 'F'), (0x22, 'G'),
    (0x23, 'H'), (0x24, 'J'), (0x25, 'K'), (0x26, 'L'), (0x27, ':'),
    (0x28, '\x22'), (0x29, '~'), (0x2B, '|'),
    (0x2C, 'Z'), (0x2D, 'X'), (0x2E, 'C'), (0x2F, 'V'),
    (0x30, 'B'), (0x31, 'N'), (0x32, 'M'), (0x33, '<'),
    (0x34, '>'), (0x35, '?'), (0x37, '*'), (0x39, ' ')]

/-- An entry of a table: its initialiser, or zero. -/
def tableEntry (keys : List (UInt8 × Char)) (code : UInt8) : UInt8 :=
  match keys.lookup code with
  | some key => key.toUInt8
  | none => 0

def kbNormal (code : UInt8) : UInt8 := tableEntry kbNormalKeys code

def kbShift (code : UInt8) : UInt8 := tableEntry kbShiftKeys code

/-- The end of `keyboard_handler`: a translated character goes into the ring, or
is dropped when the ring is full. -/
def kbEnqueue (kb : Keyboard) (c : UInt8) : Keyboard :=
  let next := (kb.head + 1) &&& (kbBufSize - 1)
  if next = kb.tail then kb
  else { kb with buf := Function.update kb.buf kb.head c, head := next }

/-- `keyboard_handler` with the scancode read from port `0x60`. -/
def keyboardHandler (kb : Keyboard) (sc : UInt8) : Keyboard :=
  if kb.e0Prefix then { kb with e0Prefix := false }
  else if sc = 0xE0 then { kb with e0Prefix := true }
  else
    let release := sc &&& 0x80 ≠ 0
    let code := sc &&& 0x7F
    if code = 0x2A then { kb with shiftLeft := ¬ release }
    else if code = 0x36 then { kb with shiftRight := ¬ release }
    else if release then kb
    else
      let c := if kb.shiftLeft || kb.shiftRight then kbShift code else kbNormal code
      if c = 0 then kb else kbEnqueue kb c

/-- `kb_get` with no interrupt inside it. -/
def kbGet (kb : Keyboard) : Keyboard × Int :=
  if kb.head = kb.tail then (kb, -1)
  else
    let c := kb.buf kb.tail
    ({ kb with tail := (kb.tail + 1) &&& (kbBufSize - 1) }, c.toNat)

/-- The character that a scancode translates to, if any. -/
def kbTranslate (kb : Keyboard) (sc : UInt8) : Option UInt8 :=
  if kb.e0Prefix ∨ sc = 0xE0 then none
  else
    let code := sc &&& 0x7F
    if code = 0x2A ∨ code = 0x36 ∨ sc &&& 0x80 ≠ 0 then none
    else
      let c := if kb.shiftLeft || kb.shiftRight then kbShift code else kbNormal code
      if c = 0 then none else some c

/-- Indices wrap at the size of the buffer. -/
theorem kbWrap (index : Nat) : index &&& (kbBufSize - 1) = index % kbBufSize :=
  Bits.and_low index 6

section Handler

variable {kb : Keyboard} {sc c : UInt8}

/-- A scancode leaves the ring alone, or is translated and enqueued. -/
theorem keyboardHandler_cases (kb : Keyboard) (sc : UInt8) :
    (kbTranslate kb sc = none ∧ (keyboardHandler kb sc).ring = kb.ring) ∨
      ∃ c, kbTranslate kb sc = some c ∧ keyboardHandler kb sc = kbEnqueue kb c := by
  unfold kbTranslate keyboardHandler
  by_cases swallowed : kb.e0Prefix
  · exact .inl ⟨if_pos (.inl swallowed), by rw [if_pos swallowed]; rfl⟩
  by_cases extended : sc = 0xE0
  · exact .inl ⟨if_pos (.inr extended), by rw [if_neg swallowed, if_pos extended]; rfl⟩
  rw [if_neg (not_or.mpr ⟨swallowed, extended⟩), if_neg swallowed, if_neg extended]
  simp only
  by_cases left : sc &&& 0x7F = 0x2A
  · exact .inl ⟨if_pos (.inl left), by rw [if_pos left]; rfl⟩
  by_cases right : sc &&& 0x7F = 0x36
  · exact .inl ⟨if_pos (.inr (.inl right)), by rw [if_neg left, if_pos right]; rfl⟩
  by_cases release : sc &&& 0x80 ≠ 0
  · exact .inl ⟨if_pos (.inr (.inr release)), by rw [if_neg left, if_neg right, if_pos release]⟩
  rw [if_neg (not_or.mpr ⟨left, not_or.mpr ⟨right, release⟩⟩), if_neg left, if_neg right,
    if_neg release]
  generalize (if kb.shiftLeft || kb.shiftRight then kbShift (sc &&& 0x7F)
    else kbNormal (sc &&& 0x7F)) = c
  by_cases silent : c = 0
  · exact .inl ⟨if_pos silent, by rw [if_pos silent]⟩
  · exact .inr ⟨c, if_neg silent, if_neg silent⟩

/-- A full ring drops the character. -/
theorem kbEnqueue_full (full : (kb.ring.head + 1) % kbBufSize = kb.ring.tail) :
    kbEnqueue kb c = kb := by
  rw [kbEnqueue, kbWrap]
  exact if_pos full

/-- A ring with room takes the character. -/
theorem kbEnqueue_room (room : (kb.ring.head + 1) % kbBufSize ≠ kb.ring.tail) :
    (kbEnqueue kb c).ring = kb.ring.push kbBufSize c := by
  have next : (kb.head + 1) % kbBufSize ≠ kb.tail := room
  rw [kbEnqueue, kbWrap, if_neg next]
  rfl

end Handler

end GodOs
