import GodOs.Lib.Memory
import GodOs.Lib.Outcome
import GodOs.Pmm.Frame

/-!
# The formatter `vga_printf`

The characters sent to `vga_putchar` are a list. The format is a list of bytes
with its terminator, the cursor is the part of it that is left, and each `va_arg`
takes the next 64-bit word of the argument area. Reading past the terminator or
writing past the digit buffer halts.
-/

namespace GodOs

open Lib

/-- The byte of an ASCII character. -/
def ascii (c : Char) : UInt8 := UInt8.ofNat c.toNat

/-- `vga_puts` with a budget of characters. -/
def vgaPutsFrom (mem : Memory) : Nat → Nat → Outcome (List UInt8)
  | 0, _ => .loop
  | budget + 1, s =>
      if mem s = 0 then .done []
      else (vgaPutsFrom mem budget (u64 (s + 1))).bind fun sent => .done (mem s :: sent)

def vgaPuts (mem : Memory) (s : Nat) : Outcome (List UInt8) := vgaPutsFrom mem (2 ^ 64) s

/-- The size of the digit buffer. -/
def vgaDigitsSize : Nat := 24

def vgaDigit (d : Nat) (upper : Bool) : UInt8 :=
  if d < 10 then UInt8.ofNat (0x30 + d) else UInt8.ofNat ((if upper then 0x41 else 0x61) + (d - 10))

/-- The digit loop, with `room` bytes of the buffer left: lowest digit first. -/
def vgaDigits (base : Nat) (upper : Bool) : Nat → Nat → Outcome (List UInt8)
  | 0, value => if value > 0 then .halted "the digit buffer is full" else .done []
  | room + 1, value =>
      if value > 0 then
        (vgaDigits base upper room (value / base)).bind fun digits =>
          .done (vgaDigit (value % base) upper :: digits)
      else .done []

def vgaPutUint (value base : Nat) (width : Int) (pad : UInt8) (upper : Bool) :
    Outcome (List UInt8) :=
  (if value = 0 then .done [ascii '0'] else vgaDigits base upper vgaDigitsSize value).bind
    fun digits => .done (List.replicate (width - digits.length).toNat pad ++ digits.reverse)

/-- Reading the format after its terminator. -/
def pastTerminator : String := "read past the terminator"

/-- The optional flag. -/
def vgaFlag : List UInt8 → Outcome (Bool × List UInt8)
  | [] => .halted pastTerminator
  | c :: p => if c = ascii '0' then .done (true, p) else .done (false, c :: p)

/-- The optional width. An `int` overflows from 2^31 on, which is undefined in C. -/
def vgaField (width : Nat) : List UInt8 → Outcome (Nat × List UInt8)
  | [] => .halted pastTerminator
  | c :: p =>
      if c ≥ ascii '0' ∧ c ≤ ascii '9' then vgaField (width * 10 + (c - ascii '0').toNat) p
      else .done (width, c :: p)

/-- The optional length modifier. -/
def vgaLength : List UInt8 → Outcome (Bool × List UInt8)
  | [] => .halted pastTerminator
  | c :: p =>
      if c = ascii 'l' ∨ c = ascii 'z' then
        match p with
        | [] => .halted pastTerminator
        | c' :: p' => if c' = ascii 'l' then .done (true, p') else .done (true, c' :: p')
      else .done (false, c :: p)

/-- The `switch` over the conversion: what is sent, and the number of words taken. -/
def vgaConvert (mem : Memory) (conv : UInt8) (zeroPad is64 : Bool) (width : Nat) (word : UInt64) :
    Outcome (List UInt8 × Nat) :=
  let pad := if zeroPad then ascii '0' else ascii ' '
  if conv = ascii 'c' then .done ([word.toUInt8], 1)
  else if conv = ascii 's' then (vgaPuts mem word.toNat).bind fun sent => .done (sent, 1)
  else if conv = ascii '%' then .done ([ascii '%'], 0)
  else if conv = ascii 'd' then
    let sv : Int64 := if is64 then word.toInt64 else word.toUInt32.toInt32.toInt64
    if sv < 0 then
      (vgaPutUint ((~~~sv).toUInt64 + 1).toNat 10 width pad false).bind fun sent =>
        .done (ascii '-' :: sent, 1)
    else (vgaPutUint sv.toUInt64.toNat 10 width pad false).bind fun sent => .done (sent, 1)
  else if conv = ascii 'u' then
    let uv := if is64 then word else word.toUInt32.toUInt64
    (vgaPutUint uv.toNat 10 width pad false).bind fun sent => .done (sent, 1)
  else if conv = ascii 'x' ∨ conv = ascii 'X' then
    let xv := if is64 then word else word.toUInt32.toUInt64
    (vgaPutUint xv.toNat 16 width pad (conv = ascii 'X')).bind fun sent => .done (sent, 1)
  else if conv = ascii 'p' then
    (vgaPutUint word.toNat 16 16 (ascii '0') false).bind fun sent =>
      .done (ascii '0' :: ascii 'x' :: sent, 1)
  else .done ([], 0)

/-- The loop of `vga_printf` with a budget of rounds, from the word `next` on: what is
sent, and the first word that is not taken. -/
def vgaPrintfLoop (mem : Memory) (args : Nat → UInt64) :
    Nat → List UInt8 → Nat → Outcome (List UInt8 × Nat)
  | 0, _, _ => .loop
  | _ + 1, [], _ => .halted pastTerminator
  | budget + 1, c :: p, next =>
      if c = 0 then .done ([], next)
      else if c ≠ ascii '%' then
        (vgaPrintfLoop mem args budget p next).bind fun (sent, next) => .done (c :: sent, next)
      else
        (vgaFlag p).bind fun (zeroPad, p) =>
        (vgaField 0 p).bind fun (width, p) =>
        (vgaLength p).bind fun (is64, p) =>
        match p with
        | [] => .halted pastTerminator
        | conv :: p =>
          (vgaConvert mem conv zeroPad is64 width (args next)).bind fun (sent, taken) =>
          if conv = 0 then .done (sent, next + taken)
          else
            (vgaPrintfLoop mem args budget p (next + taken)).bind fun (later, next) =>
              .done (sent ++ later, next)

/-- `vga_printf` of a format without terminator bytes inside. -/
def vgaPrintf (mem : Memory) (fmt : List UInt8) (args : Nat → UInt64) :
    Outcome (List UInt8 × Nat) :=
  vgaPrintfLoop mem args (fmt.length + 1) (fmt ++ [0]) 0

section Numbers

variable {base width value : Nat} {upper : Bool} {pad : UInt8}

/-- A number written out in a base, highest digit first. -/
def numeral (base : Nat) (upper : Bool) (value : Nat) : List UInt8 :=
  if value = 0 then [ascii '0'] else ((Nat.digits base value).map (vgaDigit · upper)).reverse

/-- The digits of the bases up to 16, in their order. -/
def digitChars (upper : Bool) : List Char :=
  (if upper then "0123456789ABCDEF" else "0123456789abcdef").toList

/-- The driver computes the digits of the alphabet. -/
theorem vgaDigit_eq {d : Nat} (small : d < 16) :
    vgaDigit d upper = ascii ((digitChars upper).getD d '?') := by
  interval_cases d <;> cases upper <;> rfl

/-- A numeral is written in the alphabet. -/
theorem numeral_eq (large : 2 ≤ base) (small : base ≤ 16) (value : Nat) :
    numeral base upper value = if value = 0 then [ascii '0'] else
      ((Nat.digits base value).map fun d => ascii ((digitChars upper).getD d '?')).reverse := by
  rw [numeral]
  congr 2
  refine List.map_congr_left fun d member => vgaDigit_eq ?_
  have below := Nat.digits_lt_base (show 1 < base by omega) member
  omega

/-- A field filled up on the left to a width. -/
def padLeft (pad : UInt8) (width : Nat) (field : List UInt8) : List UInt8 :=
  List.replicate (width - field.length) pad ++ field

/-- The digit loop stays inside the buffer and collects the digits of the value. -/
theorem vgaDigits_eq (large : 2 ≤ base) {room : Nat} (fits : value < base ^ room) :
    vgaDigits base upper room value = .done ((Nat.digits base value).map (vgaDigit · upper)) := by
  induction room generalizing value with
  | zero =>
      obtain rfl : value = 0 := by simpa using fits
      simp [vgaDigits]
  | succ room ih =>
      rw [vgaDigits]
      by_cases positive : value > 0
      · have smaller : value / base < base ^ room := Nat.div_lt_of_lt_mul (by rwa [← pow_succ'])
        rw [if_pos positive, ih smaller, Nat.digits_def' (by omega) positive]
        rfl
      · obtain rfl : value = 0 := by omega
        simp

/-- `vga_put_uint` sends the padded numeral. -/
theorem vgaPutUint_eq (large : 2 ≤ base) (fits : value < base ^ vgaDigitsSize) :
    vgaPutUint value base width pad upper = .done (padLeft pad width (numeral base upper value)) := by
  rw [vgaPutUint, numeral]
  by_cases zero : value = 0
  · rw [if_pos zero, if_pos zero]
    simp [padLeft]
  · rw [if_neg zero, if_neg zero, vgaDigits_eq large fits]
    simp [padLeft]

/-- A 64-bit number fits the digit buffer in base 10 and in base 16. -/
theorem digits_fit (decimal : base = 10 ∨ base = 16) (small : value < 2 ^ 64) :
    value < base ^ vgaDigitsSize := by
  rcases decimal with rfl | rfl
  · exact lt_trans small (by decide)
  · exact lt_trans small (by decide)

end Numbers

end GodOs
