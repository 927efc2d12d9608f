import GodOs.Vga.Printf

/-!
# Digit conversion

`vga_put_uint` sends the one representation of its value in base 10 or 16: digits of
the base, no leading zero, and the value when they are read back by position.
-/

namespace GodOs

open Lib

/-- The number that a digit character stands for, in either case. -/
def digitValue (byte : UInt8) : Nat :=
  if byte ≤ ascii '9' then (byte - ascii '0').toNat
  else if byte ≤ ascii 'F' then (byte - ascii 'A').toNat + 10
  else (byte - ascii 'a').toNat + 10

/-- Digits read back by position, highest first. -/
def readBack (base : Nat) (digits : List UInt8) : Nat :=
  digits.foldl (fun value digit => value * base + digitValue digit) 0

/-- A representation of a value in a base, without leading zeros. -/
structure Represents (base : Nat) (upper : Bool) (value : Nat) (digits : List UInt8) : Prop where
  digit : ∀ byte ∈ digits, ∃ d < base, byte = vgaDigit d upper
  nonempty : digits ≠ []
  leading : digits.head? = some (ascii '0') → digits = [ascii '0']
  reads : readBack base digits = value

section Digits

variable {base value d : Nat} {upper : Bool} {digits : List UInt8}

/-- A digit character stands for its digit. -/
theorem digitValue_vgaDigit (small : d < 16) : digitValue (vgaDigit d upper) = d := by
  interval_cases d <;> cases upper <;> rfl

/-- Reading back is the value of the digits in Mathlib's order, lowest first. -/
theorem readBack_eq (base : Nat) (digits : List UInt8) :
    readBack base digits = Nat.ofDigits base (digits.map digitValue).reverse := by
  rw [Nat.ofDigits_eq_foldr, List.foldr_reverse, List.foldl_map, readBack]
  simp only [Nat.cast_id, Nat.mul_comm base, Nat.add_comm (digitValue _)]

/-- The digits that a number is written with stand for its digits. -/
theorem map_digitValue_numeral (large : 2 ≤ base) (small : base ≤ 16) (value : Nat) :
    ((Nat.digits base value).map (vgaDigit · upper)).map digitValue = Nat.digits base value := by
  rw [List.map_map]
  refine (List.map_congr_left fun digit member => ?_).trans (List.map_id _)
  have below := Nat.digits_lt_base (show 1 < base by omega) member
  exact digitValue_vgaDigit (by omega)

/-- A numeral represents its value. -/
theorem numeral_represents (large : 2 ≤ base) (small : base ≤ 16) (value : Nat) :
    Represents base upper value (numeral base upper value) := by
  unfold numeral
  by_cases zero : value = 0
  · rw [if_pos zero, zero]
    refine ⟨fun byte member => ⟨0, by omega, ?_⟩, by simp, fun _ => rfl, by simp [readBack]; decide⟩
    rw [List.mem_singleton.mp member]
    rfl
  · rw [if_neg zero]
    refine ⟨fun byte member => ?_, ?_, fun leading => ?_, ?_⟩
    · obtain ⟨d, isDigit, rfl⟩ := List.mem_map.mp (List.mem_reverse.mp member)
      exact ⟨d, Nat.digits_lt_base (by omega) isDigit, rfl⟩
    · rw [Ne, List.reverse_eq_nil_iff, List.map_eq_nil_iff, Nat.digits_eq_nil_iff_eq_zero]
      exact zero
    · have nonempty : Nat.digits base value ≠ [] := Nat.digits_ne_nil_iff_ne_zero.mpr zero
      rw [List.head?_reverse, List.getLast?_map, List.getLast?_eq_some_getLast nonempty] at leading
      have top := Nat.getLast_digit_ne_zero base zero
      have below := Nat.digits_lt_base (show 1 < base by omega) (List.getLast_mem nonempty)
      have isZero := congrArg digitValue (Option.some.inj leading)
      rw [digitValue_vgaDigit (by omega)] at isZero
      exact absurd isZero top
    · rw [readBack_eq, List.map_reverse, List.reverse_reverse, map_digitValue_numeral large small,
        Nat.ofDigits_digits]

/-- Nothing else represents the value. -/
theorem Represents.unique (large : 2 ≤ base) (small : base ≤ 16)
    (represents : Represents base upper value digits) : digits = numeral base upper value := by
  obtain ⟨isDigit, nonempty, leading, reads⟩ := represents
  rw [readBack_eq] at reads
  -- every character is the digit of its value
  have back : (digits.map digitValue).map (vgaDigit · upper) = digits := by
    rw [List.map_map]
    refine (List.map_congr_left fun byte member => ?_).trans (List.map_id _)
    obtain ⟨d, below, rfl⟩ := isDigit byte member
    exact congrArg (vgaDigit · upper) (digitValue_vgaDigit (by omega))
  by_cases zero : digits = [ascii '0']
  · have isZero : value = 0 := by
      rw [← reads, zero, List.map_singleton, List.reverse_singleton, Nat.ofDigits_singleton]
      rfl
    rw [zero, numeral, if_pos isZero]
  · have below : ∀ d ∈ (digits.map digitValue).reverse, d < base := by
      intro d member
      obtain ⟨byte, isByte, rfl⟩ := List.mem_map.mp (List.mem_reverse.mp member)
      obtain ⟨d, below, rfl⟩ := isDigit byte isByte
      rwa [digitValue_vgaDigit (by omega)]
    have top : ∀ some : (digits.map digitValue).reverse ≠ [],
        (digits.map digitValue).reverse.getLast some ≠ 0 := by
      intro some isZero
      obtain ⟨first, others, rfl⟩ := List.exists_cons_of_ne_nil nonempty
      obtain ⟨d, small, rfl⟩ := isDigit first List.mem_cons_self
      rw [List.getLast_reverse, List.head_map, List.head_cons,
        digitValue_vgaDigit (by omega)] at isZero
      rw [isZero] at leading zero
      exact zero (leading rfl)
    have unique := Nat.digits_ofDigits base (by omega) _ below top
    rw [reads] at unique
    have positive : value ≠ 0 := by
      rintro rfl
      rw [Nat.digits_zero, eq_comm, List.reverse_eq_nil_iff, List.map_eq_nil_iff] at unique
      exact nonempty unique
    rw [numeral, if_neg positive, unique, List.map_reverse, List.reverse_reverse, back]

/-- `vga_put_uint` sends the padding and the numeral, for every width. -/
theorem vgaPutUint_sent {width : Int} {pad : UInt8} (based : base = 10 ∨ base = 16)
    (small : value < 2 ^ 64) : vgaPutUint value base width pad upper =
      .done (List.replicate (width - (numeral base upper value).length).toNat pad ++
        numeral base upper value) := by
  have fits := digits_fit based small
  rw [vgaPutUint, numeral]
  by_cases zero : value = 0
  · rw [if_pos zero, if_pos zero]
    rfl
  · rw [if_neg zero, if_neg zero, vgaDigits_eq (by omega) fits, Outcome.bind_done,
      List.length_reverse]

example : vgaPutUint 0xBADC0DE5F 16 12 (ascii ' ') false = .done ("   badc0de5f".toList.map ascii) := rfl

/-- **Digit conversion is exact.** For every 64-bit value, base 10 or 16, width, pad
character and case, `vga_put_uint` stays inside its buffer and sends the padding up
to the width and then the only representation of the value in the base. -/
theorem digits_exact (based : base = 10 ∨ base = 16) (small : value < 2 ^ 64) (width : Int)
    (pad : UInt8) (upper : Bool) : ∃ digits,
      vgaPutUint value base width pad upper =
        .done (List.replicate (width - digits.length).toNat pad ++ digits) ∧
      Represents base upper value digits ∧
      ∀ other, Represents base upper value other → other = digits :=
  ⟨numeral base upper value, vgaPutUint_sent based small,
    numeral_represents (by omega) (by omega) value,
    fun _ represents => represents.unique (by omega) (by omega)⟩

theorem digits_exact_sample :
    vgaPutUint 255 16 5 (ascii '0') true = .done ("000FF".toList.map ascii) := by
  obtain ⟨digits, sent, _, unique⟩ :=
    @digits_exact 16 255 (.inr rfl) (by norm_num) 5 (ascii '0') true
  have known : Represents 16 true 255 [ascii 'F', ascii 'F'] :=
    ⟨fun byte member => ⟨15, by decide, by simp at member; exact member⟩,
      by decide, by decide, by decide⟩
  rw [sent, ← unique _ known]
  decide

end Digits

end GodOs
