import GodOs.Vga.Format

/-!
# Signs and padding

`vga_printf` sends the sign of a negative number before the padding. A field padded with
zeros is still one number; a field padded with spaces has its sign torn off.
-/

namespace GodOs

open Lib

/-- A directive sends a field for the word that it takes, wherever it stands in a format. -/
def Directive.Sends (directive : Directive) (mem : Memory) (word : UInt64) (field : List UInt8) :
    Prop :=
  ∀ (args : Nat → UInt64) (budget next : Nat) (rest : List UInt8), args next = word →
    vgaPrintfLoop mem args (budget + 1) (ascii '%' :: (directive.spec ++ rest)) next =
      (vgaPrintfLoop mem args budget rest (next + 1)).bind fun (later, next) =>
        .done (field ++ later, next)

/-- Spaces up to the width, then the sign and the magnitude together. -/
def signAttached (width magnitude : Nat) : List UInt8 :=
  List.replicate (width - (numeral 10 false magnitude).length) (ascii ' ') ++
    ascii '-' :: numeral 10 false magnitude

/-- The sign, then the magnitude filled up with spaces. -/
def signDetached (width magnitude : Nat) : List UInt8 :=
  ascii '-' :: padLeft (ascii ' ') width (numeral 10 false magnitude)

section Signed

variable {mem : Memory} {word : UInt64} {width magnitude : Nat}

/-- A directive sends one field at most. -/
theorem Directive.Sends.unique {directive : Directive} {field other : List UInt8}
    (sends : directive.Sends mem word field) (again : directive.Sends mem word other) :
    field = other := by
  have first := sends (fun _ => word) 1 0 [0] rfl
  rw [again (fun _ => word) 1 0 [0] rfl] at first
  simpa [vgaPrintfLoop] using first.symm

/-- A negative number without the flag is sent with its sign first. -/
theorem Directive.sends_negative (directive : Directive) (kind : directive.conversion = .d)
    (unflagged : directive.zero = false) (negative : directive.signedValue word < 0) :
    directive.Sends mem word (signDetached directive.width (directive.signedValue word).natAbs) := by
  rintro args budget next rest rfl
  have spaces : directive.pad = ascii ' ' := by rw [Directive.pad, unflagged]; rfl
  rw [vgaPrintfLoop_directive directive (directive.convert_negative kind negative), spaces,
    signDetached]

/-- Where there is padding the two fields differ in their first character. -/
theorem signDetached_ne (wide : (numeral 10 false magnitude).length < width) :
    signDetached width magnitude ≠ signAttached width magnitude := by
  obtain ⟨fewer, padding⟩ : ∃ fewer, width - (numeral 10 false magnitude).length = fewer + 1 :=
    ⟨width - (numeral 10 false magnitude).length - 1, by omega⟩
  rw [signDetached, signAttached, padding, List.replicate_succ, List.cons_append]
  exact fun equal => absurd (List.cons.inj equal).1 (by decide)

/-- **The sign comes off.** A space-padded negative number that is shorter than its
width is sent with the padding between sign and digits, and so never with the sign
attached to them. -/
theorem padded_sign_detached (directive : Directive) (kind : directive.conversion = .d)
    (unflagged : directive.zero = false) (negative : directive.signedValue word < 0)
    (wide : (numeral 10 false (directive.signedValue word).natAbs).length < directive.width) :
    directive.Sends mem word (signDetached directive.width (directive.signedValue word).natAbs) ∧
      ¬ directive.Sends mem word
        (signAttached directive.width (directive.signedValue word).natAbs) := by
  have sends := @Directive.sends_negative mem word directive kind unflagged negative
  exact ⟨sends, fun attached => signDetached_ne wide (sends.unique attached)⟩

/-- The word of `-42`. -/
def minusWord : UInt64 := 0xFFFFFFD6

theorem padded_sign_detached_sample :
    fiveWide.Sends sampleText minusWord ("-   42".toList.map ascii) ∧
      ¬ fiveWide.Sends sampleText minusWord ("   -42".toList.map ascii) :=
  @padded_sign_detached sampleText minusWord fiveWide rfl rfl (by decide) (by decide)

theorem printf_minus_padded :
    vgaPrintf sampleText (formatBytes [.directive fiveWide]) (fun _ => minusWord) =
        .done ("-   42".toList.map ascii, 1) ∧
      "-   42".toList.map ascii ≠ signAttached 5 42 := by
  decide

end Signed

end GodOs
