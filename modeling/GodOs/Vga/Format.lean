import GodOs.Lib.Bytes
import GodOs.Vga.Printf

/-!
# What a format means

A format is a list of pieces: literal bytes and directives. `Directive.render` says
what a directive stands for, given the word that its `va_arg` takes.
`printf_renders` says that `vga_printf` sends the renderings in order.
-/

namespace GodOs

open Lib

inductive Modifier where
  | none
  | l
  | ll
  | z
deriving Repr, DecidableEq

inductive Conversion where
  | c
  | s
  | d
  | u
  | x
  | X
  | p
  | percent
deriving Repr, DecidableEq

def Modifier.bytes : Modifier → List UInt8
  | none => []
  | l => [ascii 'l']
  | ll => [ascii 'l', ascii 'l']
  | z => [ascii 'z']

def Conversion.byte : Conversion → UInt8
  | c => ascii 'c'
  | s => ascii 's'
  | d => ascii 'd'
  | u => ascii 'u'
  | x => ascii 'x'
  | X => ascii 'X'
  | p => ascii 'p'
  | percent => ascii '%'

/-- The number that decimal digits stand for, highest digit first. -/
def decimalValue (digits : List (Fin 10)) : Nat :=
  digits.foldl (fun value digit => value * 10 + digit.val) 0

/-- A directive. A width without the flag does not start with a zero, which would be
the flag, and a width fits an `int`. -/
structure Directive where
  zero : Bool
  digits : List (Fin 10)
  modifier : Modifier
  conversion : Conversion
  unflagged : zero = false → digits.head? ≠ some 0
  narrow : decimalValue digits < 2 ^ 31

def Directive.width (directive : Directive) : Nat := decimalValue directive.digits

def Directive.pad (directive : Directive) : UInt8 := if directive.zero then ascii '0' else ascii ' '

/-- What follows the percent sign. -/
def Directive.spec (directive : Directive) : List UInt8 :=
  (if directive.zero then [ascii '0'] else []) ++
    (directive.digits.map (fun digit => UInt8.ofNat (0x30 + digit.val)) ++
      (directive.modifier.bytes ++ [directive.conversion.byte]))

/-- The value that an unsigned conversion takes from a word. -/
def Directive.value (directive : Directive) (word : UInt64) : Nat :=
  if directive.modifier = .none then word.toNat % 2 ^ 32 else word.toNat

/-- The value that `%d` takes from a word. -/
def Directive.signedValue (directive : Directive) (word : UInt64) : Int :=
  if directive.modifier = .none then word.toUInt32.toInt32.toInt else word.toInt64.toInt

/-- What a directive stands for, given the word it takes and, for `%s`, the text that
the word points to. -/
def Directive.render (directive : Directive) (word : UInt64) (text : List UInt8) : List UInt8 :=
  match directive.conversion with
  | .c => [word.toUInt8]
  | .s => text
  | .d =>
      if directive.signedValue word < 0 then
        ascii '-' :: padLeft (ascii '0') directive.width
          (numeral 10 false (directive.signedValue word).natAbs)
      else padLeft directive.pad directive.width
        (numeral 10 false (directive.signedValue word).natAbs)
  | .u => padLeft directive.pad directive.width (numeral 10 false (directive.value word))
  | .x => padLeft directive.pad directive.width (numeral 16 false (directive.value word))
  | .X => padLeft directive.pad directive.width (numeral 16 true (directive.value word))
  | .p => ascii '0' :: ascii 'x' :: padLeft (ascii '0') 16 (numeral 16 false word.toNat)
  | .percent => [ascii '%']

/-- The words that a directive takes. -/
def Directive.taken (directive : Directive) : Nat := if directive.conversion = .percent then 0 else 1

/-- The word suits the directive: the word of `%s` points to the text and its
terminator, and a negative number is not padded with spaces. -/
def Directive.Suits (directive : Directive) (mem : Memory) (word : UInt64) (text : List UInt8) :
    Prop :=
  match directive.conversion with
  | .s => mem.Holds word.toNat (text ++ [0]) ∧ (0 : UInt8) ∉ text ∧
      word.toNat + text.length < 2 ^ 64
  | .d => directive.signedValue word < 0 → directive.zero = true ∨
      directive.width ≤ (numeral 10 false (directive.signedValue word).natAbs).length
  | _ => True

inductive Piece where
  | literal (byte : UInt8) (plain : byte ≠ 0 ∧ byte ≠ ascii '%')
  | directive (directive : Directive)

def Piece.bytes : Piece → List UInt8
  | literal byte _ => [byte]
  | directive d => ascii '%' :: d.spec

/-- The format string. -/
def formatBytes (pieces : List Piece) : List UInt8 := pieces.flatMap Piece.bytes

/-- The number of words that the pieces take. -/
def wordsTaken : List Piece → Nat
  | [] => 0
  | .literal _ _ :: pieces => wordsTaken pieces
  | .directive d :: pieces => d.taken + wordsTaken pieces

/-- The renderings in order: the k-th directive that takes a word renders the k-th word. -/
def renderAll (args : Nat → UInt64) (texts : Nat → List UInt8) : List Piece → Nat → List UInt8
  | [], _ => []
  | .literal byte _ :: pieces, next => byte :: renderAll args texts pieces next
  | .directive d :: pieces, next =>
      d.render (args next) (texts next) ++ renderAll args texts pieces (next + d.taken)

/-- The arguments suit the directives. -/
def Matching (mem : Memory) (args : Nat → UInt64) (texts : Nat → List UInt8) :
    List Piece → Nat → Prop
  | [], _ => True
  | .literal _ _ :: pieces, next => Matching mem args texts pieces next
  | .directive d :: pieces, next =>
      d.Suits mem (args next) (texts next) ∧ Matching mem args texts pieces (next + d.taken)

section Parse

variable {directive : Directive} {rest : List UInt8}

theorem Conversion.byte_facts (conversion : Conversion) :
    conversion.byte ≠ 0 ∧ conversion.byte ≠ ascii '0' ∧ conversion.byte ≠ ascii 'l' ∧
      conversion.byte ≠ ascii 'z' ∧ ¬ (conversion.byte ≥ ascii '0' ∧ conversion.byte ≤ ascii '9') := by
  cases conversion <;> decide

/-- After flag and width comes a byte that is no digit. -/
theorem Modifier.head_facts (modifier : Modifier) (conversion : Conversion) :
    ∃ first others, modifier.bytes ++ (conversion.byte :: rest) = first :: others ∧
      ¬ (first ≥ ascii '0' ∧ first ≤ ascii '9') ∧ first ≠ ascii '0' := by
  cases modifier with
  | none =>
      obtain ⟨_, notZero, _, _, notDigit⟩ := conversion.byte_facts
      exact ⟨_, _, rfl, notDigit, notZero⟩
  | l => exact ⟨_, _, rfl, by decide, by decide⟩
  | ll => exact ⟨_, _, rfl, by decide, by decide⟩
  | z => exact ⟨_, _, rfl, by decide, by decide⟩

theorem digit_byte (digit : Fin 10) : UInt8.ofNat (0x30 + digit.val) ≥ ascii '0' ∧
    UInt8.ofNat (0x30 + digit.val) ≤ ascii '9' ∧
    (UInt8.ofNat (0x30 + digit.val) - ascii '0').toNat = digit.val ∧
    (UInt8.ofNat (0x30 + digit.val) = ascii '0' → digit = 0) := by
  revert digit
  decide

/-- The width loop reads a number and stops at the first byte that is no digit. -/
theorem vgaField_digits {first : UInt8} (digits : List (Fin 10)) (start : Nat)
    (stop : ¬ (first ≥ ascii '0' ∧ first ≤ ascii '9')) :
    vgaField start (digits.map (fun digit => UInt8.ofNat (0x30 + digit.val)) ++ first :: rest) =
      .done (digits.foldl (fun value digit => value * 10 + digit.val) start, first :: rest) := by
  induction digits generalizing start with
  | nil => simp only [List.map_nil, List.nil_append, vgaField, if_neg stop, List.foldl_nil]
  | cons digit digits ih =>
      obtain ⟨lower, upper, number, _⟩ := digit_byte digit
      rw [List.map_cons, List.cons_append, vgaField, if_pos ⟨lower, upper⟩, number, ih,
        List.foldl_cons]

theorem vgaLength_modifier (modifier : Modifier) (conversion : Conversion) :
    vgaLength (modifier.bytes ++ (conversion.byte :: rest)) =
      .done (decide (modifier ≠ .none), conversion.byte :: rest) := by
  obtain ⟨_, _, notL, notZ, _⟩ := conversion.byte_facts
  cases modifier with
  | none => simp [Modifier.bytes, vgaLength, notL, notZ]
  | l => simp [Modifier.bytes, vgaLength, notL]
  | ll => simp [Modifier.bytes, vgaLength]
  | z => simp [Modifier.bytes, vgaLength, notL]

/-- The flag, the width and the modifier of a directive are read in turn. -/
theorem Directive.parse (directive : Directive) (rest : List UInt8) :
    ∃ afterFlag afterField, vgaFlag (directive.spec ++ rest) = .done (directive.zero, afterFlag) ∧
      vgaField 0 afterFlag = .done (directive.width, afterField) ∧
      vgaLength afterField = .done (decide (directive.modifier ≠ .none),
        directive.conversion.byte :: rest) := by
  obtain ⟨first, others, tail, notDigit, notZero⟩ :=
    @Modifier.head_facts rest directive.modifier directive.conversion
  refine ⟨directive.digits.map (fun digit => UInt8.ofNat (0x30 + digit.val)) ++ first :: others,
    first :: others, ?_, vgaField_digits _ _ notDigit, ?_⟩
  · have shape : directive.spec ++ rest = (if directive.zero then [ascii '0'] else []) ++
        (directive.digits.map (fun digit => UInt8.ofNat (0x30 + digit.val)) ++ first :: others) := by
      rw [← tail]
      simp only [spec, List.append_assoc, List.singleton_append]
    rw [shape]
    cases flagged : directive.zero with
    | true => simp [vgaFlag]
    | false =>
        have proper := directive.unflagged flagged
        cases width : directive.digits with
        | nil => simp [vgaFlag, notZero]
        | cons digit digits =>
            have nonzero : UInt8.ofNat (0x30 + digit.val) ≠ ascii '0' := by
              intro isZero
              rw [width] at proper
              exact proper (congrArg some ((digit_byte digit).2.2.2 isZero))
            simp only [Bool.false_eq_true, if_false, List.nil_append, List.map_cons, List.cons_append,
              vgaFlag, if_neg nonzero]
  · rw [← tail]
    exact vgaLength_modifier _ _

end Parse

section Contract

/-- A signed number as its 64 bits. -/
private theorem signed_eq (sv : Int64) : sv.toInt =
    if 2 * sv.toUInt64.toNat < 2 ^ 64 then (sv.toUInt64.toNat : Int)
    else (sv.toUInt64.toNat : Int) - 2 ^ 64 :=
  BitVec.toInt_eq_toNat_cond sv.toBitVec

private theorem signed_neg {sv : Int64} : sv < 0 ↔ sv.toInt < 0 := by
  rw [Int64.lt_iff_toInt_lt, Int64.toInt_zero]

/-- Complement and one more gives the magnitude, also of the least number. -/
theorem magnitude_neg {sv : Int64} (negative : sv < 0) :
    ((~~~sv).toUInt64 + 1).toNat = sv.toInt.natAbs := by
  have value := signed_eq sv
  have below := signed_neg.mp negative
  have bound := sv.toUInt64.toNat_lt
  rw [Int64.toUInt64_not, UInt64.toNat_add, UInt64.toNat_not, show (1 : UInt64).toNat = 1 from rfl,
    show UInt64.size = 2 ^ 64 from rfl]
  split_ifs at value <;> omega

theorem magnitude_nonneg {sv : Int64} (nonneg : ¬ sv < 0) : sv.toUInt64.toNat = sv.toInt.natAbs := by
  have value := signed_eq sv
  have above := mt signed_neg.mpr nonneg
  have bound := sv.toUInt64.toNat_lt
  split_ifs at value <;> omega

theorem padLeft_narrow {pad : UInt8} {width : Nat} {field : List UInt8}
    (narrow : width ≤ field.length) : padLeft pad width field = field := by
  rw [padLeft, Nat.sub_eq_zero_of_le narrow, List.replicate_zero, List.nil_append]

/-- A text in memory is sent up to its terminator. -/
theorem vgaPutsFrom_text {mem : Memory} {budget s : Nat} (text : List UInt8)
    (holds : mem.Holds s (text ++ [0])) (plain : (0 : UInt8) ∉ text)
    (fits : s + text.length < 2 ^ 64) (enough : text.length < budget) :
    vgaPutsFrom mem budget s = .done text := by
  induction text generalizing s budget with
  | nil =>
      obtain ⟨budget, rfl⟩ : ∃ fewer, budget = fewer + 1 := ⟨budget - 1, by omega⟩
      rw [vgaPutsFrom, if_pos holds.1]
  | cons byte text ih =>
      obtain ⟨budget, rfl⟩ : ∃ fewer, budget = fewer + 1 := ⟨budget - 1, by omega⟩
      obtain ⟨first, others⟩ := holds
      rw [List.length_cons] at fits enough
      rw [List.mem_cons, not_or] at plain
      rw [vgaPutsFrom, first, if_neg (Ne.symm plain.1), u64_of_lt (by omega),
        ih others plain.2 (by omega) (by omega), Outcome.bind_done]

/-- The signed number that `%d` reads is the value of the directive. -/
theorem Directive.signed_value (directive : Directive) (word : UInt64) :
    (if decide (directive.modifier ≠ .none) = true then word.toInt64
      else word.toUInt32.toInt32.toInt64).toInt = directive.signedValue word := by
  rw [Directive.signedValue]
  by_cases plain : directive.modifier = .none <;> simp [plain]

/-- A negative number is sent as the sign and its padded magnitude. -/
theorem Directive.convert_negative (directive : Directive) {mem : Memory} {word : UInt64}
    (kind : directive.conversion = .d) (negative : directive.signedValue word < 0) :
    vgaConvert mem directive.conversion.byte directive.zero
      (decide (directive.modifier ≠ .none)) directive.width word =
        .done (ascii '-' :: padLeft directive.pad directive.width
          (numeral 10 false (directive.signedValue word).natAbs), 1) := by
  have signed := directive.signed_value word
  have step : ∀ sv : Int64, sv = (if decide (directive.modifier ≠ .none) = true then word.toInt64
      else word.toUInt32.toInt32.toInt64) → sv < 0 → vgaConvert mem Conversion.d.byte directive.zero
      (decide (directive.modifier ≠ .none)) directive.width word =
        (vgaPutUint ((~~~sv).toUInt64 + 1).toNat 10 directive.width directive.pad false).bind
          fun sent => .done (ascii '-' :: sent, 1) := by
    rintro _ rfl below
    exact if_pos below
  rw [kind]
  generalize (if decide (directive.modifier ≠ .none) = true then word.toInt64
    else word.toUInt32.toInt32.toInt64) = sv at signed step
  rw [← signed] at negative ⊢
  have below := signed_neg.mpr negative
  have size := magnitude_neg below
  have bound := ((~~~sv).toUInt64 + 1).toNat_lt
  rw [size] at bound
  rw [step sv rfl below, size, vgaPutUint_eq (by omega) (digits_fit (.inl rfl) bound),
    Outcome.bind_done]

/-- The conversion of a directive sends its rendering and takes its words. -/
theorem Directive.convert (directive : Directive) {mem : Memory} {word : UInt64}
    {text : List UInt8} (suits : directive.Suits mem word text) :
    vgaConvert mem directive.conversion.byte directive.zero
      (decide (directive.modifier ≠ .none)) directive.width word =
        .done (directive.render word text, directive.taken) := by
  have number : ∀ {value base : Nat} {width : Nat} {pad : UInt8} {upper : Bool},
      base = 10 ∨ base = 16 → value < 2 ^ 64 → vgaPutUint value base width pad upper =
        .done (padLeft pad width (numeral base upper value)) :=
    fun based small => vgaPutUint_eq (by omega) (digits_fit based small)
  have unsigned : (if decide (directive.modifier ≠ .none) = true then word
      else word.toUInt32.toUInt64).toNat = directive.value word := by
    rw [Directive.value]
    by_cases plain : directive.modifier = .none <;> simp [plain]
  have signed := directive.signed_value word
  have small : directive.value word < 2 ^ 64 := by
    rw [← unsigned]
    exact UInt64.toNat_lt _
  unfold Directive.render Directive.taken
  unfold Directive.Suits at suits
  cases kind : directive.conversion with
  | c => rfl
  | s =>
      rw [kind] at suits
      obtain ⟨holds, plain, fits⟩ := suits
      have sent : vgaPuts mem word.toNat = .done text :=
        vgaPutsFrom_text text holds plain fits (by omega)
      change (vgaPuts mem word.toNat).bind (fun sent => .done (sent, 1)) = .done (text, 1)
      rw [sent, Outcome.bind_done]
  | d =>
      rw [kind] at suits
      simp only at suits
      by_cases negative : directive.signedValue word < 0
      · have filled : padLeft directive.pad directive.width
              (numeral 10 false (directive.signedValue word).natAbs) =
            padLeft (ascii '0') directive.width
              (numeral 10 false (directive.signedValue word).natAbs) := by
          rcases suits negative with zero | narrow
          · rw [Directive.pad, zero, if_pos rfl]
          · rw [padLeft_narrow narrow, padLeft_narrow narrow]
        rw [← kind, directive.convert_negative kind negative, filled]
        simp only [kind, if_pos negative]
        rfl
      · have step : ∀ sv : Int64, sv = (if decide (directive.modifier ≠ .none) = true then
            word.toInt64 else word.toUInt32.toInt32.toInt64) → ¬ sv < 0 →
            vgaConvert mem Conversion.d.byte directive.zero
              (decide (directive.modifier ≠ .none)) directive.width word =
            (vgaPutUint sv.toUInt64.toNat 10 directive.width directive.pad false).bind
              fun sent => .done (sent, 1) := by
          rintro _ rfl above
          exact if_neg above
        generalize (if decide (directive.modifier ≠ .none) = true then word.toInt64
          else word.toUInt32.toInt32.toInt64) = sv at signed step
        rw [← signed] at negative ⊢
        have above := mt signed_neg.mp negative
        have size := magnitude_nonneg above
        have bound := sv.toUInt64.toNat_lt
        rw [size] at bound
        rw [step sv rfl above, size, number (.inl rfl) bound]
        simp only [if_neg negative]
        rfl
  | u =>
      change (vgaPutUint (if decide (directive.modifier ≠ .none) = true then word
        else word.toUInt32.toUInt64).toNat 10 directive.width directive.pad false).bind
          (fun sent => .done (sent, 1)) = _
      rw [unsigned, number (.inl rfl) small]
      rfl
  | x =>
      change (vgaPutUint (if decide (directive.modifier ≠ .none) = true then word
        else word.toUInt32.toUInt64).toNat 16 directive.width directive.pad false).bind
          (fun sent => .done (sent, 1)) = _
      rw [unsigned, number (.inr rfl) small]
      rfl
  | X =>
      change (vgaPutUint (if decide (directive.modifier ≠ .none) = true then word
        else word.toUInt32.toUInt64).toNat 16 directive.width directive.pad true).bind
          (fun sent => .done (sent, 1)) = _
      rw [unsigned, number (.inr rfl) small]
      rfl
  | p =>
      change (vgaPutUint word.toNat 16 16 (ascii '0') false).bind
        (fun sent => .done (ascii '0' :: ascii 'x' :: sent, 1)) = _
      rw [show (16 : Int) = (16 : Nat) from rfl, number (.inr rfl) word.toNat_lt]
      rfl
  | percent => rfl

/-- One round of the loop reads a directive, converts its word and goes on after it. -/
theorem vgaPrintfLoop_directive (directive : Directive) {mem : Memory} {args : Nat → UInt64}
    {budget next taken : Nat} {rest sent : List UInt8}
    (converted : vgaConvert mem directive.conversion.byte directive.zero
      (decide (directive.modifier ≠ .none)) directive.width (args next) = .done (sent, taken)) :
    vgaPrintfLoop mem args (budget + 1) (ascii '%' :: (directive.spec ++ rest)) next =
      (vgaPrintfLoop mem args budget rest (next + taken)).bind fun (later, next) =>
        .done (sent ++ later, next) := by
  obtain ⟨afterFlag, afterField, flag, field, length⟩ := directive.parse rest
  rw [vgaPrintfLoop, if_neg (by decide), if_neg (by simp), flag]
  simp only [Outcome.bind_done, field, length, converted]
  rw [if_neg directive.conversion.byte_facts.1]

/-- The loop of `vga_printf` sends the renderings of the pieces that are left. -/
theorem vgaPrintfLoop_pieces {mem : Memory} {args : Nat → UInt64} {texts : Nat → List UInt8}
    (pieces : List Piece) {budget next : Nat} (enough : pieces.length < budget)
    (matching : Matching mem args texts pieces next) :
    vgaPrintfLoop mem args budget (formatBytes pieces ++ [0]) next =
      .done (renderAll args texts pieces next, next + wordsTaken pieces) := by
  induction pieces generalizing budget next with
  | nil =>
      obtain ⟨budget, rfl⟩ : ∃ fewer, budget = fewer + 1 := ⟨budget - 1, by omega⟩
      rfl
  | cons piece pieces ih =>
      obtain ⟨budget, rfl⟩ : ∃ fewer, budget = fewer + 1 := ⟨budget - 1, by omega⟩
      rw [List.length_cons] at enough
      rw [formatBytes, List.flatMap_cons, ← formatBytes, List.append_assoc]
      cases piece with
      | literal byte plain =>
          rw [Piece.bytes, List.singleton_append, vgaPrintfLoop, if_neg plain.1, if_pos plain.2,
            ih (by omega) matching]
          rfl
      | directive d =>
          obtain ⟨suits, later⟩ := matching
          rw [Piece.bytes, List.cons_append, vgaPrintfLoop_directive d (d.convert suits),
            ih (by omega) later, Outcome.bind_done, renderAll, wordsTaken, Nat.add_assoc]

theorem length_le_formatBytes (pieces : List Piece) : pieces.length ≤ (formatBytes pieces).length := by
  induction pieces with
  | nil => rfl
  | cons piece pieces ih =>
      rw [formatBytes, List.flatMap_cons, ← formatBytes, List.length_append, List.length_cons]
      cases piece with
      | literal byte plain => simp only [Piece.bytes, List.length_singleton]; omega
      | directive d => simp only [Piece.bytes, List.length_cons]; omega

/-- **The formatter contract.** On a format made of literal bytes and directives, with
arguments that suit the directives, `vga_printf` sends the renderings in order and
takes one word for each directive other than `%%`. -/
theorem printf_renders {mem : Memory} {args : Nat → UInt64} {texts : Nat → List UInt8}
    (pieces : List Piece) (matching : Matching mem args texts pieces 0) :
    vgaPrintf mem (formatBytes pieces) args =
      .done (renderAll args texts pieces 0, wordsTaken pieces) := by
  rw [vgaPrintf, vgaPrintfLoop_pieces pieces (by have := length_le_formatBytes pieces; omega) matching,
    Nat.zero_add]

/-- The pieces of `%05d is %s`. -/
def samplePieces : List Piece :=
  [.directive ⟨true, [5], .none, .d, by decide, by decide⟩, .literal (ascii ' ') (by decide),
    .literal (ascii 'i') (by decide), .literal (ascii 's') (by decide),
    .literal (ascii ' ') (by decide), .directive ⟨false, [], .none, .s, by decide, by decide⟩]

/-- The directive `%5d`. -/
def fiveWide : Directive := ⟨false, [5], .none, .d, by decide, by decide⟩

/-- The words `-42` and a pointer to `ok`, with a high half that `%d` does not read. -/
def sampleWords : Nat → UInt64 := fun k => if k = 0 then 0xABCDEF01FFFFFFD6 else 0x100

def sampleText : Memory := fun address => [ascii 'o', ascii 'k', 0].getD (address - 0x100) 0

theorem printf_renders_sample : vgaPrintf sampleText (formatBytes samplePieces) sampleWords =
    .done ("-00042 is ok".toList.map ascii, 2) := by
  have matching : Matching sampleText sampleWords (fun _ => [ascii 'o', ascii 'k']) samplePieces 0 :=
    ⟨fun _ => .inl rfl, ⟨by decide, by decide, by decide⟩, trivial⟩
  rw [printf_renders samplePieces matching]
  decide

end Contract

end GodOs
