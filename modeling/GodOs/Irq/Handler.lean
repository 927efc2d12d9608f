import GodOs.Irq.Dispatch
import GodOs.Vga.Digits
import GodOs.Vga.Format
import GodOs.Vm.Fault

/-!
# `isr_handler` and its report

An interrupt goes to `irq_dispatch`, a page fault to the memory, and every other exception
ends in a report on the screen. `panic_report_exact` says what is reported, and that the
report tells which exception it was and where it happened.
-/

namespace GodOs

open Lib

/-- The names of the vectors, from `exception_names`. -/
def exceptionNames : List String :=
  ["#DE Divide Error", "#DB Debug", "NMI Interrupt", "#BP Breakpoint", "#OF Overflow",
    "#BR BOUND Range Exceeded", "#UD Invalid Opcode", "#NM Device Not Available",
    "#DF Double Fault", "Coprocessor Segment Overrun", "#TS Invalid TSS",
    "#NP Segment Not Present", "#SS Stack-Segment Fault", "#GP General Protection",
    "#PF Page Fault", "Reserved", "#MF x87 FPU Error", "#AC Alignment Check",
    "#MC Machine Check", "#XM SIMD FP Exception", "#VE Virtualization Exception",
    "#CP Control Protection Exception", "Reserved", "Reserved", "Reserved", "Reserved",
    "Reserved", "Reserved", "#HV Hypervisor Injection", "#VC VMM Communication",
    "#SX Security Exception", "Reserved"]

/-- The bytes of a text of the source. -/
def textBytes (text : String) : List UInt8 := text.toList.map ascii

/-- The words that follow the format in a call. -/
def callWords (words : List Word) : Nat → UInt64 := fun k => UInt64.ofBitVec (words.getD k 0)

/-- The part of `isr_handler` that prints, for the addresses of the names. -/
def isrReport (mem : Memory) (names : Nat → Word) (cr2 : Word) (r : Regs) : Outcome (List UInt8) :=
  (vgaPrintf mem (textBytes "EXCEPTION 0x%02lX %s\n")
      (callWords [r.vector, names (r.vector &&& 31).toNat])).bind fun (first, _) =>
  (vgaPrintf mem (textBytes "error=0x%016lx\n") (callWords [r.errorCode])).bind fun (second, _) =>
  (if r.vector = 14 then vgaPrintf mem (textBytes "cr2=0x%016lx\n") (callWords [cr2])
    else .done ([], 0)).bind fun (third, _) =>
  (vgaPrintf mem (textBytes "rip=0x%016lx cs=0x%04lx rflags=0x%016lx\n")
      (callWords [r.rip, r.cs, r.rflags])).bind fun (fourth, _) =>
    .done (first ++ second ++ third ++ fourth)

/-- How `isr_handler` ends: it returns after an interrupt or a served fault, or it stops
with a report. -/
inductive IsrOutcome (Handler : Type) where
  | irq (dispatched : Dispatched Handler)
  | resumed
  | stopped (report : List UInt8)

def isrHandler {Handler : Type} (handlers : Fin 16 → Option Handler) (names : Nat → Word) (k : Kernel)
    (cr2 : Word) (r : Regs) : Outcome (Kernel × IsrOutcome Handler) :=
  if r.vector.toNat ≥ idtIrqBase then .done (k, .irq (irqDispatch handlers r))
  else
    let (k, served) :=
      if r.vector = 14 then vmHandlePageFault k cr2.toNat r.errorCode.toNat else (k, 0)
    if served ≠ 0 then .done (k, .resumed)
    else (isrReport k.mem names cr2 r).bind fun report => .done (k, .stopped report)

/-- A number in a report. -/
def hexField (upper : Bool) (width : Nat) (value : Word) : List UInt8 :=
  padLeft (ascii '0') width (numeral 16 upper value.toNat)

/-- The name of a vector. -/
def exceptionName (vector : Nat) : List UInt8 := textBytes (exceptionNames.getD vector "")

/-- The report of an exception. -/
def panicText (cr2 : Word) (r : Regs) : List UInt8 :=
  (textBytes "EXCEPTION 0x" ++ hexField true 2 r.vector ++ textBytes " " ++
      exceptionName r.vector.toNat ++ textBytes "\n") ++
    (textBytes "error=0x" ++ hexField false 16 r.errorCode ++ textBytes "\n") ++
    (if r.vector = 14 then textBytes "cr2=0x" ++ hexField false 16 cr2 ++ textBytes "\n" else []) ++
    (textBytes "rip=0x" ++ hexField false 16 r.rip ++ textBytes " cs=0x" ++ hexField false 4 r.cs ++
      textBytes " rflags=0x" ++ hexField false 16 r.rflags ++ textBytes "\n")

/-- A text without a terminator and without percent signs. -/
def Plain (text : List UInt8) : Prop := ∀ byte ∈ text, byte ≠ 0 ∧ byte ≠ ascii '%'

instance (text : List UInt8) : Decidable (Plain text) := inferInstanceAs (Decidable (∀ byte ∈ text, _))

/-- Bytes of a format that stand for themselves. -/
def literalPieces (text : List UInt8) (plain : Plain text) : List Piece :=
  text.pmap (fun byte isPlain => .literal byte isPlain) plain

instance neZero_digits : NeZero 10 := ⟨by decide⟩

theorem flagged_digits {digits : List (Fin 10)} : true = false → digits.head? ≠ some 0 := by
  intro unflagged
  cases unflagged

/-- The directives `%02lX`, `%04lx` and `%016lx`. -/
def hexDirective (upper : Bool) (digits : List (Fin 10)) (narrow : decimalValue digits < 2 ^ 31) :
    Directive :=
  ⟨true, digits, .l, if upper then .X else .x, flagged_digits, narrow⟩

def vectorDirective : Directive := hexDirective true [2] (by decide)

def selectorDirective : Directive := hexDirective false [4] (by decide)

def wordDirective : Directive := hexDirective false [1, 6] (by decide)

theorem noDigits_unflagged : false = false → ([] : List (Fin 10)).head? ≠ some 0 := by decide

theorem noDigits_narrow : decimalValue [] < 2 ^ 31 := by decide

/-- The directive `%s`. -/
def stringDirective : Directive := ⟨false, [], .none, .s, noDigits_unflagged, noDigits_narrow⟩

section Pieces

variable {mem : Memory} {args : Nat → UInt64} {texts : Nat → List UInt8} {text : List UInt8}
  {plain : Plain text} {pieces : List Piece} {next : Nat}

theorem renderAll_literals : renderAll args texts (literalPieces text plain ++ pieces) next =
    text ++ renderAll args texts pieces next := by
  induction text with
  | nil => rfl
  | cons byte text ih => exact congrArg (byte :: ·) ih

theorem matching_literals : Matching mem args texts (literalPieces text plain ++ pieces) next ↔
    Matching mem args texts pieces next := by
  induction text with
  | nil => rfl
  | cons byte text ih => exact ih

/-- The hexadecimal directives print their word and suit every word. -/
theorem hexDirective_spec {digits : List (Fin 10)} {narrow : decimalValue digits < 2 ^ 31}
    {upper : Bool} (value : Word) :
    (hexDirective upper digits narrow).render (UInt64.ofBitVec value) text =
        hexField upper (decimalValue digits) value ∧
      (hexDirective upper digits narrow).taken = 1 ∧
      (hexDirective upper digits narrow).Suits mem (UInt64.ofBitVec value) text := by
  cases upper <;> exact ⟨rfl, rfl, trivial⟩

end Pieces

/-- The pieces of a format send their renderings. -/
theorem vgaPrintf_pieces {mem : Memory} (format : List UInt8) (args : Nat → UInt64)
    (texts : Nat → List UInt8) (pieces : List Piece) (isFormat : format = formatBytes pieces)
    (matching : Matching mem args texts pieces 0) :
    ∃ taken, vgaPrintf mem format args = .done (renderAll args texts pieces 0, taken) := by
  have enough := length_le_formatBytes pieces
  exact ⟨_, by rw [isFormat, vgaPrintf, vgaPrintfLoop_pieces pieces (by omega) matching]⟩

/-- The linker put the names somewhere. -/
def NamesAt (mem : Memory) (names : Nat → Word) : Prop :=
  ∀ vector < 32, mem.Holds (names vector).toNat (exceptionName vector ++ [0]) ∧
    (names vector).toNat + (exceptionName vector).length < 2 ^ 64

section Report

variable {mem : Memory} {names : Nat → Word} {r r' : Regs} {cr2 cr2' : Word}

/-- The texts of the report around its numbers. -/
theorem report_plain : (Plain (textBytes "EXCEPTION 0x") ∧ Plain (textBytes " ") ∧
    Plain (textBytes "\n")) ∧ Plain (textBytes "error=0x") ∧ Plain (textBytes "cr2=0x") ∧
    Plain (textBytes "rip=0x") ∧ Plain (textBytes " cs=0x") ∧ Plain (textBytes " rflags=0x") := by
  decide +kernel

/-- The end of a line. -/
def lineEnd : List Piece := literalPieces (textBytes "\n") report_plain.1.2.2

theorem lineEnd_eq : lineEnd = literalPieces (textBytes "\n") report_plain.1.2.2 ++ [] :=
  (List.append_nil _).symm

theorem lineEnd_render {args : Nat → UInt64} {texts : Nat → List UInt8} {next : Nat} :
    renderAll args texts lineEnd next = textBytes "\n" := by
  rw [lineEnd_eq, renderAll_literals]
  exact List.append_nil _

theorem lineEnd_matching {args : Nat → UInt64} {texts : Nat → List UInt8} {next : Nat} :
    Matching mem args texts lineEnd next := by
  rw [lineEnd_eq]
  exact matching_literals.mpr trivial

/-- A line with one number. -/
theorem wordLine_sent {text format : List UInt8} (plain : Plain text) (value : Word)
    (isFormat : format = formatBytes (literalPieces text plain ++ .directive wordDirective :: lineEnd)) :
    ∃ taken, vgaPrintf mem format (callWords [value]) =
      .done (text ++ hexField false 16 value ++ textBytes "\n", taken) := by
  have spec := @hexDirective_spec mem [] [1, 6] (by decide) false value
  obtain ⟨taken, sent⟩ := vgaPrintf_pieces format (callWords [value]) (fun _ => []) _ isFormat
    (matching_literals.mpr ⟨spec.2.2, lineEnd_matching⟩)
  refine ⟨taken, sent.trans ?_⟩
  rw [renderAll_literals, renderAll, lineEnd_render, List.append_assoc]
  exact congrArg (fun field => Outcome.done (text ++ (field ++ textBytes "\n"), taken)) spec.1

/-- The first line, with the vector and its name. -/
theorem nameLine_sent (named : NamesAt mem names) (exception : r.vector.toNat < 32) :
    ∃ taken, vgaPrintf mem (textBytes "EXCEPTION 0x%02lX %s\n")
      (callWords [r.vector, names (r.vector &&& 31).toNat]) =
      .done (textBytes "EXCEPTION 0x" ++ hexField true 2 r.vector ++ textBytes " " ++
        exceptionName r.vector.toNat ++ textBytes "\n", taken) := by
  have masked : (r.vector &&& 31).toNat = r.vector.toNat := by
    rw [BitVec.toNat_and]
    exact (Nat.and_two_pow_sub_one_eq_mod _ 5).trans (Nat.mod_eq_of_lt exception)
  obtain ⟨holds, fits⟩ := named _ exception
  have unended : (0 : UInt8) ∉ exceptionName r.vector.toNat := by
    have all : ∀ vector < 32, (0 : UInt8) ∉ exceptionName vector := by decide +kernel
    exact all _ exception
  have spec := @hexDirective_spec mem (exceptionName r.vector.toNat) [2] (by decide) true r.vector
  have suits : stringDirective.Suits mem (UInt64.ofBitVec (names (r.vector &&& 31).toNat))
      (exceptionName r.vector.toNat) := by
    rw [masked]
    exact ⟨holds, unended, fits⟩
  obtain ⟨taken, sent⟩ := vgaPrintf_pieces (textBytes "EXCEPTION 0x%02lX %s\n")
    (callWords [r.vector, names (r.vector &&& 31).toNat]) (fun _ => exceptionName r.vector.toNat)
    (literalPieces (textBytes "EXCEPTION 0x") report_plain.1.1 ++ .directive vectorDirective ::
      (literalPieces (textBytes " ") report_plain.1.2.1 ++ .directive stringDirective :: lineEnd))
    (by decide +kernel) (matching_literals.mpr ⟨spec.2.2, matching_literals.mpr ⟨suits, lineEnd_matching⟩⟩)
  refine ⟨taken, sent.trans ?_⟩
  rw [renderAll_literals, renderAll, renderAll_literals, renderAll, lineEnd_render]
  simp only [List.append_assoc]
  exact congrArg (fun field => Outcome.done (textBytes "EXCEPTION 0x" ++ (field ++ (textBytes " " ++
    (exceptionName r.vector.toNat ++ textBytes "\n"))), taken)) spec.1

/-- The last line, with the place. -/
theorem placeLine_sent : ∃ taken, vgaPrintf mem (textBytes "rip=0x%016lx cs=0x%04lx rflags=0x%016lx\n")
      (callWords [r.rip, r.cs, r.rflags]) =
    .done (textBytes "rip=0x" ++ hexField false 16 r.rip ++ textBytes " cs=0x" ++
      hexField false 4 r.cs ++ textBytes " rflags=0x" ++ hexField false 16 r.rflags ++
      textBytes "\n", taken) := by
  have rip := @hexDirective_spec mem [] [1, 6] (by decide) false r.rip
  have cs := @hexDirective_spec mem [] [4] (by decide) false r.cs
  have rflags := @hexDirective_spec mem [] [1, 6] (by decide) false r.rflags
  obtain ⟨taken, sent⟩ := vgaPrintf_pieces
    (textBytes "rip=0x%016lx cs=0x%04lx rflags=0x%016lx\n") (callWords [r.rip, r.cs, r.rflags])
    (fun _ => [])
    (literalPieces (textBytes "rip=0x") report_plain.2.2.2.1 ++ .directive wordDirective ::
      (literalPieces (textBytes " cs=0x") report_plain.2.2.2.2.1 ++ .directive selectorDirective ::
        (literalPieces (textBytes " rflags=0x") report_plain.2.2.2.2.2 ++
          .directive wordDirective :: lineEnd)))
    (by decide +kernel) (matching_literals.mpr ⟨rip.2.2, matching_literals.mpr ⟨cs.2.2,
      matching_literals.mpr ⟨rflags.2.2, lineEnd_matching⟩⟩⟩)
  refine ⟨taken, sent.trans ?_⟩
  rw [renderAll_literals, renderAll, renderAll_literals, renderAll, renderAll_literals, renderAll,
    lineEnd_render]
  have isWord : wordDirective.taken = 1 ∧ selectorDirective.taken = 1 := ⟨rfl, rfl⟩
  have first : wordDirective.render (callWords [r.rip, r.cs, r.rflags] 0) [] = hexField false 16 r.rip :=
    rip.1
  have second : selectorDirective.render (callWords [r.rip, r.cs, r.rflags] 1) [] =
    hexField false 4 r.cs := cs.1
  have third : wordDirective.render (callWords [r.rip, r.cs, r.rflags] 2) [] =
    hexField false 16 r.rflags := rflags.1
  simp only [isWord, Nat.zero_add, Nat.reduceAdd, first, second, third, List.append_assoc]

/-- The report is sent in full. -/
theorem isrReport_sent (named : NamesAt mem names) (exception : r.vector.toNat < 32) :
    isrReport mem names cr2 r = .done (panicText cr2 r) := by
  obtain ⟨_, first⟩ := nameLine_sent named exception
  obtain ⟨_, second⟩ := @wordLine_sent mem _ (textBytes "error=0x%016lx\n") report_plain.2.1
    r.errorCode (by decide +kernel)
  obtain ⟨_, third⟩ := @wordLine_sent mem _ (textBytes "cr2=0x%016lx\n") report_plain.2.2.1 cr2
    (by decide +kernel)
  obtain ⟨_, fourth⟩ := @placeLine_sent mem r
  unfold isrReport panicText
  rw [first, second, fourth]
  by_cases fault : r.vector = 14
  · rw [if_pos fault, if_pos fault, third]
    rfl
  · rw [if_neg fault, if_neg fault]
    rfl

/-- Leading zeros do not change a number. -/
theorem readBack_padLeft (width : Nat) (digits : List UInt8) :
    readBack 16 (padLeft (ascii '0') width digits) = readBack 16 digits := by
  rw [padLeft, readBack, List.foldl_append]
  have zeros : ∀ count, (List.replicate count (ascii '0')).foldl
      (fun value digit => value * 16 + digitValue digit) 0 = 0 := by
    intro count
    induction count with
    | zero => rfl
    | succ count ih =>
        rw [List.replicate_succ, List.foldl_cons]
        exact ih
  rw [zeros]
  rfl

/-- A field of the report gives its number back. -/
theorem hexField_inj {upper : Bool} {width : Nat} {value value' : Word}
    (same : hexField upper width value = hexField upper width value') : value = value' := by
  have reads (value : Word) : readBack 16 (hexField upper width value) = value.toNat := by
    rw [hexField, readBack_padLeft]
    exact (numeral_represents (by decide) (by decide) value.toNat).reads
  exact BitVec.eq_of_toNat_eq ((reads value).symm.trans (same ▸ reads value'))

/-- A field that its number fits has the width of the field. -/
theorem hexField_length {upper : Bool} {width : Nat} {value : Word} (positive : 0 < width)
    (fits : value.toNat < 16 ^ width) : (hexField upper width value).length = width := by
  have short : (numeral 16 upper value.toNat).length ≤ width := by
    unfold numeral
    split
    · exact positive
    next nonzero =>
      rw [List.length_reverse, List.length_map, Nat.length_digits 16 _ (by decide) nonzero]
      exact Nat.log_lt_of_lt_pow nonzero fits
  rw [hexField, padLeft, List.length_append, List.length_replicate]
  omega

/-- The report tells the exception and its place. -/
theorem panicText_inj (exception : r.vector.toNat < 32) (exception' : r'.vector.toNat < 32)
    (same : panicText cr2 r = panicText cr2' r') :
    r.vector = r'.vector ∧ r.errorCode = r'.errorCode ∧ (r.vector = 14 → cr2 = cr2') ∧
      r.rip = r'.rip ∧ r.cs = r'.cs ∧ r.rflags = r'.rflags := by
  have two {vector : Word} (small : vector.toNat < 32) : (hexField true 2 vector).length = 2 :=
    hexField_length (by decide) (by omega)
  have sixteen (value : Word) : (hexField false 16 value).length = 16 :=
    hexField_length (by decide) value.isLt
  unfold panicText at same
  simp only [List.append_assoc] at same
  -- the fields are cut off one by one: all but that of `cs` have a fixed width
  obtain ⟨vector, same⟩ := List.append_inj (List.append_cancel_left same)
    ((two exception).trans (two exception').symm)
  have isVector := hexField_inj vector
  rw [isVector] at same ⊢
  obtain ⟨error, same⟩ := List.append_inj
    (List.append_cancel_left (List.append_cancel_left (List.append_cancel_left
      (List.append_cancel_left same)))) ((sixteen _).trans (sixteen _).symm)
  have place : (r'.vector = 14 → cr2 = cr2') ∧ textBytes "rip=0x" ++ (hexField false 16 r.rip ++
      (textBytes " cs=0x" ++ (hexField false 4 r.cs ++ (textBytes " rflags=0x" ++
        (hexField false 16 r.rflags ++ textBytes "\n"))))) =
      textBytes "rip=0x" ++ (hexField false 16 r'.rip ++
      (textBytes " cs=0x" ++ (hexField false 4 r'.cs ++ (textBytes " rflags=0x" ++
        (hexField false 16 r'.rflags ++ textBytes "\n"))))) := by
    have same := List.append_cancel_left same
    by_cases fault : r'.vector = 14
    · simp only [if_pos fault, List.append_assoc] at same
      obtain ⟨address, same⟩ := List.append_inj (List.append_cancel_left same)
        ((sixteen _).trans (sixteen _).symm)
      exact ⟨fun _ => hexField_inj address, List.append_cancel_left same⟩
    · rw [if_neg fault, if_neg fault] at same
      exact ⟨fun isFault => absurd isFault fault, same⟩
  obtain ⟨rip, same⟩ := List.append_inj (List.append_cancel_left place.2)
    ((sixteen _).trans (sixteen _).symm)
  obtain ⟨cs, same⟩ := List.append_inj' (List.append_cancel_left same)
    (by simp only [List.length_append, sixteen])
  obtain ⟨rflags, _⟩ := List.append_inj (List.append_cancel_left same)
    ((sixteen _).trans (sixteen _).symm)
  exact ⟨rfl, hexField_inj error, place.1, hexField_inj rip, hexField_inj cs, hexField_inj rflags⟩

/-- **The report of an exception is exact.** Whatever the page fault handler did, an
exception that it did not serve is reported with its vector, its name, its error code, for
a page fault the address, and the place; and the text tells all of them: two exceptions
with the same report agree in vector, error code, address, RIP, CS and RFLAGS. Interrupts
and served faults are not reported. The names are in memory before and after the page
fault handler; `NamesAt.kept` derives this from the place that the linker gives them. -/
theorem panic_report_exact {Handler : Type} (handlers : Fin 16 → Option Handler) (k : Kernel)
    (named : NamesAt (vmHandlePageFault k cr2.toNat r.errorCode.toNat).1.mem names)
    (named' : NamesAt k.mem names) :
    ∃ k', isrHandler handlers names k cr2 r =
      (if r.vector.toNat ≥ idtIrqBase then .done (k', .irq (irqDispatch handlers r))
      else if r.vector = 14 ∧ (vmHandlePageFault k cr2.toNat r.errorCode.toNat).2 ≠ 0 then
        .done (k', .resumed)
      else .done (k', .stopped (panicText cr2 r))) ∧
    ∀ {cr2' : Word} {r' : Regs}, r.vector.toNat < idtIrqBase → r'.vector.toNat < idtIrqBase →
      panicText cr2 r = panicText cr2' r' →
        r.vector = r'.vector ∧ r.errorCode = r'.errorCode ∧ (r.vector = 14 → cr2 = cr2') ∧
          r.rip = r'.rip ∧ r.cs = r'.cs ∧ r.rflags = r'.rflags := by
  refine ⟨if r.vector = 14 then (vmHandlePageFault k cr2.toNat r.errorCode.toNat).1 else k, ?_,
    fun exception exception' same => panicText_inj exception exception' same⟩
  unfold isrHandler
  by_cases isIrq : r.vector.toNat ≥ idtIrqBase
  · have other : r.vector ≠ 14 := by
      rintro is14
      rw [is14] at isIrq
      exact absurd isIrq (by decide)
    rw [if_pos isIrq, if_pos isIrq, if_neg other]
  · have exception : r.vector.toNat < 32 := Nat.lt_of_not_le isIrq
    rw [if_neg isIrq, if_neg isIrq]
    by_cases fault : r.vector = 14
    · simp only [fault, true_and, if_true]
      by_cases served : (vmHandlePageFault k cr2.toNat r.errorCode.toNat).2 ≠ 0
      · rw [if_pos served, if_pos served]
      · rw [if_neg served, if_neg served, isrReport_sent named exception]
        rfl
    · simp only [fault, false_and, ne_eq, not_true_eq_false, if_false]
      rw [isrReport_sent named' exception]
      rfl

end Report

section Sample

/-- The names, one every 64 bytes. -/
def sampleNames : Nat → Word := fun vector => BitVec.ofNat 64 (0x1000 + 64 * vector)

/-- A kernel in a page fault, with the names in its memory. -/
def sampleStopping : Kernel where
  mem := fun address =>
    (exceptionName ((address - 0x1000) / 64) ++ [0]).getD ((address - 0x1000) % 64) 0
  pmm := ⟨fun _ => 0xFF, 0, 0, 0, 0, 0⟩
  kernelSpace := 0
  faults := 0
  inFault := true
  cr3 := 0
  tlb := .empty

/-- A memory holds the bytes that it gives one by one. -/
theorem holds_of_getD {mem : Memory} {start : Nat} {bytes : List UInt8}
    (given : ∀ index < bytes.length, mem (start + index) = bytes.getD index 0) :
    mem.Holds start bytes := by
  induction bytes generalizing start with
  | nil => trivial
  | cons byte bytes ih =>
      refine ⟨given 0 (by simp), ih fun index within => ?_⟩
      have next := given (index + 1) (by simpa using within)
      rw [show start + 1 + index = start + (index + 1) by omega, next]
      rfl

theorem exceptionName_short : ∀ vector < 32, (exceptionName vector).length < 63 := by decide +kernel

/-- A table of the names, 64 bytes for each. -/
theorem namesAt_table {mem : Memory} {base : Nat} (small : base + 2048 ≤ 2 ^ 64)
    (given : ∀ vector < 32, ∀ index < 64, mem (base + 64 * vector + index) =
      (exceptionName vector ++ [0]).getD index 0) :
    NamesAt mem fun vector => BitVec.ofNat 64 (base + 64 * vector) := by
  intro vector isVector
  have bound := exceptionName_short vector isVector
  dsimp only
  rw [BitVec.toNat_ofNat, Nat.mod_eq_of_lt (by omega)]
  refine ⟨holds_of_getD fun index within => given vector isVector index ?_, by omega⟩
  rw [List.length_append, List.length_singleton] at within
  omega

theorem sampleStopping_named : NamesAt sampleStopping.mem sampleNames := by
  refine namesAt_table (by decide) fun vector isVector index within => ?_
  simp only [sampleStopping]
  rw [show (0x1000 + 64 * vector + index - 0x1000) / 64 = vector by omega,
    show (0x1000 + 64 * vector + index - 0x1000) % 64 = index by omega]

/-- A fault while the handler is busy stops the machine, and the report tells its address. -/
theorem panic_report_exact_sample : ∃ k' : Kernel,
    isrHandler (fun _ => (none : Option Unit)) sampleNames sampleStopping 0x40000000
        (sampleCpu.regs 14 2) =
      .done (k', .stopped (panicText 0x40000000 (sampleCpu.regs 14 2))) ∧
    ∀ cr2' : Word, panicText 0x40000000 (sampleCpu.regs 14 2) = panicText cr2' (sampleCpu.regs 14 2) →
      0x40000000 = cr2' := by
  have busy : vmHandlePageFault sampleStopping (0x40000000 : Word).toNat
    (sampleCpu.regs 14 2).errorCode.toNat = (sampleStopping, 0) := rfl
  obtain ⟨k', result, tells⟩ := @panic_report_exact sampleNames (sampleCpu.regs 14 2) 0x40000000 Unit
    (fun _ => none) sampleStopping (by rw [busy]; exact sampleStopping_named) sampleStopping_named
  rw [busy, if_neg (by decide), if_neg (by simp)] at result
  exact ⟨k', result, fun cr2' same => (tells (by decide) (by decide) same).2.2.1 rfl⟩

end Sample

end GodOs
