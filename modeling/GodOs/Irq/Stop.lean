import GodOs.Boot.Start
import GodOs.Irq.Handler
import GodOs.Vga.Dump
import GodOs.Vm.Intact

/-!
# The report of a stopped machine, read from a dump

`isr_handler` prints its report through the screen, a dump saves the screen, and the decoder
prints the dump. `panic_dump_exact` says that the report comes out whole, and that it still
tells which exception it was.
-/

namespace GodOs

open Lib

section Prior

variable {t : Terminal} {ops : List VgaOp}

/-- No row below the cursor has been written, as far as the screen shows them. -/
def Terminal.BlankBelow (t : Terminal) : Prop :=
  ∀ r c, t.row < r → r < 25 → (t.cells r c).toUInt8 = 0x20

theorem Terminal.BlankBelow.newline (blank : t.BlankBelow) : t.newline.BlankBelow := by
  intro r c below small
  have below' : t.row + 1 < r := below
  rw [Terminal.newline]
  dsimp only
  rw [if_pos (by omega)]
  exact blank r c (by omega) small

theorem Terminal.BlankBelow.moveTo (blank : t.BlankBelow) (col : Nat) : (t.moveTo col).BlankBelow := by
  rw [Terminal.moveTo]
  split
  · exact blank
  · exact Terminal.BlankBelow.newline (t := { t with col := col }) blank

theorem Terminal.BlankBelow.putchar (blank : t.BlankBelow) (c : UInt8) : (t.putchar c).BlankBelow := by
  have filled : Terminal.BlankBelow { t with
      cells := Function.update t.cells t.row
        (Function.update (t.cells t.row) t.col (vgaEntry c t.color)) } := by
    intro r column below small
    have below' : t.row < r := below
    dsimp only
    rw [Function.update_of_ne (by omega)]
    exact blank r column below' small
  rw [Terminal.putchar]
  split
  · exact blank.newline
  split
  · exact blank
  split
  · exact blank.moveTo _
  split
  · exact blank
  exact filled.moveTo _

theorem Terminal.fresh_blankBelow (color : UInt8) : (Terminal.fresh color).BlankBelow := by
  intro r c _ _
  rw [Terminal.fresh, vgaEntry_low]

/-- Whatever the calls, nothing has been written below the cursor. -/
theorem Terminal.BlankBelow.run (blank : t.BlankBelow) (ops : List VgaOp) : (t.run ops).BlankBelow := by
  induction ops generalizing t with
  | nil => exact blank
  | cons op ops ih =>
      refine ih ?_
      cases op with
      | clear => exact Terminal.fresh_blankBelow _
      | setColor => exact blank
      | putchar c => exact blank.putchar c

/-- A terminal read row by row. -/
theorem Terminal.BlankBelow.reads (blank : t.BlankBelow) : t.Reads ((List.range (t.row + 1)).map fun r =>
    (List.range 80).map fun c => (t.cells r c).toUInt8) where
  rows := by rw [List.length_map, List.length_range]
  width := by simp
  cells r c valid column := by
    by_cases above : r ≤ t.row
    · simp [glyph, Nat.lt_succ_of_le above, column]
    · rw [glyph_after (by rw [List.length_map, List.length_range]; omega)]
      exact blank r c (by omega) (by omega)

/-- The calls leave the cursor at the start of a line that has not been written. -/
def LineStart (ops : List VgaOp) : Prop := ops = [] ∨ ∃ front, ops = front ++ [.putchar 0x0A]

/-- A terminal at the start of a line. -/
theorem LineStart.follows (start : LineStart ops) (color : UInt8) :
    ∃ above, ((Terminal.fresh color).run ops).Follows above [] := by
  rcases start with rfl | ⟨front, rfl⟩
  · exact ⟨[], Terminal.fresh_follows color⟩
  · have blank := (Terminal.fresh_blankBelow color).run front
    rw [Terminal.run, List.foldl_append]
    exact ⟨_, blank.reads.newline⟩

end Prior

section Lines

variable {cr2 cr2' : Word} {r r' : Regs} {line : List UInt8}

/-- The lines of a report. -/
def panicLines (cr2 : Word) (r : Regs) : List (List UInt8) :=
  [textBytes "EXCEPTION 0x" ++ hexField true 2 r.vector ++ textBytes " " ++
      exceptionName r.vector.toNat,
    textBytes "error=0x" ++ hexField false 16 r.errorCode] ++
    (if r.vector = 14 then [textBytes "cr2=0x" ++ hexField false 16 cr2] else []) ++
    [textBytes "rip=0x" ++ hexField false 16 r.rip ++ textBytes " cs=0x" ++ hexField false 4 r.cs ++
      textBytes " rflags=0x" ++ hexField false 16 r.rflags]

/-- A report is its lines. -/
theorem panicText_eq (cr2 : Word) (r : Regs) :
    panicText cr2 r = (panicLines cr2 r).flatMap (· ++ [0x0A]) := by
  have newline : textBytes "\n" = [0x0A] := by decide +kernel
  unfold panicText panicLines
  rw [newline]
  split <;> simp only [List.flatMap_append, List.flatMap_cons, List.flatMap_nil, List.append_nil,
    List.append_assoc]

end Lines

/-- Every byte can be printed. -/
def Printable (text : List UInt8) : Prop := ∀ byte ∈ text, 32 ≤ byte ∧ byte < 127

instance (text : List UInt8) : Decidable (Printable text) :=
  inferInstanceAs (Decidable (∀ byte ∈ text, _))

/-- The text does not end in a blank. -/
def EndsInInk (text : List UInt8) : Prop := text.getLast?.getD 0x20 ≠ 0x20

instance (text : List UInt8) : Decidable (EndsInInk text) := inferInstanceAs (Decidable (_ ≠ _))

/-- A line that the decoder shows as it is. -/
structure Legible (line : List UInt8) : Prop where
  short : line.length < 80
  printable : Printable line
  ink : EndsInInk line

section Legible

variable {front back line line' : List UInt8} {lines lines' : List (List UInt8)} {byte : UInt8}

theorem Printable.append (first : Printable front) (second : Printable back) :
    Printable (front ++ back) := by
  intro byte member
  rcases List.mem_append.mp member with isFirst | isSecond
  · exact first byte isFirst
  · exact second byte isSecond

theorem EndsInInk.ne_nil (ink : EndsInInk line) : line ≠ [] := by
  rintro rfl
  exact ink rfl

theorem EndsInInk.append (ink : EndsInInk back) : EndsInInk (front ++ back) := by
  obtain ⟨byte, last⟩ := Option.ne_none_iff_exists'.mp (mt List.getLast?_eq_none_iff.mp ink.ne_nil)
  rw [EndsInInk, last] at ink
  rw [EndsInInk, List.getLast?_append, last]
  exact ink

/-- A printable byte is its character. -/
theorem decodeChar_toNat (printable : 32 ≤ byte ∧ byte < 127) : (decodeChar byte).toNat = byte.toNat := by
  revert byte
  decide +kernel

theorem decodeChar_blank (printable : 32 ≤ byte ∧ byte < 127)
    (blank : Char.isWhitespace (decodeChar byte) = true) : byte = 0x20 := by
  revert byte
  decide +kernel

/-- The decoder shows a legible line as it is. -/
theorem Legible.decodedRow (legible : Legible line) : GodOs.decodedRow line = line.map decodeChar := by
  rw [GodOs.decodedRow, rstrip, List.rdropWhile_eq_self_iff]
  intro nonempty blank
  have ink := legible.ink
  have last := List.getLast_mem legible.ink.ne_nil
  rw [List.getLast_map] at blank
  rw [EndsInInk, List.getLast?_eq_some_getLast legible.ink.ne_nil] at ink
  exact ink (decodeChar_blank (legible.printable _ last) blank)

/-- Legible lines that look the same are the same. -/
theorem Legible.inj (legible : Legible line) (legible' : Legible line')
    (same : GodOs.decodedRow line = GodOs.decodedRow line') : line = line' := by
  rw [legible.decodedRow, legible'.decodedRow] at same
  have back {text : List UInt8} (printable : Printable text) :
      (text.map decodeChar).map (fun c => UInt8.ofNat c.toNat) = text := by
    rw [List.map_map]
    refine (List.map_congr_left fun byte member => ?_).trans (List.map_id text)
    simp [decodeChar_toNat (printable byte member)]
  rw [← back legible.printable, same, back legible'.printable]

/-- The rows of legible lines. -/
theorem textRows_lines (legible : ∀ line ∈ lines, Legible line) :
    textRows (lines.flatMap (· ++ [0x0A])) = lines ++ [[]] := by
  induction lines with
  | nil => rfl
  | cons line lines ih =>
      obtain ⟨first, others⟩ := List.forall_mem_cons.mp legible
      have inner : ∀ c ∈ line, (c == 0x0A) = false := by
        intro c member
        have printable := (first.printable c member).1
        rw [beq_eq_false_iff_ne]
        rintro rfl
        exact absurd printable (by decide)
      rw [List.flatMap_cons, List.append_assoc, List.singleton_append, textRows,
        Wrap.rows_append (by decide), Wrap.rows_line first.short inner]
      exact congrArg (line :: ·) (ih others)

end Legible

section Lines

variable {cr2 cr2' value : Word} {r r' : Regs} {upper : Bool} {width : Nat}

/-- The digits of a field. -/
theorem hexField_bytes : ∀ byte ∈ hexField upper width value, 32 < byte ∧ byte < 127 := by
  have digits (d : Nat) (small : d < 16) (upper : Bool) :
      32 < vgaDigit d upper ∧ vgaDigit d upper < 127 := by
    revert d upper
    decide +kernel
  intro byte member
  rcases List.mem_append.mp member with zero | digit
  · rw [List.eq_of_mem_replicate zero]
    decide
  · obtain ⟨d, small, rfl⟩ := (numeral_represents (by decide) (by decide) value.toNat).digit byte digit
    exact digits d small upper

/-- A field of a report takes between 1 and 16 bytes. -/
theorem hexField_size (narrow : width ≤ 16) :
    0 < (hexField upper width value).length ∧ (hexField upper width value).length ≤ 16 := by
  have digits : 0 < (numeral 16 upper value.toNat).length ∧ (numeral 16 upper value.toNat).length ≤ 16 := by
    unfold numeral
    split
    · decide
    next nonzero =>
      rw [List.length_reverse, List.length_map, Nat.length_digits 16 _ (by decide) nonzero]
      exact ⟨Nat.succ_pos _, Nat.log_lt_of_lt_pow nonzero value.isLt⟩
  rw [hexField, padLeft, List.length_append, List.length_replicate]
  omega

theorem hexField_printable : Printable (hexField upper width value) := by
  intro byte member
  obtain ⟨lower, below⟩ := hexField_bytes byte member
  exact ⟨UInt8.le_of_lt lower, below⟩

theorem hexField_ink (narrow : width ≤ 16) : EndsInInk (hexField upper width value) := by
  have nonempty : hexField upper width value ≠ [] := by
    intro empty
    have size := (@hexField_size value upper width narrow).1
    rw [empty] at size
    exact absurd size (by decide)
  rw [EndsInInk, List.getLast?_eq_some_getLast nonempty, Option.getD_some]
  intro blank
  have inked := (hexField_bytes _ (List.getLast_mem nonempty)).1
  rw [blank] at inked
  exact absurd inked (by decide)

/-- All characters of a text are printable. -/
def plainText (text : String) : Bool := text.toList.all fun c => Nat.ble 32 c.toNat && Nat.ble c.toNat 126

theorem textBytes_printable {text : String} (plain : plainText text = true) :
    Printable (textBytes text) := by
  intro byte member
  obtain ⟨c, inText, rfl⟩ := List.mem_map.mp member
  have bounds := List.all_eq_true.mp plain c inText
  rw [Bool.and_eq_true, Nat.ble_eq, Nat.ble_eq] at bounds
  have value : (ascii c).toNat = c.toNat := by
    simp only [ascii, UInt8.toNat_ofNat', Nat.reducePow]
    omega
  constructor
  · rw [UInt8.le_iff_toNat_le, value]
    exact bounds.1
  · rw [UInt8.lt_iff_toNat_lt, value]
    exact Nat.lt_succ_of_le bounds.2

/-- The names of the exceptions. -/
theorem exceptionName_printable : ∀ vector < 32, Printable (exceptionName vector) := by
  have plain : ∀ vector < 32, plainText (exceptionNames.getD vector "") = true := by decide +kernel
  exact fun vector isVector => textBytes_printable (plain vector isVector)

theorem exceptionName_ink : ∀ vector < 32, EndsInInk (exceptionName vector) := by
  decide +kernel

theorem exceptionName_length : ∀ vector < 32, (exceptionName vector).length ≤ 32 := by
  decide +kernel

/-- The texts of a report around its numbers. -/
theorem text_printable : (Printable (textBytes "EXCEPTION 0x") ∧ Printable (textBytes " ")) ∧
    (Printable (textBytes "error=0x") ∧ Printable (textBytes "cr2=0x")) ∧
    Printable (textBytes "rip=0x") ∧ Printable (textBytes " cs=0x") ∧
    Printable (textBytes " rflags=0x") :=
  ⟨⟨textBytes_printable rfl, textBytes_printable rfl⟩, ⟨textBytes_printable rfl, textBytes_printable rfl⟩,
    textBytes_printable rfl, textBytes_printable rfl, textBytes_printable rfl⟩

theorem text_length : ((textBytes "EXCEPTION 0x").length = 12 ∧ (textBytes " ").length = 1) ∧
    ((textBytes "error=0x").length = 8 ∧ (textBytes "cr2=0x").length = 6) ∧
    (textBytes "rip=0x").length = 6 ∧ (textBytes " cs=0x").length = 6 ∧
    (textBytes " rflags=0x").length = 10 := by
  decide +kernel

/-- A line with one number. -/
theorem wordLine_legible {text : List UInt8} (printable : Printable text) (short : text.length ≤ 8) :
    Legible (text ++ hexField false 16 value) where
  short := by
    have size := @hexField_size value false 16 (by decide)
    rw [List.length_append]
    omega
  printable := printable.append hexField_printable
  ink := (hexField_ink (by decide)).append

theorem panicLines_legible (exception : r.vector.toNat < 32) :
    ∀ line ∈ panicLines cr2 r, Legible line := by
  obtain ⟨⟨vectorText, blank⟩, ⟨errorText, cr2Text⟩, ripText, csText, rflagsText⟩ := text_printable
  obtain ⟨⟨vectorSize, blankSize⟩, ⟨errorSize, cr2Size⟩, ripSize, csSize, rflagsSize⟩ := text_length
  have nameSize := exceptionName_length _ exception
  have nameText := exceptionName_printable _ exception
  have nameInk := exceptionName_ink _ exception
  have size {upper : Bool} {width : Nat} {value : Word} (narrow : width ≤ 16) :=
    (@hexField_size value upper width narrow).2
  intro line member
  unfold panicLines at member
  rcases List.mem_append.mp member with upperLines | placeLine
  · rcases List.mem_append.mp upperLines with first | third
    · rcases List.mem_pair.mp first with rfl | rfl
      · refine ⟨?_, ((vectorText.append hexField_printable).append blank).append nameText, nameInk.append⟩
        have vectorWidth := @size true 2 r.vector (by decide)
        simp only [List.length_append]
        omega
      · exact wordLine_legible errorText (by omega)
    · by_cases fault : r.vector = 14
      · rw [if_pos fault] at third
        rw [List.mem_singleton.mp third]
        exact wordLine_legible cr2Text (by omega)
      · rw [if_neg fault] at third
        exact absurd third List.not_mem_nil
  · rw [List.mem_singleton.mp placeLine]
    refine ⟨?_, ((((ripText.append hexField_printable).append csText).append hexField_printable).append
      rflagsText).append hexField_printable, (hexField_ink (by decide)).append⟩
    have ripWidth := @size false 16 r.rip (by decide)
    have csWidth := @size false 4 r.cs (by decide)
    have rflagsWidth := @size false 16 r.rflags (by decide)
    simp only [List.length_append]
    omega

end Lines

section Names

variable {image : Image} {reserved : Set Nat} {mem mem' : Memory} {names : Nat → Word} {k k' : Kernel}
  {cr2 : Word} {r : Regs}

/-- The names lie in the kernel image, outside the boot tables. -/
def NamesSpared (image : Image) (reserved : Set Nat) (names : Nat → Word) : Prop :=
  ∀ vector < 32, ∀ offset ≤ (exceptionName vector).length,
    image.Spared reserved (((names vector).toNat + offset) / 4096)

/-- The names stay where spared bytes stay. -/
theorem NamesAt.kept (named : NamesAt mem names) (spared : NamesSpared image reserved names)
    (same : ∀ address, image.Spared reserved (address / 4096) → mem' address = mem address) :
    NamesAt mem' names := by
  intro vector isVector
  obtain ⟨holds, fits⟩ := named vector isVector
  refine ⟨holds.congr fun address lower upper => same address ?_, fits⟩
  rw [List.length_append, List.length_singleton] at upper
  have inName := spared vector isVector (address - (names vector).toNat) (by omega)
  rwa [show (names vector).toNat + (address - (names vector).toNat) = address by omega] at inName

/-- `isr_handler` stops for exceptions only, with their report. -/
theorem isrHandler_stopped {Handler : Type} {handlers : Fin 16 → Option Handler} {report : List UInt8}
    (named : NamesAt k.mem names)
    (named' : NamesAt (vmHandlePageFault k cr2.toNat r.errorCode.toNat).1.mem names)
    (stopped : isrHandler handlers names k cr2 r = .done (k', .stopped report)) :
    r.vector.toNat < 32 ∧ report = panicText cr2 r := by
  unfold isrHandler at stopped
  by_cases isIrq : r.vector.toNat ≥ idtIrqBase
  · rw [if_pos isIrq] at stopped
    cases stopped
  have exception : r.vector.toNat < 32 := Nat.lt_of_not_le isIrq
  rw [if_neg isIrq] at stopped
  refine ⟨exception, ?_⟩
  by_cases fault : r.vector = 14
  · simp only [fault, if_true] at stopped
    split at stopped
    · cases stopped
    · rw [isrReport_sent named' exception] at stopped
      cases stopped
      rfl
  · simp only [fault, if_false, ne_eq, not_true_eq_false] at stopped
    rw [isrReport_sent named exception] at stopped
    cases stopped
    rfl

end Names

/-- A dump of a machine that an exception stopped: the memory layer ran from boot through
`heap_init` and on, `isr_handler` stopped with a report, and the report went to a screen that
had been cleared and then used in any way that ends at the start of a line. -/
inductive StopDump (cr2 : Word) (r : Regs) : List UInt8 → Prop where
  | intro {Handler : Type} {handlers : Fin 16 → Option Handler} {names : Nat → Word} {image : Image}
      {mbInfo : Nat} {start s : System} {events : List DemandEvent} {k' : Kernel} {report : List UInt8}
      {screen vga : Vga} {ops : List VgaOp} (started : Started image mbInfo start)
      (run : Steps DemandStep start (heapInitWrites.map .access ++ events) s)
      (canonical : ∀ call, .call call ∈ events → CanonicalEvent call)
      (named : NamesAt start.kernel.mem names)
      (spared : NamesSpared image (reservedFrames image mbInfo start.kernel.pmm.infoEnd) names)
      (stopped : isrHandler handlers names s.kernel cr2 r = .done (k', .stopped report))
      (line : LineStart ops) (shown : vgaRun screen (.clear :: ops ++ report.map .putchar) = some vga) :
      StopDump cr2 r (vgaDump vga)

/-- A printed line without its number. -/
def numbered (r : Nat) (text : List Char) : List Char := hex02 r ++ "  ".toList ++ text

section Stop

variable {cr2 cr2' : Word} {r r' : Regs} {data data' : List UInt8} {above lines : List (List UInt8)}

/-- The lines at the end of a log are shown, with empty rows below them. -/
theorem lastRows_lines (short : lines.length ≤ 24) : ∃ front count,
    lastRows (above ++ (lines ++ [[]])) = front ++ lines ++ List.replicate count [] := by
  have cut : (above ++ (lines ++ [[]])).rtake 25 =
      above.drop (above.length + (lines.length + 1) - 25) ++ (lines ++ [[]]) := by
    rw [List.rtake, List.length_append, List.length_append, List.length_singleton,
      List.drop_append_of_le_length (by omega)]
  rw [lastRows, cut, List.rightpad]
  refine ⟨above.drop (above.length + (lines.length + 1) - 25),
    1 + (25 - (above.drop (above.length + (lines.length + 1) - 25) ++ (lines ++ [[]])).length), ?_⟩
  rw [List.replicate_add]
  simp only [List.append_assoc, List.replicate_one]

/-- The report sends no character that only moves the cursor within a row. -/
theorem panicText_plain (exception : r.vector.toNat < 32) : ∀ c ∈ panicText cr2 r, ¬ StaysInRow c := by
  intro c member
  rw [panicText_eq] at member
  obtain ⟨line, isLine, inLine⟩ := List.mem_flatMap.mp member
  rcases List.mem_append.mp inLine with inner | newline
  · have printable := ((panicLines_legible exception line isLine).printable c inner).1
    rintro (rfl | rfl | rfl) <;> exact absurd printable (by decide)
  · rw [List.mem_singleton.mp newline]
    decide

theorem panicLines_length : (panicLines cr2 r).length ≤ 4 := by
  unfold panicLines
  split <;> simp

/-- Without attributes the decoder numbers the rows. -/
theorem mapIdx_numbered (rows : List (List UInt8)) (attrs : List UInt8) :
    rows.mapIdx (fun r row => decodeLine false r (decodedRow row, attrs)) =
      (rows.map decodedRow).mapIdx numbered := by
  refine List.ext_getElem (by simp) fun r _ _ => ?_
  simp only [List.getElem_mapIdx, List.getElem_map, decodeLine, numbered, Bool.false_eq_true, if_false,
    List.append_nil]

/-- What the decoder prints for the dump of a stopped machine. -/
theorem StopDump.decoded (dump : StopDump cr2 r data) : r.vector.toNat < 32 ∧
    ∃ front count, ∀ {readFile : String → Except String (List UInt8)} {path : String},
      path ≠ "--attr" → readFile path = .ok data → decodeMain readFile [path] =
        some ⟨(front ++ (panicLines cr2 r).map decodedRow ++ List.replicate count []).mapIdx numbered,
          none, 0⟩ := by
  cases dump with
  | @intro Handler handlers names image mbInfo start s events k' report screen vga ops started run
      canonical named spared stopped line shown =>
  -- the names are where the linker put them, before and after the fault
  obtain ⟨⟨array, demand⟩, kept⟩ := started.demand_run run canonical
  obtain ⟨level, owned⟩ := demand.owned
  have before := named.kept spared kept
  have after := before.kept spared fun address isSpared =>
    have ⟨unused, inUse, _⟩ := owned.spared isSpared
    owned.paging.vmHandlePageFault_bytes unused inUse cr2.toNat r.errorCode.toNat
  obtain ⟨exception, rfl⟩ := isrHandler_stopped before after stopped
  refine ⟨exception, ?_⟩
  -- the screen shows the rows of the report below what was there
  obtain ⟨cleared, first, settled⟩ := vgaClear_settled screen
  obtain ⟨final, rest, settled'⟩ := settled.run (ops ++ (panicText cr2 r).map .putchar)
  have same : vgaRun screen (.clear :: ops ++ (panicText cr2 r).map .putchar) = some final := by
    rw [List.cons_append, vgaRun, List.foldlM_cons, VgaOp.apply, first]
    exact rest
  obtain rfl := Option.some.inj (shown.symm.trans same)
  obtain ⟨above, follows⟩ := line.follows screen.color
  have lines : textRows (panicText cr2 r) = panicLines cr2 r ++ [[]] := by
    rw [panicText_eq, textRows_lines (panicLines_legible exception)]
  have reads := follows.run (@panicText_plain cr2 _ exception)
  rw [Wrap.fill_nil (by decide)] at reads
  change Terminal.Reads _ (above ++ textRows (panicText cr2 r)) at reads
  rw [lines] at reads
  rw [Terminal.run, List.foldl_append] at settled'
  have size := @panicLines_length cr2 r
  obtain ⟨front, blanks, rows⟩ := @lastRows_lines above (panicLines cr2 r) (by omega)
  refine ⟨front.map decodedRow, blanks, fun {readFile path} other file => ?_⟩
  have noFlag : "--attr" ∉ [path] := by simpa using other.symm
  rw [@Settled.decodeMain vga _ _ 0 readFile [path] path settled' reads (by simpa using other) file
    fun flag => absurd flag noFlag, rows]
  have hidden : [path].contains "--attr" = false := by simpa using other.symm
  rw [hidden, mapIdx_numbered, List.map_append, List.map_append, List.map_replicate]
  rfl

/-- Numbered lines tell the lines. -/
theorem mapIdx_numbered_inj {texts texts' : List (List Char)}
    (same : texts.mapIdx numbered = texts'.mapIdx numbered) : texts = texts' := by
  have length : texts.length = texts'.length := by simpa using congrArg List.length same
  refine List.ext_getElem length fun r inside inside' => ?_
  have line := congrArg (·[r]?) same
  simp only [List.getElem?_mapIdx, List.getElem?_eq_getElem inside, List.getElem?_eq_getElem inside',
    Option.map_some, Option.some.injEq] at line
  exact List.append_cancel_left line

/-- The empty lines at the end are no part of the rest. -/
theorem rdropWhile_blanks {front texts : List (List Char)} (count : Nat) (some : texts ≠ [])
    (filled : ∀ text ∈ texts, text ≠ []) :
    (front ++ texts ++ List.replicate count []).rdropWhile List.isEmpty = front ++ texts := by
  induction count with
  | zero =>
      rw [List.replicate_zero, List.append_nil, List.rdropWhile_eq_self_iff]
      intro _ blank
      rw [List.getLast_append_of_ne_nil _ some, List.isEmpty_iff] at blank
      exact filled _ (List.getLast_mem some) blank
  | succ count ih =>
      rw [List.replicate_succ', ← List.append_assoc, List.rdropWhile_concat_pos _ _ _ rfl]
      exact ih

/-- The decoded lines of a report are not empty. -/
theorem panicLines_filled (exception : r.vector.toNat < 32) :
    (panicLines cr2 r).map decodedRow ≠ [] ∧
      ∀ text ∈ (panicLines cr2 r).map decodedRow, text ≠ [] := by
  constructor
  · simp [panicLines]
  · intro text member empty
    obtain ⟨line, isLine, rfl⟩ := List.mem_map.mp member
    have legible := panicLines_legible exception line isLine
    rw [legible.decodedRow, List.map_eq_nil_iff] at empty
    exact legible.ink.ne_nil empty

/-- A report with the line of CR2 does not end as one without it. -/
theorem panicLines_fault {front front' : List (List Char)} (exception : r.vector.toNat < 32)
    (exception' : r'.vector.toNat < 32)
    (same : front ++ (panicLines cr2 r).map decodedRow = front' ++ (panicLines cr2' r').map decodedRow)
    (fault : r.vector = 14) : r'.vector = 14 := by
  by_contra other
  have legible := @panicLines_legible cr2 r exception
  have legible' := @panicLines_legible cr2' r' exception'
  -- the line before the last one is that of CR2 here, and that of the error code there
  have place : textBytes "cr2=0x" ++ hexField false 16 cr2 =
      textBytes "error=0x" ++ hexField false 16 r'.errorCode := by
    have cr2Line := legible (textBytes "cr2=0x" ++ hexField false 16 cr2) (by simp [panicLines, fault])
    have errorLine := legible' (textBytes "error=0x" ++ hexField false 16 r'.errorCode)
      (by simp [panicLines])
    simp only [panicLines, if_pos fault, if_neg other, List.cons_append, List.nil_append,
      List.map_cons, List.map_nil] at same
    rw [← List.singleton_append, ← List.append_assoc] at same
    have tail := (List.append_inj' same (by simp only [List.length_cons, List.length_nil])).2
    exact cr2Line.inj errorLine (List.cons.inj (List.cons.inj tail).2).1
  have first : textBytes "cr2=0x" = [0x63, 0x72, 0x32, 0x3D, 0x30, 0x78] := by decide +kernel
  have first' : textBytes "error=0x" = [0x65, 0x72, 0x72, 0x6F, 0x72, 0x3D, 0x30, 0x78] := by
    decide +kernel
  rw [first, first', List.cons_append, List.cons_append] at place
  exact absurd (List.cons.inj place).1 (by decide)

/-- The decoded lines tell the report. -/
theorem panicLines_inj {front front' : List (List Char)} (exception : r.vector.toNat < 32)
    (exception' : r'.vector.toNat < 32)
    (same : front ++ (panicLines cr2 r).map decodedRow = front' ++ (panicLines cr2' r').map decodedRow) :
    panicLines cr2 r = panicLines cr2' r' := by
  have length : (panicLines cr2 r).length = (panicLines cr2' r').length := by
    have fault : r.vector = 14 ↔ r'.vector = 14 :=
      ⟨panicLines_fault exception exception' same, panicLines_fault exception' exception same.symm⟩
    simp only [panicLines, fault]
    split <;> rfl
  have lines := (List.append_inj' same (by rw [List.length_map, List.length_map, length])).2
  refine List.ext_getElem length fun index inside inside' => ?_
  have line := congrArg (·[index]?) lines
  simp only [List.getElem?_map, List.getElem?_eq_getElem inside, List.getElem?_eq_getElem inside',
    Option.map_some, Option.some.injEq] at line
  exact (panicLines_legible exception _ (List.getElem_mem inside)).inj
    (panicLines_legible exception' _ (List.getElem_mem inside')) line

end Stop

section Sample

/-- Boot memory with a structure at `0x9000`, and the names in the image at `0x108000`. -/
def namedMemory : Memory := fun address =>
  if 0x108000 ≤ address ∧ address < 0x108800 then
    (exceptionName ((address - 0x108000) / 64) ++ [0]).getD ((address - 0x108000) % 64) 0
  else repStos (buildTables sampleImage sampleInfo) 0x118000 1 0 0x8000 address

/-- The kernel on that memory. -/
def namedBoot : Kernel where
  mem := namedMemory
  pmm := { bitmap := fun _ => 0, freeFrames := 0, hint := 0, mbInfo := 0, infoEnd := 0, maxEnd := 0 }
  kernelSpace := 0
  faults := 0
  inFault := false
  cr3 := 0x110000
  tlb := Tlb.empty

def imageNames : Nat → Word := fun vector => BitVec.ofNat 64 (0x108000 + 64 * vector)

set_option maxRecDepth 4000 in
theorem sampleInfo_holds : sampleInfo.Holds 0x9000 (mb2Encode 0 sampleTags) := by decide

/-- It boots, with the names in memory and four frames and more. -/
theorem named_started : ∃ start, Started sampleImage 0x9000 start ∧
    NamesAt start.kernel.mem imageNames ∧ 4 ≤ start.kernel.pmm.freeFrames := by
  have outside : ∀ address, address < 0x108000 ∨ 0x108800 ≤ address → namedMemory address =
      repStos (buildTables sampleImage sampleInfo) 0x118000 1 0 0x8000 address := by
    intro address apart
    rw [namedMemory, if_neg (by omega)]
  have tables : BootTables sampleImage namedMemory :=
    (@bootStart_tables sampleLayout sampleInfo).congr fun address lower upper =>
      outside address (.inr (by simp only [sampleLayout, sampleImage] at lower; omega))
  have size : (mb2Encode 0 sampleTags).length = 0x70 := by decide
  have holds : (vmInit namedBoot).mem.Holds 0x9000 (mb2Encode 0 sampleTags) := by
    refine sampleInfo_holds.congr fun address lower upper => (outside address (.inl (by omega))).trans ?_
    refine @bootStart_outside sampleLayout sampleInfo address ?_
    simp only [Layout.Writes, sampleLayout, sampleImage]
    omega
  obtain ⟨k, status, run, accepted, same, pool⟩ := @BootTables.pmmInit_encoded sampleImage
    (vmInit namedBoot) 0x9000 0 sampleTags tables rfl holds (by decide) (by omega)
    (.inl (by simp only [Image.pd, sampleImage]; omega))
  obtain rfl : status = 0 := accepted.mpr ⟨by decide, by decide, by decide, by decide⟩
  have booted : Booted sampleImage 0x9000 k := ⟨namedBoot, tables, rfl, run⟩
  refine ⟨⟨k, [0x110000], ∅⟩, ⟨booted, rfl, rfl⟩, ?_, ?_⟩
  · refine namesAt_table (by decide) fun vector isVector index within => ?_
    have kept : k.mem (0x108000 + 64 * vector + index) = namedMemory (0x108000 + 64 * vector + index) :=
      same _ (.inl (by simp only [Image.pd, sampleImage]; omega))
    rw [kept, namedMemory, if_pos (by omega),
      show (0x108000 + 64 * vector + index - 0x108000) / 64 = vector by omega,
      show (0x108000 + 64 * vector + index - 0x108000) % 64 = index by omega]
  · have stretch : Finset.Ico 288 292 ⊆ freeSet k.pmm.bitmap := by
      intro frame member
      rw [Finset.mem_Ico] at member
      have inRange : frame < pmmFrameCount := by
        simp only [pmmFrameCount, pmmMaxPhys, pmmFrameSize]
        omega
      refine (pool rfl frame).mpr
        ⟨inRange, (usableFrame_iff inRange).mpr ⟨⟨⟨0x100000, 0x7F00000⟩, ?_, ?_⟩, ?_⟩⟩
      · decide
      · simp only [Offers, pmmFrameSize, pmmMaxPhys]
        omega
      · simp only [Reserved, pmmFrameSize, pmmLowReserved, sampleImage, not_or, size]
        omega
    have count := Finset.card_le_card stretch
    rw [Nat.card_Ico] at count
    rw [booted.state.valid.count]
    omega

theorem imageNames_spared (reserved : Nat) :
    NamesSpared sampleImage (reservedFrames sampleImage 0x9000 reserved) imageNames := by
  intro vector isVector offset within
  have bound := exceptionName_short vector isVector
  have place : (imageNames vector).toNat = 0x108000 + 64 * vector := by
    rw [imageNames, BitVec.toNat_ofNat, Nat.mod_eq_of_lt (by omega)]
  rw [place]
  refine ⟨.inl ?_, fun isBoot => ?_⟩
  · simp only [pmmFrameSize, pmmLowReserved, sampleImage]
    omega
  · rcases sampleImage.level_cases isBoot with ⟨same, _⟩ | ⟨same, _⟩ | ⟨same, _⟩ <;>
    · simp only [Image.pdpt, Image.pd, sampleImage, pmmFrameSize] at same
      omega

/-- The machine that reads an address outside the window, at 1 GB, after `heap_init`. -/
theorem sample_stopDump : ∃ data, StopDump 0x40000000 (sampleCpu.regs 14 0) data := by
  obtain ⟨start, started, named, frames⟩ := named_started
  obtain ⟨s, init, demand, _⟩ := started.demand.heapInit_steps frames
  have run : Steps DemandStep start (heapInitWrites.map .access ++ []) s := by
    rw [List.append_nil]
    exact init
  obtain ⟨_, kept⟩ := started.demand_run run (by simp)
  have spared := imageNames_spared start.kernel.pmm.infoEnd
  have handled : vmHandlePageFault s.kernel (0x40000000 : Word).toNat
      (sampleCpu.regs 14 0).errorCode.toNat = (s.kernel, 0) :=
    vmHandlePageFault_filtered fun filter => absurd filter.2.2.2.2 (by decide)
  have stopped : isrHandler (fun _ => (none : Option Unit)) imageNames s.kernel 0x40000000
      (sampleCpu.regs 14 0) = .done (s.kernel, .stopped (panicText 0x40000000 (sampleCpu.regs 14 0))) := by
    rw [isrHandler, if_neg (by decide), if_pos (by decide), handled]
    simp only [ne_eq, not_true_eq_false, if_false]
    rw [isrReport_sent (named.kept spared kept) (by decide)]
    rfl
  obtain ⟨cleared, first, settled⟩ := vgaClear_settled sampleScreen
  obtain ⟨vga, rest, _⟩ := settled.run ((panicText 0x40000000 (sampleCpu.regs 14 0)).map .putchar)
  have shown : vgaRun sampleScreen (.clear :: [] ++
      (panicText 0x40000000 (sampleCpu.regs 14 0)).map .putchar) = some vga := by
    rw [List.singleton_append, vgaRun, List.foldlM_cons, VgaOp.apply, first]
    exact rest
  exact ⟨vgaDump vga, @StopDump.intro 0x40000000 (sampleCpu.regs 14 0) _ _ _ _ _ start s [] s.kernel
    _ sampleScreen vga [] started run (by simp) named spared stopped (.inl rfl) shown⟩

end Sample

end GodOs
