import GodOs.Lib.Bytes
import GodOs.Vga.Printf

/-!
# Scanning a format

`vga_printf` reads any terminated format up to its terminator and no further, also
where the format ends inside a directive or has conversions that the kernel does not
know, and takes one word for each completed directive that needs one.
-/

namespace GodOs

open Lib

/-- How far the scan of a format has come. -/
inductive Scan where
  | text
  | width
  | modifier
  | conversion
deriving Repr, DecidableEq

/-- The conversion characters of the directives that a format completes, in order. An
`l` may follow either modifier, as the source reads it. -/
def completed : Scan → List UInt8 → List UInt8
  | _, [] => []
  | .text, c :: p => if c = ascii '%' then completed .width p else completed .text p
  | .width, c :: p =>
      if c ≥ ascii '0' ∧ c ≤ ascii '9' then completed .width p
      else if c = ascii 'l' ∨ c = ascii 'z' then completed .modifier p
      else c :: completed .text p
  | .modifier, c :: p =>
      if c = ascii 'l' then completed .conversion p else c :: completed .text p
  | .conversion, c :: p => c :: completed .text p

/-- The conversions that take a word. -/
def fetching : List UInt8 :=
  [ascii 'c', ascii 's', ascii 'd', ascii 'u', ascii 'x', ascii 'X', ascii 'p']

/-- The number of completed directives that take a word. -/
def wordsFetched (fmt : List UInt8) : Nat := ((completed .text fmt).filter (· ∈ fetching)).length

section Texts

variable {mem : Memory} {word : UInt64} {conv : UInt8} {zeroPad is64 : Bool} {width : Nat}

/-- A terminator some way ahead, around the end of the address space too, stops `vga_puts`. -/
theorem vgaPutsFrom_stops {budget s distance : Nat} (terminator : mem (u64 (s + distance)) = 0)
    (address : s < 2 ^ 64) (enough : distance < budget) :
    ∃ sent, vgaPutsFrom mem budget s = .done sent := by
  induction budget generalizing s distance with
  | zero => omega
  | succ budget ih =>
      rw [vgaPutsFrom]
      by_cases stop : mem s = 0
      · exact ⟨[], if_pos stop⟩
      · obtain ⟨nearer, rfl⟩ : ∃ nearer, distance = nearer + 1 := by
          refine ⟨distance - 1, ?_⟩
          have far : distance ≠ 0 := by
            rintro rfl
            rw [Nat.add_zero, u64_of_lt address] at terminator
            exact stop terminator
          omega
        have ahead : mem (u64 (u64 (s + 1) + nearer)) = 0 := by
          have place : u64 (u64 (s + 1) + nearer) = u64 (s + (nearer + 1)) := by
            simp only [u64]
            omega
          rw [place, terminator]
        obtain ⟨sent, later⟩ := ih ahead (Nat.mod_lt _ (by decide)) (by omega)
        exact ⟨mem s :: sent, by rw [if_neg stop, later, Outcome.bind_done]⟩

/-- `vga_puts` ends from every address if there is a zero byte in memory at all. -/
theorem vgaPuts_stops {place s : Nat} (isZero : mem place = 0) (inside : place < 2 ^ 64)
    (address : s < 2 ^ 64) : ∃ sent, vgaPuts mem s = .done sent := by
  have around : u64 (s + (place + 2 ^ 64 - s) % 2 ^ 64) = place := by
    simp only [u64]
    omega
  exact vgaPutsFrom_stops (by rw [around, isZero]) address (Nat.mod_lt _ (by decide))

/-- Every conversion ends, and takes one word or none. -/
theorem vgaConvert_ends (texts : ∀ s < 2 ^ 64, ∃ sent, vgaPuts mem s = .done sent) :
    ∃ sent, vgaConvert mem conv zeroPad is64 width word =
      .done (sent, if conv ∈ fetching then 1 else 0) := by
  have number : ∀ (value : UInt64) {base field : Nat} {pad : UInt8} {upper : Bool},
      base = 10 ∨ base = 16 → ∃ sent, vgaPutUint value.toNat base field pad upper = .done sent :=
    fun value _ _ _ _ based => ⟨_, vgaPutUint_eq (by omega) (digits_fit based value.toNat_lt)⟩
  have taken : ∀ {known : UInt8}, conv = known → known ∈ fetching →
      (if conv ∈ fetching then 1 else 0) = 1 := fun same member => if_pos (same ▸ member)
  rw [vgaConvert]
  by_cases isC : conv = ascii 'c'
  · exact ⟨_, by rw [if_pos isC, taken isC (by decide)]⟩
  by_cases isS : conv = ascii 's'
  · obtain ⟨sent, ends⟩ := texts word.toNat word.toNat_lt
    exact ⟨sent, by rw [if_neg isC, if_pos isS, ends, Outcome.bind_done, taken isS (by decide)]⟩
  by_cases isPercent : conv = ascii '%'
  · exact ⟨_, by rw [if_neg isC, if_neg isS, if_pos isPercent, isPercent]; rfl⟩
  rw [if_neg isC, if_neg isS, if_neg isPercent]
  by_cases isD : conv = ascii 'd'
  · rw [if_pos isD, taken isD (by decide)]
    dsimp only
    generalize (if is64 = true then word.toInt64 else word.toUInt32.toInt32.toInt64) = sv
    by_cases negative : sv < 0
    · obtain ⟨sent, ends⟩ := @number ((~~~sv).toUInt64 + 1) 10 width _ false (.inl rfl)
      exact ⟨_, by rw [if_pos negative, ends, Outcome.bind_done]⟩
    · obtain ⟨sent, ends⟩ := @number sv.toUInt64 10 width _ false (.inl rfl)
      exact ⟨_, by rw [if_neg negative, ends, Outcome.bind_done]⟩
  rw [if_neg isD]
  by_cases isU : conv = ascii 'u'
  · rw [if_pos isU, taken isU (by decide)]
    dsimp only
    generalize (if is64 = true then word else word.toUInt32.toUInt64) = uv
    obtain ⟨sent, ends⟩ := @number uv 10 width _ false (.inl rfl)
    exact ⟨_, by rw [ends, Outcome.bind_done]⟩
  rw [if_neg isU]
  by_cases isX : conv = ascii 'x' ∨ conv = ascii 'X'
  · have known : (if conv ∈ fetching then 1 else 0) = 1 := by
      rcases isX with lower | upper
      · exact taken lower (by decide)
      · exact taken upper (by decide)
    rw [if_pos isX, known]
    dsimp only
    generalize (if is64 = true then word else word.toUInt32.toUInt64) = xv
    obtain ⟨sent, ends⟩ := @number xv 16 width _ (decide (conv = ascii 'X')) (.inr rfl)
    exact ⟨_, by rw [ends, Outcome.bind_done]⟩
  rw [if_neg isX]
  by_cases isP : conv = ascii 'p'
  · rw [if_pos isP, taken isP (by decide)]
    obtain ⟨sent, ends⟩ := @number word 16 16 (ascii '0') false (.inr rfl)
    rw [show (16 : Int) = (16 : Nat) from rfl, ends]
    exact ⟨_, rfl⟩
  rw [not_or] at isX
  have unknown : conv ∉ fetching := by
    simp [fetching, isC, isS, isD, isU, isX.1, isX.2, isP]
  exact ⟨[], by rw [if_neg isP, if_neg unknown]⟩

end Texts

section Fields

variable {p : List UInt8}

/-- The flag is read like a digit of the width. -/
theorem vgaFlag_scan (p : List UInt8) : ∃ zeroPad q, vgaFlag (p ++ [0]) = .done (zeroPad, q ++ [0]) ∧
    q <:+ p ∧ completed .width q = completed .width p := by
  cases p with
  | nil => exact ⟨false, [], rfl, List.suffix_refl _, rfl⟩
  | cons c p =>
      rw [List.cons_append, vgaFlag]
      by_cases flag : c = ascii '0'
      · refine ⟨true, p, if_pos flag, List.suffix_cons c p, ?_⟩
        rw [completed, if_pos (by rw [flag]; decide)]
      · exact ⟨false, c :: p, if_neg flag, List.suffix_refl _, rfl⟩

/-- The width loop stops at the first byte that is no digit, the terminator at the latest. -/
theorem vgaField_scan (p : List UInt8) (start : Nat) :
    ∃ width q, vgaField start (p ++ [0]) = .done (width, q ++ [0]) ∧ q <:+ p ∧
      completed .width q = completed .width p ∧
      ∀ c ∈ q.head?, ¬ (c ≥ ascii '0' ∧ c ≤ ascii '9') := by
  induction p generalizing start with
  | nil => exact ⟨start, [], rfl, List.suffix_refl _, rfl, by simp⟩
  | cons c p ih =>
      rw [List.cons_append, vgaField]
      by_cases digit : c ≥ ascii '0' ∧ c ≤ ascii '9'
      · obtain ⟨width, q, read, suffix, same, stop⟩ := ih (start * 10 + (c - ascii '0').toNat)
        refine ⟨width, q, by rw [if_pos digit, read], suffix.trans (List.suffix_cons c p), ?_, stop⟩
        rw [same, completed, if_pos digit]
      · exact ⟨start, c :: p, if_neg digit, List.suffix_refl _, rfl, by simpa using digit⟩

/-- After the modifier stands the conversion, or the terminator. -/
theorem vgaLength_scan (p : List UInt8) (stop : ∀ c ∈ p.head?, ¬ (c ≥ ascii '0' ∧ c ≤ ascii '9')) :
    ∃ is64 q, vgaLength (p ++ [0]) = .done (is64, q ++ [0]) ∧ q <:+ p ∧
      completed .conversion q = completed .width p := by
  cases p with
  | nil => exact ⟨false, [], rfl, List.suffix_refl _, rfl⟩
  | cons c p =>
      have notDigit := stop c rfl
      rw [List.cons_append, vgaLength.eq_def, completed, if_neg notDigit]
      dsimp only
      by_cases modifier : c = ascii 'l' ∨ c = ascii 'z'
      · rw [if_pos modifier, if_pos modifier]
        cases p with
        | nil => exact ⟨true, [], rfl, List.suffix_cons c [], rfl⟩
        | cons c' p =>
            rw [List.cons_append, completed]
            by_cases second : c' = ascii 'l'
            · refine ⟨true, p, by simp only [if_pos second], ?_, by rw [if_pos second]⟩
              exact (List.suffix_cons c' p).trans (List.suffix_cons c _)
            · exact ⟨true, c' :: p, by simp only [if_neg second]; rfl, List.suffix_cons c _,
                by rw [if_neg second, completed]⟩
      · exact ⟨false, c :: p, if_neg modifier, List.suffix_refl _, by rw [if_neg modifier, completed]⟩

/-- Flag, width and modifier are read in turn, and the conversion or the terminator is next. -/
theorem directive_scan (p : List UInt8) : ∃ zeroPad width is64 afterFlag afterField q,
    vgaFlag (p ++ [0]) = .done (zeroPad, afterFlag) ∧
    vgaField 0 afterFlag = .done (width, afterField) ∧
    vgaLength afterField = .done (is64, q ++ [0]) ∧ q <:+ p ∧
    completed .conversion q = completed .width p := by
  obtain ⟨zeroPad, afterFlag, flag, flagSuffix, flagSame⟩ := vgaFlag_scan p
  obtain ⟨width, afterField, field, fieldSuffix, fieldSame, stop⟩ := vgaField_scan afterFlag 0
  obtain ⟨is64, q, length, lengthSuffix, lengthSame⟩ := vgaLength_scan afterField stop
  exact ⟨zeroPad, width, is64, _, _, q, flag, field, length,
    lengthSuffix.trans (fieldSuffix.trans flagSuffix), by rw [lengthSame, fieldSame, flagSame]⟩

end Fields

section Scan

variable {mem : Memory} {args : Nat → UInt64}

/-- The loop reads what is left of a format up to its terminator. -/
theorem vgaPrintfLoop_scan (texts : ∀ s < 2 ^ 64, ∃ sent, vgaPuts mem s = .done sent)
    {budget next : Nat} {p : List UInt8} (plain : (0 : UInt8) ∉ p) (enough : p.length < budget) :
    ∃ sent, vgaPrintfLoop mem args budget (p ++ [0]) next = .done (sent, next + wordsFetched p) := by
  induction budget generalizing next p with
  | zero => omega
  | succ budget ih =>
      cases p with
      | nil => exact ⟨[], rfl⟩
      | cons c p =>
          rw [List.mem_cons, not_or] at plain
          rw [List.length_cons] at enough
          rw [List.cons_append, vgaPrintfLoop, if_neg (Ne.symm plain.1)]
          by_cases literal : c = ascii '%'
          · obtain ⟨zeroPad, width, is64, _, _, q, flag, field, length, suffix, scanned⟩ :=
              directive_scan p
            have same : completed .text (c :: p) = completed .conversion q := by
              rw [completed, if_pos literal, scanned]
            have shorter := suffix.length_le
            rw [if_neg (not_not.mpr literal), flag]
            simp only [Outcome.bind_done, field, length]
            cases q with
            | nil =>
                obtain ⟨sent, ends⟩ := @vgaConvert_ends mem (args next) 0 zeroPad is64 width texts
                have none : wordsFetched (c :: p) = 0 := by rw [wordsFetched, same]; rfl
                exact ⟨sent, by
                  rw [List.nil_append, none]
                  simp only [ends, if_true]
                  rfl⟩
            | cons conv q =>
                obtain ⟨sent, ends⟩ := @vgaConvert_ends mem (args next) conv zeroPad is64 width texts
                have proper : conv ≠ 0 := by
                  rintro rfl
                  exact plain.2 (suffix.subset List.mem_cons_self)
                have notIn : (0 : UInt8) ∉ q := fun inside =>
                  plain.2 (suffix.subset (List.mem_cons_of_mem _ inside))
                rw [List.length_cons] at shorter
                obtain ⟨others, later⟩ :=
                  @ih (next + if conv ∈ fetching then 1 else 0) q notIn (by omega)
                refine ⟨sent ++ others, ?_⟩
                rw [List.cons_append]
                simp only [ends, Outcome.bind_done]
                rw [if_neg proper, later, Outcome.bind_done, wordsFetched, wordsFetched, same,
                  completed, List.filter_cons]
                by_cases fetches : conv ∈ fetching
                · simp only [fetches, decide_true, if_true, List.length_cons]
                  rw [Nat.add_assoc, Nat.add_comm 1]
                · simp only [fetches, decide_false, Bool.false_eq_true, if_false, Nat.add_zero]
          · obtain ⟨sent, later⟩ := @ih next p plain.2 (by omega)
            refine ⟨c :: sent, ?_⟩
            rw [if_pos literal, later, Outcome.bind_done, wordsFetched, wordsFetched, completed,
              if_neg literal]

/-- **Scanning stays inside the format.** For every terminated string in memory and all
arguments, `vga_printf` ends without reading past the terminator, and takes as many
words as the string has completed directives that need one. -/
theorem printf_scan_safe {p : Nat} {fmt : List UInt8} (stored : mem.Holds p (fmt ++ [0]))
    (fits : p + fmt.length < 2 ^ 64) (plain : (0 : UInt8) ∉ fmt) (args : Nat → UInt64) :
    ∃ sent, vgaPrintf mem fmt args = .done (sent, wordsFetched fmt) := by
  have terminator : mem (p + fmt.length) = 0 := (Memory.holds_append.mp stored).2.1
  obtain ⟨sent, ends⟩ := @vgaPrintfLoop_scan mem args
    (fun s address => vgaPuts_stops terminator fits address) (fmt.length + 1) 0 fmt plain
    (Nat.lt_succ_self _)
  exact ⟨sent, by rw [vgaPrintf, ends, Nat.zero_add]⟩

/-- A format that ends inside a directive, after one with an unknown conversion. -/
def truncatedFormat : List UInt8 := "%d%8q%s%05l".toList.map ascii

/-- The format at `0x100`, and zeros. -/
def truncatedMemory : Memory := fun address => (truncatedFormat ++ [0]).getD (address - 0x100) 0

theorem printf_scan_safe_sample : ∃ sent,
    vgaPrintf truncatedMemory truncatedFormat (fun _ => 2 ^ 64 - 1) = .done (sent, 2) := by
  have words : wordsFetched truncatedFormat = 2 := by decide
  rw [← words]
  exact @printf_scan_safe truncatedMemory 0x100 truncatedFormat (by decide) (by decide) (by decide) _

end Scan

end GodOs
