import GodOs.Lib.Probe
import GodOs.Mb2.RoundTrip

/-!
# The parser on arbitrary bytes

The parser once more, as a program that shows its reads and notes its 64-bit sums, its
writes to the output array, and the guard against a truncated entry. On every memory it
computes what `mb2Init` does, and `mb2_parser_safe` bounds all that it shows.
-/

namespace GodOs

open Lib

/-- What the parser does besides reading: a 64-bit sum with its exact value, a slot of the
output array that it fills, or a truncated entry. -/
inductive Mb2Note where
  | sum (value : Nat)
  | write (range : Mb2Range) (index : Nat)
  | truncated

/-- The loop over the entries, like `mb2Entries`. -/
def mb2EntriesProbe (p size entrySize maxRanges : Nat) :
    Nat → Nat → List Mb2Range → Probe Mb2Note (Option (List Mb2Range))
  | 0, _, ranges => .done (some ranges)
  | left + 1, i, ranges =>
      let e := u64 (p + 16 + i * entrySize)
      .note (.sum (p + 16)) <| .note (.sum (p + 16 + i * entrySize)) <|
      .note (.sum (e + 24)) <| .note (.sum (p + size)) <|
      if u64 (e + 24) > u64 (p + size) then .note .truncated (.done none)
      else
        .read e 8 fun base =>
        .note (.sum (e + 8)) <| .read (u64 (e + 8)) 8 fun length =>
        .note (.sum (e + 16)) <| .read (u64 (e + 16)) 4 fun type =>
        if type ≠ mb2MmapTypeAvailable then
          mb2EntriesProbe p size entrySize maxRanges left (i + 1) ranges
        else if ranges.length ≥ maxRanges then .done none
        else
          .note (.write ⟨base, length⟩ ranges.length) <|
          mb2EntriesProbe p size entrySize maxRanges left (i + 1) (ranges ++ [⟨base, length⟩])

/-- The tag loop, like `mb2Tags`. -/
def mb2TagsProbe (finish maxRanges : Nat) :
    Nat → Nat → List Mb2Range → Probe Mb2Note (Outcome (Option (List Mb2Range)))
  | 0, _, _ => .done .loop
  | budget + 1, p, ranges =>
      .note (.sum (p + 8)) <|
      if u64 (p + 8) > finish then .done (.done (some ranges))
      else
        .read p 4 fun type =>
        .note (.sum (p + 4)) <| .read (u64 (p + 4)) 4 fun size =>
        if type = mb2TagEnd then .done (.done (some ranges))
        else
          .note (.sum (p + size)) <|
          if size < 8 ∨ u64 (p + size) > finish then .done (.done none)
          else if type = mb2TagMmap then
            if size < 16 then .done (.done none)
            else
              .note (.sum (p + 8)) <| .read (u64 (p + 8)) 4 fun entrySize =>
              if entrySize < 24 then .done (.done none)
              else
                (mb2EntriesProbe p size entrySize maxRanges ((size - 16) / entrySize) 0 ranges).bind fun
                | none => .done (.done none)
                | some ranges =>
                    .note (.sum (u64 (p + size) + 7)) <|
                    mb2TagsProbe finish maxRanges budget (mb2AlignUp8 (u64 (p + size))) ranges
          else
            .note (.sum (u64 (p + size) + 7)) <|
            mb2TagsProbe finish maxRanges budget (mb2AlignUp8 (u64 (p + size))) ranges

/-- `mb2_init`, like `mb2Init`. -/
def mb2InitProbe (infoAddr maxRanges infoEnd : Nat) :
    Probe Mb2Note (Outcome (Nat × Option (List Mb2Range))) :=
  if maxRanges = 0 then .done (.done (infoEnd, none))
  else
    .read infoAddr 4 fun totalSize =>
    if totalSize = 0 ∨ totalSize > 0x100000 then .done (.done (infoEnd, none))
    else
      .note (.sum (infoAddr + totalSize)) <| .note (.sum (infoAddr + 8)) <|
      (mb2TagsProbe (u64 (infoAddr + totalSize)) maxRanges (2 ^ 64) (u64 (infoAddr + 8)) []).bind
        fun ranges => .done (ranges.bind fun ranges => .done (u64 (infoAddr + totalSize), ranges))

/-- The slots that are filled, in order, with their contents. -/
def filled (notes : List Mb2Note) : List (Mb2Range × Nat) :=
  notes.filterMap fun
    | .write range index => some (range, index)
    | _ => none

/-- Reads inside the bytes from `first` to `last`. -/
def Inside (first last address width : Nat) : Prop := first ≤ address ∧ address + width ≤ last

/-- Sums that do not wrap, writes inside the array, and no truncated entry. -/
def Mb2Note.Allowed (maxRanges : Nat) : Mb2Note → Prop
  | .sum value => value < 2 ^ 64
  | .write _ index => index < maxRanges
  | .truncated => False

section Value

variable {mem : Memory} {p size entrySize maxRanges left i finish budget : Nat}
  {ranges : List Mb2Range}

theorem mb2EntriesProbe_value :
    (mb2EntriesProbe p size entrySize maxRanges left i ranges).value mem =
      mb2Entries mem p size entrySize maxRanges left i ranges := by
  induction left generalizing i ranges with
  | zero => rfl
  | succ left ih =>
      simp only [mb2EntriesProbe, mb2Entries, Probe.value]
      split
      · rfl
      simp only [Probe.value]
      split
      · exact ih
      split
      · rfl
      · exact ih

theorem mb2TagsProbe_value : (mb2TagsProbe finish maxRanges budget p ranges).value mem =
    mb2Tags mem finish maxRanges budget p ranges := by
  induction budget generalizing p ranges with
  | zero => rfl
  | succ budget ih =>
      simp only [mb2TagsProbe, mb2Tags, Probe.value]
      split
      · rfl
      simp only [Probe.value]
      split
      · rfl
      simp only [Probe.value]
      split
      · rfl
      split
      · split
        · rfl
        simp only [Probe.value]
        split
        · rfl
        rw [Probe.value_bind, mb2EntriesProbe_value]
        generalize mb2Entries mem p _ _ _ _ _ _ = entries
        cases entries with
        | none => rfl
        | some found => exact ih
      · exact ih

/-- Showing its accesses, the parser computes the same. -/
theorem mb2InitProbe_value {infoAddr infoEnd : Nat} :
    (mb2InitProbe infoAddr maxRanges infoEnd).value mem = mb2Init mem infoAddr maxRanges infoEnd := by
  simp only [mb2InitProbe, mb2Init]
  split
  · rfl
  simp only [Probe.value]
  split
  · rfl
  · simp only [Probe.value, Probe.value_bind, mb2TagsProbe_value]

end Value

/-- What a loop has shown by its end: all of it is allowed, and a loop that succeeds has
filled the slots behind `ranges` with what it returns. -/
structure Tame (mem : Memory) (first last maxRanges : Nat) (ranges : List Mb2Range) {α : Type}
    (program : Probe Mb2Note α) (result : α → Option (List Mb2Range)) : Prop where
  safe : program.Safe mem (Inside first last) (Mb2Note.Allowed maxRanges)
  fills : ∀ found, result (program.value mem) = some found → found.length ≤ maxRanges ∧
    ∃ new, found = ranges ++ new ∧ filled (program.notes mem) = new.zipIdx ranges.length

section Safe

variable {mem : Memory} {first last maxRanges : Nat} {ranges : List Mb2Range} {α : Type}
  {program : Probe Mb2Note α} {result : α → Option (List Mb2Range)}

/-- Ending the loop. -/
theorem Tame.done {value : α} (room : ranges.length ≤ maxRanges)
    (ends : result value = none ∨ result value = some ranges) :
    Tame mem first last maxRanges ranges (.done value) result where
  safe := trivial
  fills found isResult := by
    rcases ends with failed | same
    · exact absurd (failed.symm.trans isResult) (by simp)
    · obtain rfl := Option.some.inj (same.symm.trans isResult)
      exact ⟨room, [], by simp [Probe.notes, filled]⟩

theorem Tame.sum {value : Nat} (fits : value < 2 ^ 64)
    (tame : Tame mem first last maxRanges ranges program result) :
    Tame mem first last maxRanges ranges (.note (.sum value) program) result where
  safe := ⟨fits, tame.safe⟩
  fills := tame.fills

theorem Tame.read {address width : Nat} {next : Nat → Probe Mb2Note α}
    (inside : Inside first last address width)
    (tame : Tame mem first last maxRanges ranges (next (mem.load address width)) result) :
    Tame mem first last maxRanges ranges (.read address width next) result where
  safe := ⟨inside, tame.safe⟩
  fills := tame.fills

/-- Filling the next slot. -/
theorem Tame.write {range : Mb2Range} (room : ranges.length < maxRanges)
    (tame : Tame mem first last maxRanges (ranges ++ [range]) program result) :
    Tame mem first last maxRanges ranges (.note (.write range ranges.length) program) result where
  safe := ⟨room, tame.safe⟩
  fills found isResult := by
    obtain ⟨length, new, shape, slots⟩ := tame.fills found isResult
    refine ⟨length, range :: new, by rw [shape, List.append_assoc]; rfl, ?_⟩
    rw [List.length_append] at slots
    rw [List.zipIdx_cons]
    exact congrArg ((range, ranges.length) :: ·) slots

/-- Reads under a wider bound. -/
theorem Tame.mono {last' : Nat} (tame : Tame mem first last maxRanges ranges program result)
    (wider : last ≤ last') : Tame mem first last' maxRanges ranges program result where
  safe := tame.safe.mono fun _ _ inside => ⟨inside.1, Nat.le_trans inside.2 wider⟩
  fills := tame.fills

/-- The loop over the entries of a tag that lies inside the structure. The entries end
before the tag does, so none is ever truncated. -/
theorem mb2EntriesProbe_tame {p size entrySize left i : Nat} (wide : 24 ≤ entrySize)
    (entries : i * entrySize + left * entrySize + 16 ≤ size) (lower : first ≤ p)
    (upper : p + size ≤ last) (small : last < 2 ^ 64) (room : ranges.length ≤ maxRanges) :
    Tame mem first last maxRanges ranges
      (mb2EntriesProbe p size entrySize maxRanges left i ranges) id := by
  induction left generalizing i ranges with
  | zero => exact .done room (.inr rfl)
  | succ left ih =>
      have stride : (left + 1) * entrySize = left * entrySize + entrySize := Nat.succ_mul _ _
      have next : (i + 1) * entrySize = i * entrySize + entrySize := Nat.succ_mul _ _
      simp only [mb2EntriesProbe]
      rw [u64_of_lt (show p + 16 + i * entrySize < 2 ^ 64 by omega),
        u64_of_lt (show p + 16 + i * entrySize + 24 < 2 ^ 64 by omega),
        u64_of_lt (show p + 16 + i * entrySize + 8 < 2 ^ 64 by omega),
        u64_of_lt (show p + 16 + i * entrySize + 16 < 2 ^ 64 by omega),
        u64_of_lt (show p + size < 2 ^ 64 by omega), if_neg (by omega)]
      refine .sum (by omega) (.sum (by omega) (.sum (by omega) (.sum (by omega) ?_)))
      refine .read ⟨by omega, by omega⟩ (.sum (by omega) (.read ⟨by omega, by omega⟩ ?_))
      refine .sum (by omega) (.read ⟨by omega, by omega⟩ ?_)
      split
      · exact ih (by omega) room
      split
      · exact .done room (.inl rfl)
      · refine .write (by omega) (ih (by omega) ?_)
        rw [List.length_append, List.length_singleton]
        omega

/-- The result of a parse, without the other ways it could end. -/
def parsed (run : Outcome (Option (List Mb2Range))) : Option (List Mb2Range) :=
  match run with
  | .done result => result
  | _ => none

/-- Going on after a loop. -/
theorem Tame.bind {β : Type} {then' : α → Probe Mb2Note β} {result' : β → Option (List Mb2Range)}
    (tame : Tame mem first last maxRanges ranges program result)
    (fails : result (program.value mem) = none →
      (then' (program.value mem)).Safe mem (Inside first last) (Mb2Note.Allowed maxRanges) ∧
        result' ((then' (program.value mem)).value mem) = none)
    (succeeds : ∀ found, result (program.value mem) = some found → found.length ≤ maxRanges →
      Tame mem first last maxRanges found (then' (program.value mem)) result') :
    Tame mem first last maxRanges ranges (program.bind then') result' := by
  cases shown : result (program.value mem) with
  | none =>
      obtain ⟨safe, failed⟩ := fails shown
      refine ⟨tame.safe.bind safe, fun found isResult => ?_⟩
      rw [Probe.value_bind, failed] at isResult
      cases isResult
  | some middle =>
      obtain ⟨room, new, shape, slots⟩ := tame.fills middle shown
      have later := succeeds middle shown room
      refine ⟨tame.safe.bind later.safe, fun found isResult => ?_⟩
      rw [Probe.value_bind] at isResult
      obtain ⟨length, more, shape', slots'⟩ := later.fills found isResult
      refine ⟨length, new ++ more, by rw [shape', shape, List.append_assoc], ?_⟩
      rw [Probe.notes_bind, filled, List.filterMap_append, ← filled, ← filled, slots, slots', shape,
        List.length_append, List.zipIdx_append]

/-- The tag after one that lies inside the structure: further on by at least 8, and past
the end by no more than the padding. -/
theorem mb2AlignUp8_next {p size finish : Nat} (sized : 8 ≤ size) (inside : p + size ≤ finish)
    (small : finish + 2 ^ 33 < 2 ^ 64) :
    p + 8 ≤ mb2AlignUp8 (p + size) ∧ mb2AlignUp8 (p + size) ≤ finish + 7 := by
  rw [mb2AlignUp8_eq (by omega)]
  omega

/-- The tag loop. The cursor may step past the end by the padding of the last tag. -/
theorem mb2TagsProbe_tame {p finish budget : Nat} (lower : first ≤ p) (upper : p ≤ finish + 7)
    (small : finish + 2 ^ 33 < 2 ^ 64) (room : ranges.length ≤ maxRanges) :
    Tame mem first finish maxRanges ranges (mb2TagsProbe finish maxRanges budget p ranges)
      parsed := by
  induction budget generalizing p ranges with
  | zero => exact .done room (.inl rfl)
  | succ budget ih =>
      have cursor : u64 (p + 8) = p + 8 := u64_of_lt (by omega)
      have sizeField : u64 (p + 4) = p + 4 := u64_of_lt (by omega)
      simp only [mb2TagsProbe, cursor, sizeField]
      refine .sum (by omega) ?_
      split
      · exact .done room (.inr rfl)
      refine .read ⟨by omega, by omega⟩ (.sum (by omega) (.read ⟨by omega, by omega⟩ ?_))
      have sizeFits : mem.load (p + 4) 4 < 2 ^ 32 := mem.load_lt _ 4
      have tagEnd : u64 (p + mem.load (p + 4) 4) = p + mem.load (p + 4) 4 := u64_of_lt (by omega)
      rw [tagEnd]
      generalize mem.load (p + 4) 4 = size at *
      split
      · exact .done room (.inr rfl)
      refine .sum (by omega) ?_
      split
      · exact .done room (.inl rfl)
      obtain ⟨onward, padded⟩ := mb2AlignUp8_next (show 8 ≤ size by omega)
        (show p + size ≤ finish by omega) small
      split
      · split
        · exact .done room (.inl rfl)
        refine .sum (by omega) (.read ⟨by omega, by omega⟩ ?_)
        split
        · exact .done room (.inl rfl)
        have covered := Nat.div_mul_le_self (size - 16) (mem.load (p + 8) 4)
        refine .bind (mb2EntriesProbe_tame (by omega) (by omega) lower (by omega) (by omega) room)
          ?_ ?_
        · intro failed
          rw [show Probe.value mem _ = none from failed]
          exact ⟨trivial, rfl⟩
        · intro found succeeded room'
          rw [show Probe.value mem _ = some found from succeeded]
          exact .sum (by omega) (ih (by omega) padded room')
      · exact .sum (by omega) (ih (by omega) padded room)

/-- Every tag moves the cursor on by at least 8, so that the loop ends. -/
theorem mb2Tags_ends {p finish budget : Nat} (upper : p ≤ finish + 7)
    (small : finish + 2 ^ 33 < 2 ^ 64) (enough : finish + 8 ≤ p + budget) :
    ∃ result, mb2Tags mem finish maxRanges budget p ranges = .done result := by
  induction budget generalizing p ranges with
  | zero => omega
  | succ budget ih =>
      have cursor : u64 (p + 8) = p + 8 := u64_of_lt (by omega)
      have sizeField : u64 (p + 4) = p + 4 := u64_of_lt (by omega)
      have sizeFits : mem.load (p + 4) 4 < 2 ^ 32 := mem.load_lt _ 4
      have tagEnd : u64 (p + mem.load (p + 4) 4) = p + mem.load (p + 4) 4 := u64_of_lt (by omega)
      simp only [mb2Tags, cursor, sizeField, tagEnd]
      split
      · exact ⟨_, rfl⟩
      split
      · exact ⟨_, rfl⟩
      split
      · exact ⟨_, rfl⟩
      obtain ⟨onward, padded⟩ := mb2AlignUp8_next (show 8 ≤ mem.load (p + 4) 4 by omega)
        (show p + mem.load (p + 4) 4 ≤ finish by omega) small
      split
      · split
        · exact ⟨_, rfl⟩
        split
        · exact ⟨_, rfl⟩
        split
        · exact ⟨_, rfl⟩
        · exact ih padded (by omega)
      · exact ih padded (by omega)

/-- The outcome of `mb2_init` as a result with its ranges. -/
def initParsed (run : Outcome (Nat × Option (List Mb2Range))) : Option (List Mb2Range) :=
  match run with
  | .done (_, result) => result
  | _ => none

theorem initParsed_bind (run : Outcome (Option (List Mb2Range))) (finish : Nat) :
    initParsed (run.bind fun ranges => .done (finish, ranges)) = parsed run := by
  cases run <;> rfl

/-- The whole parser. -/
theorem mb2InitProbe_tame (mem : Memory) {infoAddr : Nat} (maxRanges infoEnd : Nat)
    (low : infoAddr < 2 ^ 63) :
    Tame mem infoAddr (infoAddr + max 4 (mem.load infoAddr 4)) maxRanges []
      (mb2InitProbe infoAddr maxRanges infoEnd) initParsed := by
  have empty : ([] : List Mb2Range).length ≤ maxRanges := Nat.zero_le _
  unfold mb2InitProbe
  split
  · exact .done empty (.inl rfl)
  refine .read ⟨Nat.le_refl _, by omega⟩ ?_
  split
  · exact .done empty (.inl rfl)
  rw [u64_of_lt (show infoAddr + mem.load infoAddr 4 < 2 ^ 64 by omega),
    u64_of_lt (show infoAddr + 8 < 2 ^ 64 by omega)]
  refine .sum (by omega) (.sum (by omega) ?_)
  have tags : Tame mem infoAddr (infoAddr + mem.load infoAddr 4) maxRanges []
      (mb2TagsProbe (infoAddr + mem.load infoAddr 4) maxRanges (2 ^ 64) (infoAddr + 8) []) parsed :=
    mb2TagsProbe_tame (by omega) (by omega) (by omega) empty
  refine .bind (tags.mono (by omega)) ?_ ?_
  · intro failed
    exact ⟨trivial, (initParsed_bind _ _).trans failed⟩
  · intro found succeeded room
    exact .done room (.inr ((initParsed_bind _ _).trans succeeded))

/-- The parser always ends. -/
theorem mb2Init_ends (mem : Memory) {infoAddr : Nat} (maxRanges infoEnd : Nat)
    (low : infoAddr < 2 ^ 63) :
    ∃ finish result, mb2Init mem infoAddr maxRanges infoEnd = .done (finish, result) := by
  unfold mb2Init
  split
  · exact ⟨_, _, rfl⟩
  simp only
  split
  · exact ⟨_, _, rfl⟩
  rw [u64_of_lt (show infoAddr + mem.load infoAddr 4 < 2 ^ 64 by omega),
    u64_of_lt (show infoAddr + 8 < 2 ^ 64 by omega)]
  have tags : ∃ result, mb2Tags mem (infoAddr + mem.load infoAddr 4) maxRanges (2 ^ 64)
      (infoAddr + 8) [] = .done result := mb2Tags_ends (by omega) (by omega) (by omega)
  obtain ⟨result, tags⟩ := tags
  rw [tags]
  exact ⟨_, _, rfl⟩

end Safe

/-- On every memory the parser ends. It reads only from the information structure, writes
only into the array, fills as many slots as it returns, and computes no 64-bit sum that
wraps; the guard against a truncated entry never fires. A memory with the same structure
gives the same. -/
theorem mb2_parser_safe (mem : Memory) (infoAddr maxRanges infoEnd : Nat)
    (low : infoAddr < 2 ^ 63) :
    ∃ finish result,
      mb2Init mem infoAddr maxRanges infoEnd = .done (finish, result) ∧
      (mb2InitProbe infoAddr maxRanges infoEnd).value mem = .done (finish, result) ∧
      (mb2InitProbe infoAddr maxRanges infoEnd).Safe mem
        (Inside infoAddr (infoAddr + max 4 (mem.load infoAddr 4))) (Mb2Note.Allowed maxRanges) ∧
      (∀ found, result = some found → found.length ≤ maxRanges ∧
        filled ((mb2InitProbe infoAddr maxRanges infoEnd).notes mem) = found.zipIdx) ∧
      ∀ mem' : Memory, mem.SameOn mem' infoAddr (max 4 (mem.load infoAddr 4)) →
        mb2Init mem' infoAddr maxRanges infoEnd = .done (finish, result) ∧
        (mb2InitProbe infoAddr maxRanges infoEnd).notes mem' =
          (mb2InitProbe infoAddr maxRanges infoEnd).notes mem := by
  obtain ⟨finish, result, run⟩ := mb2Init_ends mem maxRanges infoEnd low
  have value := mb2InitProbe_value.trans run
  have tame := mb2InitProbe_tame mem maxRanges infoEnd low
  refine ⟨finish, result, run, value, tame.safe, fun found isFound => ?_, fun mem' agree => ?_⟩
  · obtain ⟨length, new, rfl, slots⟩ := tame.fills found (by rw [value]; exact isFound)
    exact ⟨length, slots⟩
  · obtain ⟨sameValue, sameNotes⟩ := tame.safe.congr fun address width inside =>
      Memory.load_congr (agree.mono inside.1 inside.2)
    exact ⟨mb2InitProbe_value.symm.trans (sameValue.trans value), sameNotes⟩

/-- The structure with one usable range is 112 bytes long. -/
theorem mb2_parser_safe_sample :
    (mb2InitProbe 0x9000 mb2MaxRanges 0).Safe sampleInfo (Inside 0x9000 0x9070)
      (Mb2Note.Allowed mb2MaxRanges) := by
  obtain ⟨_, _, _, _, safe, _⟩ := mb2_parser_safe sampleInfo 0x9000 mb2MaxRanges 0 (by decide)
  exact safe

end GodOs
