import GodOs.Keyboard.Handler
import GodOs.Lib.Transition

/-!
# Decoding streams of scancodes

`scancodes_decode` says what the handler types for a whole stream of scancodes. It
forgets the pairs that `0xE0` begins; in what is left a Shift is held when its last
code was the make code, and every other code is looked up in one of the two tables.
-/

namespace GodOs

open Lib

/-- A call of the handler with its scancode and the character it enqueued, if any, or
a call of `kb_get`. -/
inductive KeyEvent where
  | key (sc : UInt8) (typed : Option UInt8)
  | get (value : Int)

/-- The character that a call of the handler enqueued: it advanced the head over it. -/
def kbTyped (kb kb' : Keyboard) : Option UInt8 :=
  if kb'.head = kb.head then none else some (kb'.buf kb.head)

/-- One call. The handler runs while the buffer has room. -/
inductive KeyStep : Keyboard → KeyEvent → Keyboard → Prop where
  | key {kb : Keyboard} (sc : UInt8) (room : (kb.head + 1) % kbBufSize ≠ kb.tail) :
      KeyStep kb (.key sc (kbTyped kb (keyboardHandler kb sc))) (keyboardHandler kb sc)
  | get (kb : Keyboard) : KeyStep kb (.get (kbGet kb).2) (kbGet kb).1

def KeyEvent.code? : KeyEvent → Option UInt8
  | .key sc _ => some sc
  | .get _ => none

def KeyEvent.typed? : KeyEvent → Option UInt8
  | .key _ typed => typed
  | .get _ => none

/-- The scancodes of a run. -/
def codes (events : List KeyEvent) : List UInt8 := events.filterMap KeyEvent.code?

/-- The characters enqueued in a run. -/
def typed (events : List KeyEvent) : List UInt8 := events.filterMap KeyEvent.typed?

theorem codes_snoc (events : List KeyEvent) (event : KeyEvent) :
    codes (events ++ [event]) = codes events ++ event.code?.toList := by
  rw [codes, codes, List.filterMap_append]
  cases event <;> rfl

theorem typed_snoc (events : List KeyEvent) (event : KeyEvent) :
    typed (events ++ [event]) = typed events ++ event.typed?.toList := by
  rw [typed, typed, List.filterMap_append]
  cases shown : event.typed? <;> simp [shown]

/-- A stream without its extended codes: each `0xE0` and the byte after it are removed,
from left to right. -/
def cleanCodes : List UInt8 → List UInt8
  | [] => []
  | [sc] => if sc = 0xE0 then [] else [sc]
  | sc :: next :: rest => if sc = 0xE0 then cleanCodes rest else sc :: cleanCodes (next :: rest)

/-- The stream ends inside a pair. -/
def endsInPair : List UInt8 → Bool
  | [] => false
  | [sc] => sc = 0xE0
  | sc :: next :: rest => if sc = 0xE0 then endsInPair rest else endsInPair (next :: rest)

/-- The last of the two codes of a key is its make code. -/
def held (make release : UInt8) (stream : List UInt8) : Bool :=
  (stream.filter fun sc => sc = make ∨ sc = release).getLast? = some make

/-- Either Shift is held after a stream. -/
def shiftHeld (stream : List UInt8) : Bool := held 0x2A 0xAA stream || held 0x36 0xB6 stream

/-- The character of a code, given the stream before it. -/
def charOf (before : List UInt8) (sc : UInt8) : Option UInt8 :=
  if 0x80 ≤ sc then none
  else
    let c := if shiftHeld before then kbShift sc else kbNormal sc
    if c = 0 then none else some c

/-- The characters of a stream without extended codes, after the stream `before`. -/
def decodeFrom (before : List UInt8) : List UInt8 → List UInt8
  | [] => []
  | sc :: rest => (charOf before sc).toList ++ decodeFrom (before ++ [sc]) rest

section Streams

variable {stream before : List UInt8} {sc make release : UInt8}

/-- The next code after a stream closes a pair, opens one, or stays. -/
theorem cleanCodes_snoc : cleanCodes (stream ++ [sc]) =
      (if endsInPair stream ∨ sc = 0xE0 then cleanCodes stream else cleanCodes stream ++ [sc]) ∧
    endsInPair (stream ++ [sc]) = (!endsInPair stream && decide (sc = 0xE0)) := by
  fun_induction cleanCodes stream with
  | case1 => by_cases opens : sc = 0xE0 <;> simp [cleanCodes, endsInPair, opens]
  | case2 => simp [cleanCodes, endsInPair]
  | case3 first different => by_cases opens : sc = 0xE0 <;> simp [cleanCodes, endsInPair, opens, different]
  | case4 next rest ih =>
      simp only [List.cons_append, cleanCodes, endsInPair, if_true]
      exact ih
  | case5 first next rest different ih =>
      obtain ⟨clean, ends⟩ := ih
      simp only [List.cons_append, cleanCodes, endsInPair, if_neg different] at clean ends ⊢
      refine ⟨?_, ends⟩
      rw [clean]
      split <;> rfl

/-- What is left of a stream has no pairs. -/
theorem cleanCodes_clean (stream : List UInt8) : cleanCodes (cleanCodes stream) = cleanCodes stream := by
  fun_induction cleanCodes stream with
  | case1 => rfl
  | case2 => rfl
  | case3 first different => simp [cleanCodes, different]
  | case4 next rest ih => exact ih
  | case5 first next rest different ih =>
      cases clean : cleanCodes (next :: rest) with
      | nil => simp [cleanCodes, different]
      | cons second others =>
          rw [clean] at ih
          rw [cleanCodes, if_neg different, ih]

theorem held_snoc : held make release (stream ++ [sc]) =
    if sc = make then true else if sc = release then false else held make release stream := by
  unfold held
  rw [List.filter_append]
  by_cases isMake : sc = make
  · simp [isMake]
  · by_cases isRelease : sc = release
    · subst isRelease
      simp [isMake]
    · simp [isMake, isRelease]

theorem decodeFrom_snoc : decodeFrom before (stream ++ [sc]) =
    decodeFrom before stream ++ (charOf (before ++ stream) sc).toList := by
  induction stream generalizing before with
  | nil => simp [decodeFrom]
  | cons first rest ih =>
      rw [List.cons_append, decodeFrom, decodeFrom, ih]
      simp

end Streams

/-- The handler's variables after a stream of scancodes. -/
structure Decoded (stream chars : List UInt8) (kb : Keyboard) : Prop where
  head : kb.head < kbBufSize
  pending : kb.e0Prefix = endsInPair stream
  left : kb.shiftLeft = held 0x2A 0xAA (cleanCodes stream)
  right : kb.shiftRight = held 0x36 0xB6 (cleanCodes stream)
  chars : chars = decodeFrom [] (cleanCodes stream)

section Handler

variable {kb : Keyboard} {stream chars : List UInt8} {sc : UInt8}

/-- The bit tests of the handler, as comparisons of bytes. -/
theorem scancode_bits (sc : UInt8) : (sc &&& 0x7F = 0x2A ↔ sc = 0x2A ∨ sc = 0xAA) ∧
    (sc &&& 0x7F = 0x36 ↔ sc = 0x36 ∨ sc = 0xB6) ∧ (sc &&& 0x80 ≠ 0 ↔ 0x80 ≤ sc) ∧
    (¬ 0x80 ≤ sc → sc &&& 0x7F = sc) := by
  revert sc
  decide +kernel

/-- The make codes of the Shift keys have no character. -/
theorem charOf_shift (before : List UInt8) (isShift : sc = 0x2A ∨ sc = 0xAA ∨ sc = 0x36 ∨ sc = 0xB6) :
    charOf before sc = none := by
  rw [charOf]
  cases shiftHeld before <;> rcases isShift with rfl | rfl | rfl | rfl <;> rfl

/-- Enqueueing with room advances the head over the character. -/
theorem kbTyped_enqueue (room : (kb.head + 1) % kbBufSize ≠ kb.tail) (c : UInt8) :
    kbTyped kb (kbEnqueue kb c) = some c ∧ (kbEnqueue kb c).head < kbBufSize ∧
      (kbEnqueue kb c).e0Prefix = kb.e0Prefix ∧ (kbEnqueue kb c).shiftLeft = kb.shiftLeft ∧
      (kbEnqueue kb c).shiftRight = kb.shiftRight := by
  rw [kbEnqueue, kbWrap, if_neg room, kbTyped]
  simp only [Function.update_self, kbBufSize, and_self, and_true]
  exact ⟨if_neg (by omega), by omega⟩

/-- A byte of a pair changes nothing but the prefix flag. -/
theorem Decoded.paired (decoded : Decoded stream chars kb) {flag : Bool}
    (inPair : endsInPair stream = true ∨ sc = 0xE0) (isFlag : flag = endsInPair (stream ++ [sc])) :
    Decoded (stream ++ [sc]) (chars ++ (kbTyped kb { kb with e0Prefix := flag }).toList)
      { kb with e0Prefix := flag } := by
  have clean := (@cleanCodes_snoc stream sc).1
  rw [if_pos inPair] at clean
  have silent : kbTyped kb { kb with e0Prefix := flag } = none := if_pos rfl
  rw [silent, Option.toList_none, List.append_nil]
  exact ⟨decoded.head, isFlag, clean ▸ decoded.left, clean ▸ decoded.right, clean ▸ decoded.chars⟩

/-- Any other byte is decoded with the stream before it. -/
theorem Decoded.plain (decoded : Decoded stream chars kb) {kb' : Keyboard}
    (closed : endsInPair stream = false) (different : sc ≠ 0xE0) (head : kb'.head < kbBufSize)
    (typed : kbTyped kb kb' = charOf (cleanCodes stream) sc) (pending : kb'.e0Prefix = false)
    (left : kb'.shiftLeft = held 0x2A 0xAA (cleanCodes stream ++ [sc]))
    (right : kb'.shiftRight = held 0x36 0xB6 (cleanCodes stream ++ [sc])) :
    Decoded (stream ++ [sc]) (chars ++ (kbTyped kb kb').toList) kb' := by
  obtain ⟨clean, ends⟩ := @cleanCodes_snoc stream sc
  rw [if_neg (by simp [closed, different])] at clean
  refine ⟨head, ?_, clean ▸ left, clean ▸ right, ?_⟩
  · rw [ends, closed, decide_eq_false different, pending]
    rfl
  · rw [clean, decodeFrom_snoc, List.nil_append, ← decoded.chars, typed]

/-- One call of the handler decodes one more code of the stream. -/
theorem Decoded.key (decoded : Decoded stream chars kb) (sc : UInt8)
    (room : (kb.head + 1) % kbBufSize ≠ kb.tail) :
    Decoded (stream ++ [sc]) (chars ++ (kbTyped kb (keyboardHandler kb sc)).toList)
      (keyboardHandler kb sc) := by
  have ⟨head, pending, left, right, _⟩ := decoded
  have ends := (@cleanCodes_snoc stream sc).2
  rw [keyboardHandler]
  by_cases closes : kb.e0Prefix = true
  · rw [if_pos closes]
    rw [pending] at closes
    exact decoded.paired (.inl closes) (by rw [ends, closes]; rfl)
  rw [if_neg closes]
  rw [Bool.not_eq_true] at closes
  have closed : endsInPair stream = false := pending ▸ closes
  by_cases opens : sc = 0xE0
  · rw [if_pos opens]
    exact decoded.paired (.inr opens) (by rw [ends, closed, opens]; rfl)
  rw [if_neg opens]
  obtain ⟨isLeft, isRight, isRelease, small⟩ := scancode_bits sc
  simp only [isLeft, isRight]
  by_cases leftCode : sc = 0x2A ∨ sc = 0xAA
  · rw [if_pos leftCode]
    refine decoded.plain closed opens head ?_ closes ?_ ?_
    · rw [charOf_shift _ (leftCode.imp_right .inl)]
      exact if_pos rfl
    · rw [held_snoc]
      rcases leftCode with rfl | rfl <;> rfl
    · rw [held_snoc]
      rcases leftCode with rfl | rfl <;> exact right
  rw [if_neg leftCode]
  by_cases rightCode : sc = 0x36 ∨ sc = 0xB6
  · rw [if_pos rightCode]
    refine decoded.plain closed opens head ?_ closes ?_ ?_
    · rw [charOf_shift _ (.inr (.inr rightCode))]
      exact if_pos rfl
    · rw [held_snoc]
      rcases rightCode with rfl | rfl <;> exact left
    · rw [held_snoc]
      rcases rightCode with rfl | rfl <;> rfl
  rw [if_neg rightCode]
  rw [not_or] at leftCode rightCode
  have leftKept : kb.shiftLeft = held 0x2A 0xAA (cleanCodes stream ++ [sc]) := by
    rw [held_snoc, if_neg leftCode.1, if_neg leftCode.2, left]
  have rightKept : kb.shiftRight = held 0x36 0xB6 (cleanCodes stream ++ [sc]) := by
    rw [held_snoc, if_neg rightCode.1, if_neg rightCode.2, right]
  have shift : (kb.shiftLeft || kb.shiftRight) = shiftHeld (cleanCodes stream) := by
    rw [left, right, shiftHeld]
  by_cases release : 0x80 ≤ sc
  · rw [if_pos (isRelease.mpr release)]
    exact decoded.plain closed opens head ((if_pos rfl).trans (if_pos release).symm) closes leftKept
      rightKept
  have isChar : charOf (cleanCodes stream) sc =
      if (if shiftHeld (cleanCodes stream) = true then kbShift sc else kbNormal sc) = 0 then none
      else some (if shiftHeld (cleanCodes stream) = true then kbShift sc else kbNormal sc) :=
    if_neg release
  rw [if_neg (mt isRelease.mp release), small release, shift]
  generalize (if shiftHeld (cleanCodes stream) = true then kbShift sc else kbNormal sc) = c at isChar
  by_cases none' : c = 0
  · rw [if_pos none'] at isChar ⊢
    exact decoded.plain closed opens head ((if_pos rfl).trans isChar.symm) closes leftKept rightKept
  · rw [if_neg none'] at isChar ⊢
    obtain ⟨typed, head', samePrefix, sameLeft, sameRight⟩ := kbTyped_enqueue room c
    exact decoded.plain closed opens head' (typed.trans isChar.symm) (samePrefix.trans closes)
      (sameLeft.trans leftKept) (sameRight.trans rightKept)

/-- `kb_get` does not touch the decoder. -/
theorem Decoded.get (decoded : Decoded stream chars kb) : Decoded stream chars (kbGet kb).1 := by
  rw [kbGet]
  split
  · exact decoded
  · exact ⟨decoded.head, decoded.pending, decoded.left, decoded.right, decoded.chars⟩

/-- Every run decodes its stream. -/
theorem Decoded.run {events : List KeyEvent} (run : Steps KeyStep .initial events kb) :
    Decoded (codes events) (typed events) kb := by
  induction run with
  | refl => exact ⟨by decide, rfl, rfl, rfl, rfl⟩
  | snoc _ last ih =>
      rw [codes_snoc, typed_snoc]
      cases last with
      | key sc room => exact ih.key sc room
      | get => simpa [KeyEvent.code?, KeyEvent.typed?] using ih.get

/-- **Streams of scancodes.** A stream types what it types without its extended codes,
and leaves the same Shift state. Of the codes that are left, the last one of a Shift key
says whether it is held, release codes type nothing, and any other code types its entry
in the table for the Shift state at that point, if it has one. -/
theorem scancodes_decode {events : List KeyEvent} (run : Steps KeyStep .initial events kb) :
    (∀ {events' kb'}, Steps KeyStep .initial events' kb' →
      codes events' = cleanCodes (codes events) →
        typed events' = typed events ∧ kb'.shiftLeft = kb.shiftLeft ∧
          kb'.shiftRight = kb.shiftRight) ∧
    kb.shiftLeft = held 0x2A 0xAA (cleanCodes (codes events)) ∧
    kb.shiftRight = held 0x36 0xB6 (cleanCodes (codes events)) ∧
    typed events = decodeFrom [] (cleanCodes (codes events)) := by
  have decoded := Decoded.run run
  refine ⟨fun {events' kb'} run' clean => ?_, decoded.left, decoded.right, decoded.chars⟩
  have decoded' := Decoded.run run'
  have same : cleanCodes (codes events') = cleanCodes (codes events) := by
    rw [clean, cleanCodes_clean]
  refine ⟨?_, ?_, ?_⟩
  · rw [decoded'.chars, decoded.chars, same]
  · rw [decoded'.left, decoded.left, same]
  · rw [decoded'.right, decoded.right, same]

/-- Shift, a fake Shift release inside a pair, and `a`. -/
theorem scancodes_decode_sample : ∃ events kb, Steps KeyStep .initial events kb ∧
    codes events = [0x2A, 0xE0, 0xAA, 0x1E] ∧
    typed events = decodeFrom [] [0x2A, 0x1E] ∧ typed events = [0x41] := by
  have held := Steps.single (@KeyStep.key Keyboard.initial 0x2A (by decide))
  have opened := held.snoc (.key 0xE0 (by decide))
  have closed := opened.snoc (.key 0xAA (by decide))
  have pressed := closed.snoc (.key 0x1E (by decide))
  exact ⟨_, _, pressed, rfl, (scancodes_decode pressed).2.2.2, by rw [(scancodes_decode pressed).2.2.2]; rfl⟩

end Handler

end GodOs
