import GodOs.Keyboard.Handler
import GodOs.Lib.Transition

/-!
# The main loop of `kmain`

The loop drains the keyboard ring and then sleeps with `sti; hlt`. A keyboard
interrupt may come between any two instructions while IF is set; `sti` holds it
back for one instruction only when IF was clear before. From the second round on
IF is always set, so a key can slip in between the last `kb_get` and `hlt`.
-/

namespace GodOs

open Lib

/-- The next instruction of the loop, or sleep after `hlt`. -/
inductive LoopPoint where
  | get
  | put (c : UInt8)
  | sti
  | hlt
  | asleep
deriving DecidableEq

/-- The keyboard driver, the place in the loop, IF, and whether `sti` still
holds interrupts back. -/
structure LoopState where
  kb : Keyboard
  point : LoopPoint
  interruptFlag : Bool
  shadow : Bool

/-- The instructions of the loop, and the keyboard interrupt with its scancode. -/
inductive LoopEvent where
  | get (value : Int)
  | put (c : UInt8)
  | sti
  | hlt
  | interrupt (sc : UInt8)

/-- Where the loop goes on after `kb_get`. -/
def afterGet (value : Int) : LoopPoint :=
  if 0 ≤ value then .put (UInt8.ofNat value.toNat) else .sti

/-- An interrupt wakes the processor. -/
def LoopPoint.wake : LoopPoint → LoopPoint
  | .asleep => .get
  | point => point

/-- One instruction, or one interrupt: the gate clears IF and `iretq` restores it,
so IF is unchanged by a whole interrupt. -/
inductive LoopStep : LoopState → LoopEvent → LoopState → Prop where
  | get {s : LoopState} (here : s.point = .get) :
      LoopStep s (.get (kbGet s.kb).2)
        { s with kb := (kbGet s.kb).1, point := afterGet (kbGet s.kb).2, shadow := false }
  | put {s : LoopState} {c : UInt8} (here : s.point = .put c) :
      LoopStep s (.put c) { s with point := .get, shadow := false }
  | sti {s : LoopState} (here : s.point = .sti) :
      LoopStep s .sti { s with point := .hlt, interruptFlag := true, shadow := !s.interruptFlag }
  | hlt {s : LoopState} (here : s.point = .hlt) :
      LoopStep s .hlt { s with point := .asleep, shadow := false }
  | interrupt {s : LoopState} (enabled : s.interruptFlag = true) (open' : s.shadow = false)
      (sc : UInt8) :
      LoopStep s (.interrupt sc) { s with kb := keyboardHandler s.kb sc, point := s.point.wake }

/-- The loop starts with IF clear and an empty ring. -/
structure LoopStart (s : LoopState) : Prop where
  point : s.point = .get
  interruptFlag : s.interruptFlag = false
  shadow : s.shadow = false
  empty : s.kb.head = s.kb.tail

/-- The processor sleeps only while the ring is empty. -/
def SleepsEmpty (s : LoopState) : Prop := s.point = .asleep → s.kb.head = s.kb.tail

/-- A key with a character arrives after the `kb_get` that returned `-1` and before `hlt`. -/
def LateKey (s : LoopState) : LoopEvent → Prop
  | .interrupt sc => (s.point = .sti ∨ s.point = .hlt) ∧ kbTranslate s.kb sc ≠ none
  | _ => False

/-- From the last `kb_get` until the processor wakes, the ring is empty. -/
def DrainedLoop (s : LoopState) : Prop :=
  s.point = .sti ∨ s.point = .hlt ∨ s.point = .asleep → s.kb.head = s.kb.tail

section Loop

variable {s s' start : LoopState} {event : LoopEvent} {events : List LoopEvent}

theorem LoopStart.drained (started : LoopStart s) : DrainedLoop s := fun _ => started.empty

/-- A step without a late key keeps the ring drained. -/
theorem DrainedLoop.step (drained : DrainedLoop s) (step : LoopStep s event s')
    (onTime : ¬ LateKey s event) : DrainedLoop s' := by
  intro waiting
  cases step with
  | get here =>
      unfold kbGet at waiting ⊢
      by_cases isEmpty : s.kb.head = s.kb.tail
      · simp [isEmpty]
      · simp [isEmpty, afterGet] at waiting
  | put here => simp at waiting
  | sti here => exact drained (.inl here)
  | hlt here => exact drained (.inr (.inl here))
  | interrupt enabled open' sc =>
      have place : s.point = .sti ∨ s.point = .hlt := by
        cases point : s.point <;> simp_all [LoopPoint.wake]
      have silent : kbTranslate s.kb sc = none := by
        by_contra translated
        exact onTime ⟨place, translated⟩
      rcases keyboardHandler_cases s.kb sc with ⟨_, same⟩ | ⟨c, translated, _⟩
      · simp only [Keyboard.ring, RingBuffer.mk.injEq] at same
        simp only [same.2.1, same.2.2]
        exact drained (place.imp_right .inl)
      · rw [silent] at translated
        cases translated

/-- **The main loop sleeps on an empty ring**, in every run without a late key. -/
theorem main_loop_sleeps_empty (started : LoopStart start)
    (run : Steps (fun s event s' => LoopStep s event s' ∧ ¬ LateKey s event) start events s) :
    SleepsEmpty s := by
  have drained : DrainedLoop s :=
    run.invariant (fun {state _ _} drained step => DrainedLoop.step drained step.1 step.2)
      started.drained
  exact fun asleep => drained (.inr (.inr asleep))

/-- A late key lets the processor sleep on a character. -/
theorem late_key_sleeps (drained : DrainedLoop s) (step : LoopStep s event s')
    (late : LateKey s event) : ∃ later s'', Steps LoopStep s' later s'' ∧ ¬ SleepsEmpty s'' := by
  cases step with
  | interrupt enabled open' sc =>
      obtain ⟨place, translated⟩ := late
      have isEmpty := drained (place.imp_right .inl)
      rcases keyboardHandler_cases s.kb sc with ⟨silent, _⟩ | ⟨c, _, enqueue⟩
      · exact absurd silent translated
      have room : (s.kb.ring.head + 1) % kbBufSize ≠ s.kb.ring.tail := by
        simp only [Keyboard.ring, kbBufSize]
        omega
      have pushed := @kbEnqueue_room s.kb c room
      rw [← enqueue] at pushed
      have held : (keyboardHandler s.kb sc).head ≠ (keyboardHandler s.kb sc).tail := by
        simp only [Keyboard.ring, RingBuffer.push, RingBuffer.mk.injEq] at pushed
        rw [pushed.2.1, pushed.2.2]
        exact room
      rcases place with atSti | atHlt
      · refine ⟨[.sti, .hlt], _, .snoc (.single (.sti ?_)) (.hlt rfl), fun sleeps => held (sleeps rfl)⟩
        simp only [atSti, LoopPoint.wake]
      · refine ⟨[.hlt], _, .single (.hlt ?_), fun sleeps => held (sleeps rfl)⟩
        simp only [atHlt, LoopPoint.wake]
  | _ => exact late.elim

end Loop

section Sample

/-- The state in which the loop starts when nothing was typed yet. -/
def sampleLoop : LoopState := ⟨.initial, .get, false, false⟩

theorem sampleLoop_starts : LoopStart sampleLoop := ⟨rfl, rfl, rfl, rfl⟩

/-- The first round of the loop: nothing to read, so it sleeps. -/
theorem sampleLoop_first :
    Steps LoopStep sampleLoop [.get (-1), .sti, .hlt] ⟨.initial, .asleep, true, false⟩ :=
  .snoc (.snoc (.single (.get rfl)) (.sti rfl)) (.hlt rfl)

/-- A key wakes the processor, is shown, and the loop sleeps again. -/
theorem main_loop_sleeps_empty_sample : ∃ s,
    Steps (fun s event s' => LoopStep s event s' ∧ ¬ LateKey s event) sampleLoop
      [.get (-1), .sti, .hlt, .interrupt 0x1E, .get 97, .put 97, .get (-1), .sti, .hlt] s ∧
      s.point = .asleep ∧ s.kb.head = 1 ∧ SleepsEmpty s := by
  have first : Steps (fun s event s' => LoopStep s event s' ∧ ¬ LateKey s event) sampleLoop
      [.get (-1), .sti, .hlt] ⟨.initial, .asleep, true, false⟩ :=
    .snoc (.snoc (.single ⟨.get rfl, id⟩) ⟨.sti rfl, id⟩) ⟨.hlt rfl, id⟩
  have woken := first.snoc ⟨.interrupt rfl rfl 0x1E, fun late => by simp [LateKey] at late⟩
  have shown := ((woken.snoc ⟨.get rfl, id⟩).snoc ⟨.put rfl, id⟩).snoc ⟨.get rfl, id⟩
  have run := (shown.snoc ⟨.sti rfl, id⟩).snoc ⟨.hlt rfl, id⟩
  exact ⟨_, run, rfl, rfl, main_loop_sleeps_empty sampleLoop_starts run⟩

/-- In the second round a key arrives just before `sti`, and the processor sleeps on it. -/
theorem main_loop_sleeps_on_key : ∃ events s, LoopStart sampleLoop ∧
    Steps LoopStep sampleLoop events s ∧ s.point = .asleep ∧ s.kb.head ≠ s.kb.tail := by
  have woken := sampleLoop_first.snoc (.interrupt rfl rfl 0x1E)
  have read := ((woken.snoc (.get rfl)).snoc (.put rfl)).snoc (.get rfl)
  have late := read.snoc (.interrupt rfl rfl 0x1F)
  exact ⟨_, _, sampleLoop_starts, (late.snoc (.sti rfl)).snoc (.hlt rfl), rfl, by decide⟩

end Sample

end GodOs
