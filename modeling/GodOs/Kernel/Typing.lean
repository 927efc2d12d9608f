import GodOs.Irq.Dispatch
import GodOs.Keyboard.Decode
import GodOs.Keyboard.Fifo
import GodOs.Vga.Printf
import GodOs.Vga.Terminal

/-!
# From the keyboard to the screen

The whole path of a key: the keyboard and the output buffer of its controller, the line
of IRQ 1, `irq_dispatch` with `keyboard_handler`, the ring, and the main loop with
`vga_putchar`. Devices act at any time, also while a handler runs, and an interrupt comes
between any two instructions of the loop and any two accesses of `kb_get`.
`typing_exact` accounts for every scancode and every character in every run.
-/

namespace GodOs

open Lib

/-- The functions that the kernel registers. -/
inductive Handler where
  | keyboardHandler
deriving DecidableEq

def keyboardInit (handlers : Fin 16 → Option Handler) : Fin 16 → Option Handler :=
  irqRegister handlers 1 (some .keyboardHandler)

/-- The next instruction of the main loop: `kb_get` runs access by access. -/
inductive TypingPoint where
  | get (getting : Getting)
  | put (c : UInt8)
  | sti
  | hlt
  | asleep

/-- What a running `kb_get` has read. -/
def TypingPoint.reads : TypingPoint → Getting
  | .get getting => getting
  | _ => .idle

/-- An interrupt wakes the processor. -/
def TypingPoint.wake : TypingPoint → TypingPoint
  | .asleep => .get .idle
  | point => point

/-- The character that `kb_get` has returned and the loop has not yet shown. -/
def TypingPoint.inHand : TypingPoint → List UInt8
  | .get getting => getting.unreturned
  | .put c => [c]
  | _ => []

/-- The codes that the keyboard still has to send, the output buffer of its controller,
the interrupt controllers and the handler that runs, the dispatch table, the driver, the
main loop with its IF and the hold of `sti`, and the screen. -/
structure TypingState where
  wire : List UInt8
  data : UInt8
  full : Bool
  irq : IrqSystem
  handlers : Fin 16 → Option Handler
  kb : Keyboard
  point : TypingPoint
  interruptFlag : Bool
  shadow : Bool
  vga : Vga

inductive TypingEvent where
  | pressed (sc : UInt8)
  | sent
  | device
  | accepted (vector : Nat)
  | handled (sc : UInt8) (shown : KbEvent)
  | unhandled (irq : Fin 16)
  | finished
  | access (shown : KbEvent)
  | put (c : UInt8)
  | sti
  | hlt

/-- The events of `kb_get` among those of the driver. -/
def KbEvent.IsAccess : KbEvent → Prop
  | .readHead | .readTail | .readBuf | .writeTail _ | .returned _ => True
  | .silent | .enqueued _ | .dropped _ => False

/-- Where the loop goes on after an access of `kb_get`. -/
def afterAccess (getting : Getting) : KbEvent → TypingPoint
  | .returned value => if 0 ≤ value then .put (UInt8.ofNat value.toNat) else .sti
  | _ => .get getting

/-- One step of a device, a handler or the main loop. The keyboard sends its next code
when the output buffer is empty, which raises IRQ 1; reading the buffer empties it and
takes the line down. The gate clears IF and `iretq` restores it, so nothing but the
devices acts while a handler runs. -/
inductive TypingStep : TypingState → TypingEvent → TypingState → Prop where
  | press {m : TypingState} (sc : UInt8) :
      TypingStep m (.pressed sc) { m with wire := m.wire ++ [sc] }
  | send {m : TypingState} {sc : UInt8} {rest : List UInt8} (next : m.wire = sc :: rest)
      (empty : m.full = false) :
      TypingStep m .sent
        { m with
          wire := rest, data := sc, full := true
          irq := { m.irq with pics := m.irq.pics.setRequest 1 true } }
  | raise {m : TypingState} {irq : Fin 16} {irq' : IrqSystem} (other : irq ≠ 1)
      (step : IrqStep m.irq (.raised irq) irq') : TypingStep m .device { m with irq := irq' }
  | withdraw {m : TypingState} {irq : Fin 16} {irq' : IrqSystem} (other : irq ≠ 1)
      (step : IrqStep m.irq (.withdrawn irq) irq') : TypingStep m .device { m with irq := irq' }
  | accept {m : TypingState} {vector : Nat} {taken : Option (Fin 16)} {irq' : IrqSystem}
      (enabled : m.interruptFlag = true) (open' : m.shadow = false)
      (asked : m.irq.pics.intr? ≠ none) (step : IrqStep m.irq (.accepted vector taken) irq') :
      TypingStep m (.accepted vector) { m with irq := irq', point := m.point.wake }
  | handle {m : TypingState} {vector : Nat} {irq' : IrqSystem} {r : Regs} {line : Fin 16}
      (entered : m.irq.stage = .entered vector) (isVector : r.vector = BitVec.ofNat 64 vector)
      (found : irqDispatch m.handlers r = .handler line .keyboardHandler)
      (step : IrqStep m.irq (.dispatched (irqNumber vector)) irq') :
      TypingStep m (.handled m.data (keyEvent m.kb m.data))
        { m with
          full := false, kb := keyboardHandler m.kb m.data
          irq := { irq' with pics := irq'.pics.setRequest 1 false } }
  | unhandled {m : TypingState} {vector : Nat} {irq' : IrqSystem} {r : Regs} {line : Fin 16}
      {mem : Memory} {args : Nat → UInt64} {sent : List UInt8} {taken : Nat} {vga' : Vga}
      (entered : m.irq.stage = .entered vector) (isVector : r.vector = BitVec.ofNat 64 vector)
      (found : irqDispatch m.handlers r = .unhandled line) (number : args 0 = UInt64.ofNat line)
      (printed : vgaPrintf mem ("unhandled IRQ %lu\n".toList.map ascii) args = .done (sent, taken))
      (shown : vgaRun m.vga (sent.map .putchar) = some vga')
      (step : IrqStep m.irq (.dispatched (irqNumber vector)) irq') :
      TypingStep m (.unhandled line) { m with irq := irq', vga := vga' }
  | finish {m : TypingState} {number : Nat} {irq' : IrqSystem}
      (step : IrqStep m.irq (.finished number) irq') : TypingStep m .finished { m with irq := irq' }
  | access {m : TypingState} {getting getting' : Getting} {event : KbEvent} {kb' : Keyboard}
      (running : m.irq.stage = .idle) (here : m.point = .get getting)
      (step : KbStep ⟨m.kb, getting⟩ event ⟨kb', getting'⟩) (isAccess : event.IsAccess) :
      TypingStep m (.access event)
        { m with kb := kb', point := afterAccess getting' event, shadow := false }
  | put {m : TypingState} {c : UInt8} {vga' : Vga} (running : m.irq.stage = .idle)
      (here : m.point = .put c) (shown : vgaPutchar m.vga c = some vga') :
      TypingStep m (.put c) { m with point := .get .idle, vga := vga', shadow := false }
  | sti {m : TypingState} (running : m.irq.stage = .idle) (here : m.point = .sti) :
      TypingStep m .sti { m with point := .hlt, interruptFlag := true, shadow := !m.interruptFlag }
  | hlt {m : TypingState} (running : m.irq.stage = .idle) (here : m.point = .hlt) :
      TypingStep m .hlt { m with point := .asleep, shadow := false }

def TypingEvent.pressed? : TypingEvent → Option UInt8
  | .pressed sc => some sc
  | _ => none

def TypingEvent.handled? : TypingEvent → Option UInt8
  | .handled sc _ => some sc
  | _ => none

/-- The event of the driver in a step. -/
def TypingEvent.kb? : TypingEvent → Option KbEvent
  | .handled _ shown => some shown
  | .access shown => some shown
  | _ => none

def TypingEvent.put? : TypingEvent → Option UInt8
  | .put c => some c
  | _ => none

/-- The character of a code, whether the ring took it or not. -/
def KbEvent.translated? : KbEvent → Option UInt8
  | .enqueued c => some c
  | .dropped c => some c
  | _ => none

section Log

variable (events : List TypingEvent)

/-- The codes that were typed. -/
def pressedCodes : List UInt8 := events.filterMap TypingEvent.pressed?

/-- The codes that the handler read. -/
def handledCodes : List UInt8 := events.filterMap TypingEvent.handled?

def kbEvents : List KbEvent := events.filterMap TypingEvent.kb?

/-- The characters of the codes that the handler read. -/
def translatedChars : List UInt8 := (kbEvents events).filterMap KbEvent.translated?

/-- The characters that were sent to the screen. -/
def shownChars : List UInt8 := events.filterMap TypingEvent.put?

end Log

/-- The code in the output buffer. -/
def TypingState.buffered (m : TypingState) : List UInt8 := if m.full then [m.data] else []

/-- The state in which `kmain` reaches its main loop: the chips are initialised with only
the line of the keyboard open, the handler is registered, the output buffer is empty, and
IF is clear. -/
structure LoopReady (m : TypingState) (t : Terminal) : Prop where
  empty : m.full = false
  irq : ∃ pics, m.irq = ⟨picUnmask (picInit pics) 1, .idle⟩
  handlers : m.handlers = keyboardInit fun _ => none
  kb : m.kb = .initial
  point : m.point = .get .idle
  interruptFlag : m.interruptFlag = false
  shadow : m.shadow = false
  screen : Settled m.vga t

/-- Only the interrupt of the keyboard is served. -/
def ServesKeyboard : ServiceStage → Prop
  | .idle => True
  | .entered vector => vector = idtIrqBase + (1 : Fin 16)
  | .handled number => number = (1 : Fin 16)

/-- The invariant of the interrupt side: the output buffer is full exactly while its
interrupt is on the way to the handler. -/
structure TypingControl (m : TypingState) : Prop where
  serviced : Serviced m.irq
  opened : ∀ irq, m.irq.pics.masked irq = decide (irq ≠ 1)
  request : m.irq.pending 1 = if m.full then 1 else 0
  keyboard : ServesKeyboard m.irq.stage
  handlers : m.handlers = keyboardInit fun _ => none

section Control

variable {m m' : TypingState} {event : TypingEvent} {t : Terminal}

/-- Taking down a line without a request changes nothing. -/
theorem setRequest_quiet {pics : Pics} {irq : Fin 16} (quiet : ¬ pics.Latched irq) :
    pics.setRequest irq false = pics := by
  simp only [Pics.Latched, Pics.chip, lineOf] at quiet
  simp only [Pics.setRequest, Bool.false_eq_true, if_false]
  by_cases first : irq < 8
  · rw [if_pos first] at quiet
    rw [if_pos first, Finset.erase_eq_of_notMem quiet]
  · rw [if_neg first] at quiet
    rw [if_neg first, Finset.erase_eq_of_notMem quiet]

/-- What `kmain` makes of the chips: nothing is on its way, and one line is open. -/
theorem keyboardOpen (pics : Pics) : Serviced ⟨picUnmask (picInit pics) 1, .idle⟩ ∧
    (∀ irq, (picUnmask (picInit pics) 1).masked irq = decide (irq ≠ 1)) ∧
    ¬ (picUnmask (picInit pics) 1).Latched 1 := by
  have call : IrqStep ⟨picInit pics, .idle⟩ (.called (.unmask 1)) ⟨picUnmask (picInit pics) 1, .idle⟩ :=
    .call (.unmask 1)
  obtain ⟨serviced, count⟩ := Serviced.run (.single call)
  refine ⟨serviced, ?_, fun latched => ?_⟩
  · have masks := (picInit_masks pics).call (.unmask 1)
    intro irq
    refine (masks.bits irq).trans ?_
    revert irq
    decide
  · have none' := count 1 (by decide)
    simp [IrqSystem.pending, latched, IrqEvent.came, IrqEvent.went] at none'
    omega

/-- The loop starts with the invariant. -/
theorem LoopReady.control (ready : LoopReady m t) : TypingControl m := by
  obtain ⟨pics, isIrq⟩ := ready.irq
  obtain ⟨serviced, opened, unlatched⟩ := keyboardOpen pics
  refine ⟨isIrq ▸ serviced, isIrq ▸ opened, ?_, ?_, ready.handlers⟩
  · rw [isIrq, ready.empty, IrqSystem.pending, if_neg unlatched]
    rfl
  · rw [isIrq]
    trivial

/-- A served interrupt is in the table. -/
theorem TypingControl.found (control : TypingControl m) {vector : Nat} {r : Regs}
    (entered : m.irq.stage = .entered vector) (isVector : r.vector = BitVec.ofNat 64 vector) :
    irqDispatch m.handlers r = .handler 1 .keyboardHandler := by
  have keyboard := control.keyboard
  rw [entered] at keyboard
  obtain rfl : vector = idtIrqBase + (1 : Fin 16) := keyboard
  rw [irqDispatch_line 1 isVector, control.handlers]
  rfl

/-- The handler reads a full buffer. -/
theorem TypingControl.full_of_entered (control : TypingControl m) {vector : Nat}
    (entered : m.irq.stage = .entered vector) : m.full = true := by
  have keyboard := control.keyboard
  have request := control.request
  rw [entered] at keyboard
  obtain rfl : vector = idtIrqBase + (1 : Fin 16) := keyboard
  simp only [IrqSystem.pending, entered, ServiceStage.due, if_true] at request
  by_contra empty
  rw [if_neg empty] at request
  omega

/-- Every step keeps the invariant, and no interrupt is unhandled. -/
theorem TypingControl.step (control : TypingControl m) (step : TypingStep m event m') :
    TypingControl m' ∧ ∀ irq, event ≠ .unhandled irq := by
  have ⟨serviced, opened, request, keyboard, handlers⟩ := control
  cases step with
  | press => exact ⟨⟨serviced, opened, request, keyboard, handlers⟩, by simp⟩
  | send next empty =>
      have quiet : ¬ m.irq.pics.Latched 1 := by
        intro latched
        simp only [IrqSystem.pending, if_pos latched, empty, Bool.false_eq_true, if_false] at request
        omega
      have raise : IrqStep m.irq (.raised 1) _ := .raise (by decide) quiet
      obtain ⟨serviced', count⟩ := serviced.step raise
      refine ⟨⟨serviced', ?_, ?_, keyboard, handlers⟩, by simp⟩
      · rw [raise.masked (by simp)]
        exact opened
      · have one := count 1 (by decide)
        rw [request, empty] at one
        simpa [IrqEvent.came, IrqEvent.went] using one.symm
  | @raise irq irq' other step | @withdraw irq irq' other step =>
      obtain ⟨serviced', count⟩ := serviced.step step
      have one := count 1 (by decide)
      have stage : irq'.stage = m.irq.stage := step.stage_eq
      refine ⟨⟨serviced', ?_, ?_, stage ▸ keyboard, handlers⟩, by simp⟩
      · rw [step.masked (by simp)]
        exact opened
      · simp only [IrqEvent.came, IrqEvent.went, if_neg other, Nat.add_zero] at one
        exact one.symm.trans request
  | accept enabled open' asked step =>
      obtain ⟨serviced', count⟩ := serviced.step step
      obtain ⟨idle, entered, ⟨silent, _⟩ | ⟨line, rfl, isVector, taken⟩⟩ := serviced.accepted step
      · exact absurd silent asked
      obtain rfl : line = 1 := by
        have unmasked := taken.opened.1
        rw [opened] at unmasked
        simpa using unmasked
      refine ⟨⟨serviced', ?_, ?_, ?_, handlers⟩, by simp⟩
      · rw [step.masked (by simp)]
        exact opened
      · exact (count 1 (by decide)).symm.trans request
      · rw [entered, isVector]
        rfl
  | @handle vector irq' r line entered isVector found step =>
      obtain ⟨serviced', count⟩ := serviced.step step
      obtain ⟨stage, irq, device, isNumber, entered'⟩ := serviced.dispatched step
      have full := control.full_of_entered entered
      rw [entered'] at keyboard
      obtain rfl : irq = 1 := Fin.ext (Nat.add_left_cancel keyboard)
      have one := count 1 (by decide)
      rw [request, full, isNumber] at one
      simp only [IrqEvent.came, IrqEvent.went, if_true] at one
      have quiet : ¬ _ := fun latched => by
        rw [IrqSystem.pending, if_pos latched] at one
        omega
      rw [setRequest_quiet quiet]
      refine ⟨⟨serviced', ?_, ?_, ?_, handlers⟩, by simp⟩
      · rw [step.masked (by simp)]
        exact opened
      · rw [if_neg Bool.false_ne_true]
        change irq'.pending 1 = 0
        omega
      · rw [stage]
        exact isNumber
  | unhandled entered isVector found number printed shown step =>
      rw [control.found entered isVector] at found
      cases found
  | finish step =>
      obtain ⟨serviced', count⟩ := serviced.step step
      refine ⟨⟨serviced', ?_, ?_, ?_, handlers⟩, by simp⟩
      · rw [step.masked (by simp)]
        exact opened
      · exact (count 1 (by decide)).symm.trans request
      · rw [show _ = _ from step.stage_eq]
        trivial
  | access | put | sti | hlt =>
      exact ⟨⟨serviced, opened, request, keyboard, handlers⟩, by simp⟩

end Control

/-- The character that `kb_get` has returned and the loop is about to send. -/
def TypingPoint.due : TypingPoint → List UInt8
  | .put c => [c]
  | _ => []

section Flow

variable {m m' : TypingState} {event : TypingEvent} {events : List TypingEvent} {t : Terminal}
  {wire stream chars : List UInt8} {kb : Keyboard}

/-- A log grows by what the last event adds to it. -/
theorem filterMap_concat {α β : Type} (f : α → Option β) (items : List α) (item : α) :
    (items ++ [item]).filterMap f = items.filterMap f ++ (f item).toList := by
  rw [List.filterMap_append]
  cases shown : f item <;> simp [shown]

/-- What an interrupt shows of its code is its translation. -/
theorem keyEvent_translated (kb : Keyboard) (sc : UInt8) :
    (keyEvent kb sc).translated? = kbTranslate kb sc := by
  unfold keyEvent
  cases kbTranslate kb sc with
  | none => rfl
  | some c =>
      simp only
      split <;> rfl

theorem keyEvent_not_access (kb : Keyboard) (sc : UInt8) : ¬ (keyEvent kb sc).IsAccess := by
  unfold keyEvent
  cases kbTranslate kb sc with
  | none => exact id
  | some c =>
      simp only
      split <;> exact id

theorem keyEvent_returned (kb : Keyboard) (sc : UInt8) : (keyEvent kb sc).returned? = none := by
  unfold keyEvent
  cases kbTranslate kb sc with
  | none => rfl
  | some c =>
      simp only
      split <;> rfl

/-- The variables of the decoder after a code do not depend on the ring. -/
theorem keyboardHandler_decoder (kb : Keyboard) (tail : Nat) (sc : UInt8) :
    (keyboardHandler { kb with tail := tail } sc).e0Prefix = (keyboardHandler kb sc).e0Prefix ∧
    (keyboardHandler { kb with tail := tail } sc).shiftLeft = (keyboardHandler kb sc).shiftLeft ∧
    (keyboardHandler { kb with tail := tail } sc).shiftRight = (keyboardHandler kb sc).shiftRight := by
  have enqueued (kb : Keyboard) (c : UInt8) : (kbEnqueue kb c).e0Prefix = kb.e0Prefix ∧
      (kbEnqueue kb c).shiftLeft = kb.shiftLeft ∧ (kbEnqueue kb c).shiftRight = kb.shiftRight := by
    unfold kbEnqueue
    simp only
    split <;> exact ⟨rfl, rfl, rfl⟩
  unfold keyboardHandler
  simp only
  split_ifs <;> simp only [enqueued, and_self]

/-- One call of the handler decodes one more code, with or without room in the ring. -/
theorem Decoded.handled (decoded : Decoded stream chars kb) (valid : kb.ring.Valid kbBufSize)
    (sc : UInt8) : Decoded (stream ++ [sc]) (chars ++ (kbTranslate kb sc).toList)
      (keyboardHandler kb sc) := by
  -- the same decoder in front of an empty ring
  have drained : Decoded stream chars { kb with tail := kb.head } :=
    ⟨decoded.head, decoded.pending, decoded.left, decoded.right, decoded.chars⟩
  have room : (kb.head + 1) % kbBufSize ≠ kb.head := by
    have head := decoded.head
    simp only [kbBufSize] at head ⊢
    omega
  have next := drained.key sc room
  obtain ⟨samePrefix, sameLeft, sameRight⟩ := keyboardHandler_decoder kb kb.head sc
  have typed : kbTyped { kb with tail := kb.head } (keyboardHandler { kb with tail := kb.head } sc) =
      kbTranslate kb sc := by
    have same : kbTranslate { kb with tail := kb.head } sc = kbTranslate kb sc := rfl
    rcases keyboardHandler_cases { kb with tail := kb.head } sc with ⟨silent, ring⟩ |
      ⟨c, translated, enqueue⟩
    · rw [← same, silent]
      exact if_pos (congrArg RingBuffer.head ring)
    · rw [← same, translated, enqueue]
      exact (@kbTyped_enqueue { kb with tail := kb.head } room c).1
  have head : (keyboardHandler kb sc).head < kbBufSize := by
    rcases keyEvent_cases valid sc with ⟨_, ring⟩ | ⟨_, _, _, ring⟩ | ⟨c, _, _, ring⟩
    · rw [show (keyboardHandler kb sc).head = _ from congrArg RingBuffer.head ring]
      exact valid.head
    · rw [show (keyboardHandler kb sc).head = _ from congrArg RingBuffer.head ring]
      exact valid.head
    · rw [show (keyboardHandler kb sc).head = _ from congrArg RingBuffer.head ring]
      exact (valid.push c).head
  rw [typed] at next
  exact ⟨head, samePrefix ▸ next.pending, sameLeft ▸ next.left, sameRight ▸ next.right, next.chars⟩

/-- An access of `kb_get` leaves the decoder alone. -/
theorem Decoded.access {kb' : Keyboard} {getting getting' : Getting} {shown : KbEvent}
    (decoded : Decoded stream chars kb) (isAccess : shown.IsAccess)
    (step : KbStep ⟨kb, getting⟩ shown ⟨kb', getting'⟩) : Decoded stream chars kb' := by
  cases step with
  | interrupt _ _ sc isEvent =>
      exact absurd (isEvent ▸ isAccess) (keyEvent_not_access kb sc)
  | writeTail => exact ⟨decoded.head, decoded.pending, decoded.left, decoded.right, decoded.chars⟩
  | _ => exact decoded

theorem access_translated {shown : KbEvent} (isAccess : shown.IsAccess) : shown.translated? = none := by
  cases shown <;> first | rfl | exact isAccess.elim

/-- Where the loop stands after an access, and what it has to show for it. -/
theorem access_point {kb' : Keyboard} {getting getting' : Getting} {shown : KbEvent}
    (isAccess : shown.IsAccess) (step : KbStep ⟨kb, getting⟩ shown ⟨kb', getting'⟩) :
    (afterAccess getting' shown).reads = getting' ∧
      shown.returned?.toList = (afterAccess getting' shown).due.map charValue := by
  cases step with
  | interrupt _ _ sc isEvent => exact absurd (isEvent ▸ isAccess) (keyEvent_not_access kb sc)
  | result _ c =>
      have isChar : (0 : Int) ≤ c.toNat := Int.natCast_nonneg _
      simp [afterAccess, KbEvent.returned?, TypingPoint.reads, TypingPoint.due, charValue]
  | _ => exact ⟨rfl, rfl⟩

theorem reads_wake (point : TypingPoint) : point.wake.reads = point.reads ∧ point.wake.due = point.due := by
  cases point <;> exact ⟨rfl, rfl⟩

/-- The invariant of the whole path, for what was on the wire at the start and the
terminal that the screen showed. -/
structure Typed (wire : List UInt8) (t : Terminal) (events : List TypingEvent) (m : TypingState) :
    Prop where
  control : TypingControl m
  fifo : Fifo (kbEvents events) ⟨m.kb, m.point.reads⟩
  decoded : Decoded (handledCodes events) (translatedChars events) m.kb
  returned : returned (kbEvents events) = (shownChars events ++ m.point.due).map charValue
  bytes : wire ++ pressedCodes events = handledCodes events ++ m.buffered ++ m.wire
  screen : Settled m.vga (t.run ((shownChars events).map .putchar))

/-- The invariant after one more event, by what the event adds to the logs. -/
theorem Typed.snoc (control : TypingControl m')
    (fifo : Fifo (kbEvents events ++ event.kb?.toList) ⟨m'.kb, m'.point.reads⟩)
    (decoded : Decoded (handledCodes events ++ event.handled?.toList)
      (translatedChars events ++ event.kb?.toList.filterMap KbEvent.translated?) m'.kb)
    (returned : GodOs.returned (kbEvents events ++ event.kb?.toList) =
      (shownChars events ++ event.put?.toList ++ m'.point.due).map charValue)
    (bytes : wire ++ (pressedCodes events ++ event.pressed?.toList) =
      handledCodes events ++ event.handled?.toList ++ m'.buffered ++ m'.wire)
    (screen : Settled m'.vga (t.run ((shownChars events ++ event.put?.toList).map .putchar))) :
    Typed wire t (events ++ [event]) m' := by
  have driver : kbEvents (events ++ [event]) = kbEvents events ++ event.kb?.toList :=
    filterMap_concat _ _ _
  have codes : handledCodes (events ++ [event]) = handledCodes events ++ event.handled?.toList :=
    filterMap_concat _ _ _
  have typed : pressedCodes (events ++ [event]) = pressedCodes events ++ event.pressed?.toList :=
    filterMap_concat _ _ _
  have shown : shownChars (events ++ [event]) = shownChars events ++ event.put?.toList :=
    filterMap_concat _ _ _
  have chars : translatedChars (events ++ [event]) =
      translatedChars events ++ event.kb?.toList.filterMap KbEvent.translated? := by
    rw [translatedChars, driver, List.filterMap_append, translatedChars]
  refine ⟨control, ?_, ?_, ?_, ?_, ?_⟩
  · rwa [driver]
  · rwa [codes, chars]
  · rwa [driver, shown]
  · rwa [typed, codes]
  · rwa [shown]

/-- A step of no part of the driver, the screen or the codes. -/
theorem Typed.quiet (typed : Typed wire t events m) (control : TypingControl m')
    (silent : event.pressed? = none ∧ event.handled? = none ∧ event.kb? = none ∧ event.put? = none)
    (kb : m'.kb = m.kb) (reads : m'.point.reads = m.point.reads) (due : m'.point.due = m.point.due)
    (bytes : m'.buffered ++ m'.wire = m.buffered ++ m.wire) (vga : m'.vga = m.vga) :
    Typed wire t (events ++ [event]) m' := by
  obtain ⟨pressed, handled, driver, put⟩ := silent
  apply Typed.snoc control
  all_goals simp only [pressed, handled, driver, put, Option.toList_none, List.append_nil,
    List.filterMap_nil, kb, reads, due, vga]
  · exact typed.fifo
  · exact typed.decoded
  · exact typed.returned
  · rw [typed.bytes, List.append_assoc, List.append_assoc, bytes]
  · exact typed.screen

/-- Every step keeps the invariant. -/
theorem Typed.step (typed : Typed wire t events m) (step : TypingStep m event m') :
    Typed wire t (events ++ [event]) m' := by
  have control := (typed.control.step step).1
  have ⟨_, fifo, decoded, returned, bytes, screen⟩ := typed
  cases step with
  | press sc =>
      apply Typed.snoc control
      all_goals simp only [TypingEvent.pressed?, TypingEvent.handled?, TypingEvent.kb?,
        TypingEvent.put?, Option.toList_none, Option.toList_some, List.append_nil, List.filterMap_nil]
      · exact fifo
      · exact decoded
      · exact returned
      · rw [← List.append_assoc, bytes, List.append_assoc]
        rfl
      · exact screen
  | send next empty =>
      refine typed.quiet control ⟨rfl, rfl, rfl, rfl⟩ rfl rfl rfl ?_ rfl
      simp [TypingState.buffered, empty, next]
  | raise | withdraw | finish =>
      exact typed.quiet control ⟨rfl, rfl, rfl, rfl⟩ rfl rfl rfl rfl rfl
  | accept =>
      obtain ⟨reads, due⟩ := reads_wake m.point
      exact typed.quiet control ⟨rfl, rfl, rfl, rfl⟩ rfl reads due rfl rfl
  | unhandled entered isVector found =>
      rw [typed.control.found entered isVector] at found
      cases found
  | sti running here | hlt running here =>
      exact typed.quiet control ⟨rfl, rfl, rfl, rfl⟩ rfl (by rw [here]; rfl) (by rw [here]; rfl) rfl rfl
  | handle entered =>
      have full := typed.control.full_of_entered entered
      have translated := keyEvent_translated m.kb m.data
      apply Typed.snoc control
      all_goals simp only [TypingEvent.pressed?, TypingEvent.handled?, TypingEvent.kb?,
        TypingEvent.put?, Option.toList_none, Option.toList_some, List.append_nil]
      · exact fifo.step (.interrupt _ _ m.data rfl)
      · have chars : [keyEvent m.kb m.data].filterMap KbEvent.translated? =
            (kbTranslate m.kb m.data).toList := by
          rw [← translated]
          exact filterMap_concat _ [] _
        rw [chars]
        exact decoded.handled fifo.valid m.data
      · rw [returned_snoc, keyEvent_returned, returned]
        exact List.append_nil _
      · rw [bytes]
        simp [TypingState.buffered, full]
      · exact screen
  | @access getting getting' shown kb' running here step isAccess =>
      obtain ⟨reads, due⟩ := access_point isAccess step
      rw [here] at fifo returned
      apply Typed.snoc control
      all_goals simp only [TypingEvent.pressed?, TypingEvent.handled?, TypingEvent.kb?,
        TypingEvent.put?, Option.toList_none, Option.toList_some, List.append_nil]
      · rw [reads]
        exact fifo.step step
      · have silent : [shown].filterMap KbEvent.translated? = [] := by
          rw [List.filterMap_cons_none (access_translated isAccess), List.filterMap_nil]
        rw [silent, List.append_nil]
        exact decoded.access isAccess step
      · rw [returned_snoc, due, returned, ← List.map_append]
        simp [TypingPoint.due]
      · exact bytes
      · exact screen
  | @put c vga' running here shown =>
      rw [here] at fifo returned
      apply Typed.snoc control
      all_goals simp only [TypingEvent.pressed?, TypingEvent.handled?, TypingEvent.kb?,
        TypingEvent.put?, Option.toList_none, Option.toList_some, List.append_nil, List.filterMap_nil]
      · exact fifo
      · exact decoded
      · rw [returned]
        simp [TypingPoint.due]
      · exact bytes
      · obtain ⟨vga'', result, settled⟩ := screen.putchar c
        obtain rfl := Option.some.inj (shown.symm.trans result)
        rw [List.map_append, Terminal.run, List.foldl_append]
        exact settled

/-- Every run from the start of the loop keeps the invariant. -/
theorem Typed.run {start : TypingState} (ready : LoopReady start t)
    (run : Steps TypingStep start events m) : Typed start.wire t events m := by
  induction run with
  | refl =>
      refine ⟨ready.control, ?_, ?_, ?_, ?_, ready.screen⟩
      · rw [ready.kb, ready.point]
        exact ⟨⟨by decide, by decide⟩, trivial, rfl, rfl⟩
      · rw [ready.kb]
        exact ⟨by decide, rfl, rfl, rfl, rfl⟩
      · rw [ready.point]
        rfl
      · simp [pressedCodes, handledCodes, TypingState.buffered, ready.empty]
  | snoc _ last ih => exact ih.step last

/-- No interrupt of a run is unhandled. -/
theorem Typed.served {start : TypingState} (ready : LoopReady start t)
    (run : Steps TypingStep start events m) (irq : Fin 16) : .unhandled irq ∉ events := by
  induction run with
  | refl => exact List.not_mem_nil
  | snoc prior last ih =>
      rw [List.mem_append, List.mem_singleton, not_or]
      exact ⟨ih, fun same => ((Typed.run ready prior).control.step last).2 irq same.symm⟩

/-- A full output buffer has its interrupt offered unless a handler runs. -/
theorem TypingControl.offered (control : TypingControl m) (full : m.full = true)
    (idle : m.irq.stage = .idle) : m.irq.pics.intr? ≠ none := by
  have service := control.serviced.service
  have request := control.request
  rw [idle] at service
  intro silent
  have quiet := Pics.silent control.serviced.ready service silent 1 (by decide)
  have opened : m.irq.pics.Open 1 := ⟨control.opened 1, fun behind => absurd behind (by decide)⟩
  have unlatched : ¬ m.irq.pics.Latched 1 := fun latched => quiet ⟨latched, opened⟩
  rw [full, if_pos rfl, IrqSystem.pending, if_neg unlatched, idle] at request
  exact absurd request (by decide)

/-- The released characters were shown or are in hand. -/
theorem Typed.released (typed : Typed wire t events m) :
    released (kbEvents events) = shownChars events ++ m.point.inHand := by
  have inHand : m.point.inHand = m.point.due ++ m.point.reads.unreturned := by
    cases m.point <;> rfl
  have injective : Function.Injective charValue := fun c c' same =>
    UInt8.toNat_inj.mp (Int.ofNat.inj same)
  apply List.map_injective_iff.mpr injective
  rw [typed.fifo.delivered, typed.returned, inHand, ← List.map_append, List.append_assoc]

/-- Without a dropped character the ring takes every translated one. -/
theorem enqueued_of_room {shown : List KbEvent} (room : ∀ c, .dropped c ∉ shown) :
    enqueued shown = shown.filterMap KbEvent.translated? := by
  refine List.filterMap_congr fun event member => ?_
  cases event with
  | dropped c => exact absurd member (room c)
  | _ => rfl

/-- **Every key reaches the screen once and in order.** In every run from the start of
the main loop with an empty output buffer, the codes typed are those that the handler
read, then the one in the output buffer, then those on the wire. The characters of the
codes read are their decoding. Those that the ring took, which are all unless one came
while 63 were held, are those shown, then the one in the hands of the loop, then those in
the ring. The screen shows what a terminal shows of the characters sent. No other interrupt
is served, and a code in the output buffer has its interrupt offered whenever no handler
runs. -/
theorem typing_exact {start : TypingState} (ready : LoopReady start t)
    (run : Steps TypingStep start events m) :
    start.wire ++ pressedCodes events = handledCodes events ++ m.buffered ++ m.wire ∧
    translatedChars events = decodeFrom [] (cleanCodes (handledCodes events)) ∧
    enqueued (kbEvents events) =
      shownChars events ++ m.point.inHand ++ m.kb.ring.contents kbBufSize ∧
    ((∀ c, .dropped c ∉ kbEvents events) →
      enqueued (kbEvents events) = translatedChars events) ∧
    (∀ {sc c m'}, TypingStep m (.handled sc (.dropped c)) m' →
      (m.kb.ring.contents kbBufSize).length = 63) ∧
    Settled m.vga (t.run ((shownChars events).map .putchar)) ∧
    (∀ irq, .unhandled irq ∉ events) ∧
    (m.full = true → m.irq.stage = .idle → m.irq.pics.intr? ≠ none) := by
  have typed := Typed.run ready run
  have valid := typed.fifo.valid
  refine ⟨typed.bytes, typed.decoded.chars, ?_, enqueued_of_room, ?_, typed.screen,
    Typed.served ready run, typed.control.offered⟩
  · rw [typed.fifo.conserved, typed.released]
  · intro sc c m' step
    generalize isDropped : KbEvent.dropped c = shown at step
    cases step with
    | handle =>
        rw [RingBuffer.contents_length]
        rcases keyEvent_cases valid m.data with ⟨isEvent, _⟩ | ⟨_, _, full, _⟩ | ⟨_, isEvent, _⟩
        · rw [isEvent] at isDropped
          cases isDropped
        · have counted := valid.full_iff.mp full
          simp only [kbBufSize] at counted ⊢
          omega
        · rw [isEvent] at isDropped
          cases isDropped

end Flow

section Sample

/-- A state of the main loop, with the chips as `kmain` sets them up and then a request
of the keyboard latched, or its interrupt served. -/
def sampleTyping (wire : List UInt8) (full : Bool) (pics : Pics) (stage : ServiceStage) (kb : Keyboard)
    (point : TypingPoint) (interruptFlag : Bool) (vga : Vga) : TypingState :=
  ⟨wire, 0x1E, full, ⟨pics, stage⟩, keyboardInit fun _ => none, kb, point, interruptFlag, false, vga⟩

def sampleOpen : Pics := picUnmask (picInit samplePics) 1

def sampleLatched : Pics := sampleOpen.setRequest 1 true

def sampleServed : Pics := sampleLatched.inta.1

def sampleTyped : Keyboard := keyboardHandler .initial 0x1E

/-- An `a` is typed before the loop sleeps for the first time. -/
theorem sampleTyping_slept (vga : Vga) :
    Steps TypingStep (sampleTyping [] false sampleOpen .idle .initial (.get .idle) false vga)
      [.pressed 0x1E, .sent, .access .readHead, .access .readTail, .access (.returned (-1)), .sti, .hlt]
      (sampleTyping [] true sampleLatched .idle .initial .asleep true vga) := by
  have sent : Steps TypingStep (sampleTyping [] false sampleOpen .idle .initial (.get .idle) false vga)
      [.pressed 0x1E, .sent]
      (sampleTyping [] true sampleLatched .idle .initial (.get .idle) false vga) :=
    .snoc (.single (.press 0x1E)) (.send rfl rfl)
  have compared := (sent.snoc (.access rfl rfl (.readHead _) trivial)).snoc
    (.access rfl rfl (.thenTail _ _) trivial)
  exact ((compared.snoc (.access rfl rfl (.empty _ _) trivial)).snoc (.sti rfl rfl)).snoc (.hlt rfl rfl)

/-- The interrupt wakes the processor, and the handler enqueues the character. -/
theorem sampleTyping_handled (vga : Vga) :
    Steps TypingStep (sampleTyping [] true sampleLatched .idle .initial .asleep true vga)
      [.accepted 33, .handled 0x1E (.enqueued 97), .finished]
      (sampleTyping [] false (picSendEoi (sampleServed.setRequest 1 false) 1) .idle sampleTyped
        (.get .idle) true vga) := by
  have accepted : IrqStep ⟨sampleLatched, .idle⟩ (.accepted 33 sampleLatched.first?)
      ⟨sampleServed, .entered 33⟩ := @IrqStep.accept _ _ 33 rfl
  have entered : Steps TypingStep (sampleTyping [] true sampleLatched .idle .initial .asleep true vga)
      [.accepted 33] (sampleTyping [] true sampleServed (.entered 33) .initial (.get .idle) true vga) :=
    .single (.accept rfl rfl (show sampleLatched.intr? ≠ none by decide) accepted)
  have dispatched : IrqStep ⟨sampleServed, .entered 33⟩ (.dispatched 1) ⟨sampleServed, .handled 1⟩ :=
    @IrqStep.dispatch sampleServed 33
  have handled : TypingStep
      (sampleTyping [] true sampleServed (.entered 33) .initial (.get .idle) true vga)
      (.handled 0x1E (.enqueued 97))
      (sampleTyping [] false (sampleServed.setRequest 1 false) (.handled 1) sampleTyped (.get .idle)
        true vga) := by
    have typed : keyEvent .initial 0x1E = .enqueued 97 := by decide
    rw [← typed]
    exact @TypingStep.handle (sampleTyping [] true sampleServed (.entered 33) .initial (.get .idle) true vga)
      33 ⟨sampleServed, .handled 1⟩ (sampleCpu.regs 33 0) 1 rfl rfl rfl dispatched
  exact (entered.snoc handled).snoc (.finish .finish)

/-- The loop reads the character and shows it. -/
theorem sampleTyping_shown {pics : Pics} {vga vga' : Vga} (shown : vgaPutchar vga 97 = some vga') :
    Steps TypingStep (sampleTyping [] false pics .idle sampleTyped (.get .idle) true vga)
      [.access .readHead, .access .readTail, .access .readTail, .access .readBuf, .access .readTail,
        .access (.writeTail 97), .access (.returned 97), .put 97]
      (sampleTyping [] false pics .idle (kbGet sampleTyped).1 (.get .idle) true vga') := by
  have compared : Steps TypingStep
      (sampleTyping [] false pics .idle sampleTyped (.get .idle) true vga)
      [.access .readHead, .access .readTail]
      (sampleTyping [] false pics .idle sampleTyped (.get (.both 1 0)) true vga) :=
    .snoc (.single (.access rfl rfl (.readHead _) trivial)) (.access rfl rfl (.thenTail _ _) trivial)
  have read := (compared.snoc (.access rfl rfl (.index _ (by decide)) trivial)).snoc
    (.access rfl rfl (.readBuf _ _) trivial)
  have released := (read.snoc (.access rfl rfl (.again _ _) trivial)).snoc
    (.access rfl rfl (.writeTail _ _ _) trivial)
  exact (released.snoc (.access rfl rfl (.result _ _) trivial)).snoc (.put rfl rfl shown)

/-- The loop finds nothing more to read and sleeps again. -/
theorem sampleTyping_again (pics : Pics) (vga : Vga) :
    Steps TypingStep (sampleTyping [] false pics .idle (kbGet sampleTyped).1 (.get .idle) true vga)
      [.access .readHead, .access .readTail, .access (.returned (-1)), .sti, .hlt]
      (sampleTyping [] false pics .idle (kbGet sampleTyped).1 .asleep true vga) := by
  have compared : Steps TypingStep
      (sampleTyping [] false pics .idle (kbGet sampleTyped).1 (.get .idle) true vga)
      [.access .readHead, .access .readTail]
      (sampleTyping [] false pics .idle (kbGet sampleTyped).1 (.get (.both 1 1)) true vga) :=
    .snoc (.single (.access rfl rfl (.readHead _) trivial)) (.access rfl rfl (.thenTail _ _) trivial)
  exact ((compared.snoc (.access rfl rfl (.empty _ _) trivial)).snoc (.sti rfl rfl)).snoc (.hlt rfl rfl)

/-- The typed character is on the screen, and the handler has read its code. -/
theorem typing_exact_sample : ∃ start t events m, LoopReady start t ∧
    Steps TypingStep start events m ∧ shownChars events = [97] ∧
    Settled m.vga (t.run [.putchar 97]) := by
  obtain ⟨vga, _, settled⟩ := vgaClear_settled ⟨fun _ => 0, 0, 0, 7, 0, fun _ => 0⟩
  obtain ⟨vga', shown, _⟩ := settled.putchar 97
  have ready : LoopReady (sampleTyping [] false sampleOpen .idle .initial (.get .idle) false vga) _ :=
    ⟨rfl, ⟨samplePics, rfl⟩, rfl, rfl, rfl, rfl, rfl, settled⟩
  have run := ((sampleTyping_slept vga).trans (sampleTyping_handled vga)).trans (sampleTyping_shown shown)
  exact ⟨_, _, _, _, ready, run, rfl, (typing_exact ready run).2.2.2.2.2.1⟩

end Sample

end GodOs
