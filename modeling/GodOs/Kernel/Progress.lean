import GodOs.Kernel.Typing

/-!
# Typed keys are always read

Every step of the keyboard controller, the handler or the main loop takes away some of
the work that is left, whatever the other devices do. `typing_progress` says that the
work ends only with every code read and the processor asleep.
-/

namespace GodOs

open Lib

/-- The steps that are neither a key nor another device. -/
def TypingEvent.work : TypingEvent → Nat
  | .pressed _ | .device => 0
  | _ => 1

/-- How far a running `kb_get` or the loop is from sleep. -/
def TypingPoint.rank : TypingPoint → Nat
  | .get .idle => 8
  | .get (.head _) | .get (.tail _) => 7
  | .get (.both _ _) => 6
  | .get (.index _) => 5
  | .get (.data _) => 4
  | .get (.advance _ _) => 3
  | .get (.written _) => 10
  | .put _ => 9
  | .sti => 2
  | .hlt => 1
  | .asleep => 0

/-- What the code in the output buffer and a running handler are worth. -/
def serviceWork (full : Bool) : ServiceStage → Nat
  | .idle => if full then 40 else 0
  | .entered _ => if full then 20 else 0
  | .handled _ => if full then 41 else 1

/-- The work that is left. -/
def TypingState.workLeft (m : TypingState) : Nat :=
  64 * m.wire.length + serviceWork m.full m.irq.stage + 16 * m.kb.ring.count kbBufSize + m.point.rank

/-- IF stays set once the loop has passed `sti`, which holds interrupts back only up to
`hlt`. -/
structure LoopShape (m : TypingState) : Prop where
  started : m.interruptFlag = false → (∃ getting, m.point = .get getting) ∨ (∃ c, m.point = .put c) ∨
    m.point = .sti
  shadowed : m.shadow = true → m.point = .hlt

section Progress

variable {m m' start : TypingState} {event : TypingEvent} {events : List TypingEvent} {t : Terminal}
  {wire : List UInt8}

theorem afterAccess_shape (getting : Getting) (shown : KbEvent) :
    (∃ getting', afterAccess getting shown = .get getting') ∨
      (∃ c, afterAccess getting shown = .put c) ∨ afterAccess getting shown = .sti := by
  cases shown with
  | returned value =>
      by_cases isChar : 0 ≤ value
      · exact .inr (.inl ⟨_, if_pos isChar⟩)
      · exact .inr (.inr (if_neg isChar))
  | _ => exact .inl ⟨_, rfl⟩

theorem LoopShape.step (shape : LoopShape m) (step : TypingStep m event m') : LoopShape m' := by
  obtain ⟨started, shadowed⟩ := shape
  cases step with
  | press | send | raise | withdraw | handle | unhandled | finish => exact ⟨started, shadowed⟩
  | accept enabled open' =>
      exact ⟨fun disabled => absurd (enabled.symm.trans disabled) (by decide),
        fun held => absurd (open'.symm.trans held) (by decide)⟩
  | @access getting getting' shown =>
      exact ⟨fun _ => afterAccess_shape getting' shown, fun held => absurd held Bool.false_ne_true⟩
  | put => exact ⟨fun _ => .inl ⟨_, rfl⟩, fun held => absurd held Bool.false_ne_true⟩
  | sti => exact ⟨fun disabled => absurd disabled.symm Bool.false_ne_true, fun _ => rfl⟩
  | hlt running here =>
      refine ⟨fun disabled => ?_, fun held => absurd held Bool.false_ne_true⟩
      obtain ⟨_, isGet⟩ | ⟨_, isPut⟩ | isSti := started disabled
      · cases here.symm.trans isGet
      · cases here.symm.trans isPut
      · cases here.symm.trans isSti

theorem LoopShape.run (ready : LoopReady start t) (run : Steps TypingStep start events m) :
    LoopShape m :=
  run.invariant (fun shape step => shape.step step)
    ⟨fun _ => .inl ⟨_, ready.point⟩, fun held => absurd (ready.shadow.symm.trans held) (by decide)⟩

/-- An interrupt puts at most one character into the ring. -/
theorem count_handled {kb : Keyboard} (valid : kb.ring.Valid kbBufSize) (sc : UInt8) :
    (keyboardHandler kb sc).ring.count kbBufSize ≤ kb.ring.count kbBufSize + 1 := by
  rcases keyEvent_cases valid sc with ⟨_, same⟩ | ⟨_, _, _, same⟩ | ⟨c, _, room, pushed⟩
  · rw [same]
    exact Nat.le_succ _
  · rw [same]
    exact Nat.le_succ _
  · have held := congrArg List.length (valid.contents_push room c)
    rw [RingBuffer.contents_length, List.length_append, RingBuffer.contents_length] at held
    rw [pushed, held]
    rfl

/-- Every access of `kb_get` gets it closer to its end or takes a character out of the ring. -/
theorem access_work {kb kb' : Keyboard} {getting getting' : Getting} {shown : KbEvent}
    (valid : kb.ring.Valid kbBufSize) (reading : Reading ⟨kb, getting⟩) (isAccess : shown.IsAccess)
    (step : KbStep ⟨kb, getting⟩ shown ⟨kb', getting'⟩) :
    16 * kb'.ring.count kbBufSize + (afterAccess getting' shown).rank <
      16 * kb.ring.count kbBufSize + (TypingPoint.get getting).rank := by
  cases step with
  | interrupt _ _ sc isEvent => exact absurd (isEvent ▸ isAccess) (keyEvent_not_access kb sc)
  | writeTail _ c t =>
      obtain ⟨isTail, _, nonempty⟩ := reading
      have ring : ({ kb with tail := (t + 1) &&& (kbBufSize - 1) } : Keyboard).ring =
          kb.ring.release kbBufSize := by
        rw [kbWrap, show t = kb.tail from isTail]
        rfl
      have held := congrArg List.length (valid.contents_release nonempty)
      rw [RingBuffer.contents_length, List.length_cons, RingBuffer.contents_length] at held
      rw [ring, held]
      simp only [afterAccess, TypingPoint.rank]
      omega
  | result _ c =>
      have isChar : (0 : Int) ≤ c.toNat := Int.natCast_nonneg _
      simp [afterAccess, TypingPoint.rank]
  | _ => exact Nat.add_lt_add_left (by simp [afterAccess, TypingPoint.rank]) _

theorem rank_wake (point : TypingPoint) : point.wake.rank ≤ point.rank + 8 := by
  cases point <;> simp [TypingPoint.wake, TypingPoint.rank]

/-- Every step but a key or another device takes work away. -/
theorem Typed.work (typed : Typed wire t events m) (step : TypingStep m event m') :
    m'.workLeft + event.work ≤ m.workLeft + 64 * event.pressed?.toList.length := by
  have valid : m.kb.ring.Valid kbBufSize := typed.fifo.valid
  cases step with
  | press =>
      simp [TypingState.workLeft, TypingEvent.work, TypingEvent.pressed?]
      omega
  | send next empty =>
      simp [TypingState.workLeft, TypingEvent.work, TypingEvent.pressed?, next, empty]
      cases m.irq.stage <;> simp [serviceWork] <;> omega
  | raise other step | withdraw other step =>
      have stage : _ = m.irq.stage := step.stage_eq
      simp [TypingState.workLeft, TypingEvent.work, stage]
  | @accept vector taken irq' enabled open' asked step =>
      obtain ⟨idle, entered, _⟩ := typed.control.serviced.accepted step
      have full : m.full = true := by
        have control := (typed.control.step (.accept enabled open' asked step)).1
        exact control.full_of_entered entered
      have awake := rank_wake m.point
      simp only [TypingState.workLeft, TypingEvent.work, idle, entered, serviceWork, full, if_true]
      omega
  | @handle vector irq' r line entered isVector found step =>
      have full := typed.control.full_of_entered entered
      obtain ⟨stage, _⟩ := typed.control.serviced.dispatched step
      have taken := count_handled valid m.data
      simp only [TypingState.workLeft, TypingEvent.work, entered, stage, serviceWork, full, if_true,
        Bool.false_eq_true, if_false]
      omega
  | unhandled entered isVector found =>
      rw [typed.control.found entered isVector] at found
      cases found
  | @finish number irq' step =>
      have idle : irq'.stage = .idle := step.stage_eq
      have handled : m.irq.stage = .handled number := by
        generalize m.irq = irq at step
        cases step
        rfl
      simp only [TypingState.workLeft, TypingEvent.work, idle, handled, serviceWork]
      split <;> omega
  | @access getting getting' shown kb' running here step isAccess =>
      have reading : Reading ⟨m.kb, getting⟩ := by
        have reading := typed.fifo.reading
        rwa [here] at reading
      have less := access_work valid reading isAccess step
      simp only [TypingState.workLeft, TypingEvent.work, here]
      omega
  | put running here =>
      simp [TypingState.workLeft, TypingEvent.work, here, TypingPoint.rank]
  | sti running here =>
      simp [TypingState.workLeft, TypingEvent.work, here, TypingPoint.rank]
  | hlt running here =>
      simp [TypingState.workLeft, TypingEvent.work, here, TypingPoint.rank]

/-- The work of a run and the work that is left are paid by the work at its start and
the keys typed since. -/
theorem typing_work (ready : LoopReady start t) (prior : Steps TypingStep start events m)
    {later : List TypingEvent} (run : Steps TypingStep m later m') :
    m'.workLeft + (later.map TypingEvent.work).sum ≤
      m.workLeft + 64 * (pressedCodes later).length := by
  induction run with
  | refl => simp [pressedCodes]
  | @snoc later middle event _ first last ih =>
      have less := (Typed.run ready (prior.trans first)).work last
      have codes : pressedCodes (later ++ [event]) = pressedCodes later ++ event.pressed?.toList :=
        filterMap_concat _ _ _
      have bound := ih
      rw [codes, List.length_append, List.map_append, List.sum_append, List.map_singleton,
        List.sum_singleton]
      omega

/-- A running `kb_get` can always go on. -/
theorem access_enabled (kb : Keyboard) (getting : Getting) :
    ∃ shown kb' getting', KbStep ⟨kb, getting⟩ shown ⟨kb', getting'⟩ ∧ shown.IsAccess := by
  cases getting with
  | idle => exact ⟨_, _, _, .readHead kb, trivial⟩
  | head h => exact ⟨_, _, _, .thenTail kb h, trivial⟩
  | tail t => exact ⟨_, _, _, .thenHead kb t, trivial⟩
  | both h t =>
      by_cases isEmpty : h = t
      · exact isEmpty ▸ ⟨_, _, _, .empty kb h, trivial⟩
      · exact ⟨_, _, _, .index kb isEmpty, trivial⟩
  | index t => exact ⟨_, _, _, .readBuf kb t, trivial⟩
  | data c => exact ⟨_, _, _, .again kb c, trivial⟩
  | advance c t => exact ⟨_, _, _, .writeTail kb c t, trivial⟩
  | written c => exact ⟨_, _, _, .result kb c, trivial⟩

/-- A handler can always go on. -/
theorem Typed.handler_enabled (typed : Typed wire t events m) (running : m.irq.stage ≠ .idle) :
    ∃ event m', TypingStep m event m' ∧ event.work = 1 := by
  obtain ⟨wire', data, full, ⟨pics, stage⟩, handlers, kb, point, interruptFlag, shadow, vga⟩ := m
  cases stage with
  | idle => exact absurd rfl running
  | entered vector =>
      have found := typed.control.found (r := sampleCpu.regs vector 0) rfl rfl
      exact ⟨_, _, .handle rfl rfl found .dispatch, rfl⟩
  | handled number => exact ⟨_, _, .finish .finish, rfl⟩

/-- The loop can always go on unless it sleeps. -/
theorem Typed.loop_enabled (typed : Typed wire t events m) (idle : m.irq.stage = .idle)
    (awake : m.point ≠ .asleep) : ∃ event m', TypingStep m event m' ∧ event.work = 1 := by
  cases point : m.point with
  | get getting =>
      obtain ⟨shown, kb', getting', step, isAccess⟩ := access_enabled m.kb getting
      exact ⟨_, _, .access idle point step isAccess, rfl⟩
  | put c =>
      obtain ⟨vga', shown, _⟩ := typed.screen.putchar c
      exact ⟨_, _, .put idle point shown, rfl⟩
  | sti => exact ⟨_, _, .sti idle point, rfl⟩
  | hlt => exact ⟨_, _, .hlt idle point, rfl⟩
  | asleep => exact absurd point awake

/-- A sleeping processor takes the interrupt of a full buffer. -/
theorem Typed.accept_enabled (typed : Typed wire t events m) (shape : LoopShape m)
    (idle : m.irq.stage = .idle) (asleep : m.point = .asleep) (full : m.full = true) :
    ∃ event m', TypingStep m event m' ∧ event.work = 1 := by
  have enabled : m.interruptFlag = true := by
    by_contra disabled
    rw [Bool.not_eq_true] at disabled
    obtain ⟨_, isGet⟩ | ⟨_, isPut⟩ | isSti := shape.started disabled
    · cases asleep.symm.trans isGet
    · cases asleep.symm.trans isPut
    · cases asleep.symm.trans isSti
  have open' : m.shadow = false := by
    by_contra held
    rw [Bool.not_eq_false] at held
    cases asleep.symm.trans (shape.shadowed held)
  have asked := typed.control.offered full idle
  obtain ⟨wire', data, full', ⟨pics, stage⟩, handlers, kb, point, interruptFlag, shadow, vga⟩ := m
  cases idle
  obtain ⟨_, silent, _⟩ | ⟨line, _, _, _, given⟩ | ⟨inner, _, _, _, given⟩ :=
    Pics.inta_cases typed.control.serviced.ready
  · exact absurd ‹_› asked
  · exact ⟨_, _, .accept enabled open' asked (.accept given), rfl⟩
  · exact ⟨_, _, .accept enabled open' asked (.accept given), rfl⟩

/-- **Typed keys are always read.** From every state that a run reaches, if the main loop
started with an empty output buffer (`stale_code_silences`), the steps of the kernel and
the keyboard controller are bounded by the work left there and the keys still to come, in
whatever order they and the other devices act. One of them is possible until every code
was read, no handler runs and the processor sleeps. -/
theorem typing_progress (ready : LoopReady start t) (prior : Steps TypingStep start events m) :
    (∀ {later m'}, Steps TypingStep m later m' →
      (later.map TypingEvent.work).sum ≤ m.workLeft + 64 * (pressedCodes later).length) ∧
    ((∀ event m', TypingStep m event m' → event.work = 0) →
      m.wire = [] ∧ m.full = false ∧ m.irq.stage = .idle ∧ m.point = .asleep ∧
        start.wire ++ pressedCodes events = handledCodes events) := by
  have typed := Typed.run ready prior
  have shape := LoopShape.run ready prior
  refine ⟨fun run => (Nat.le_add_left _ _).trans (typing_work ready prior run), fun stuck => ?_⟩
  have impossible : ¬ ∃ event m', TypingStep m event m' ∧ event.work = 1 := by
    rintro ⟨event, m', step, work⟩
    exact absurd ((stuck event m' step).symm.trans work) (by decide)
  have idle : m.irq.stage = .idle := by
    by_contra running
    exact impossible (typed.handler_enabled running)
  have asleep : m.point = .asleep := by
    by_contra awake
    exact impossible (typed.loop_enabled idle awake)
  have empty : m.full = false := by
    by_contra full
    rw [Bool.not_eq_false] at full
    exact impossible (typed.accept_enabled shape idle asleep full)
  have sent : m.wire = [] := by
    cases wire : m.wire with
    | nil => rfl
    | cons sc rest => exact absurd ⟨_, _, .send wire empty, rfl⟩ impossible
  refine ⟨sent, empty, idle, asleep, ?_⟩
  rw [typed.bytes, TypingState.buffered, empty, sent]
  simp

/-- A code was in the output buffer before the chips were initialised: its request is gone,
and nothing reads it. -/
structure Stale (start : TypingState) (events : List TypingEvent) (m : TypingState) : Prop where
  serviced : Serviced m.irq
  opened : ∀ irq, m.irq.pics.masked irq = decide (irq ≠ 1)
  unlatched : ¬ m.irq.pics.Latched 1
  idle : m.irq.stage = .idle
  full : m.full = true
  data : m.data = start.data
  wire : m.wire = start.wire ++ pressedCodes events
  unread : handledCodes events = []

theorem Stale.step (stale : Stale start events m) (step : TypingStep m event m') :
    Stale start (events ++ [event]) m' := by
  have ⟨serviced, opened, unlatched, idle, full, data, wire, unread⟩ := stale
  have typed : pressedCodes (events ++ [event]) = pressedCodes events ++ event.pressed?.toList :=
    filterMap_concat _ _ _
  have codes : handledCodes (events ++ [event]) = handledCodes events ++ event.handled?.toList :=
    filterMap_concat _ _ _
  -- a step that neither types nor reads a code leaves the logs alone
  have quiet (silent : event.pressed? = none ∧ event.handled? = none) :
      pressedCodes (events ++ [event]) = pressedCodes events ∧ handledCodes (events ++ [event]) = [] := by
    rw [typed, codes, silent.1, silent.2, unread]
    exact ⟨List.append_nil _, rfl⟩
  cases step with
  | press sc =>
      refine ⟨serviced, opened, unlatched, idle, full, data, ?_, ?_⟩
      · rw [typed, ← List.append_assoc, ← wire]
        rfl
      · rw [codes, unread]
        rfl
  | send next empty => exact absurd (full.symm.trans empty) (by decide)
  | @raise irq irq' other step | @withdraw irq irq' other step =>
      obtain ⟨typed, codes⟩ := quiet ⟨rfl, rfl⟩
      refine ⟨(serviced.step step).1, ?_, ?_, step.stage_eq.trans idle, full, data,
        typed.symm ▸ wire, codes⟩
      · rw [step.masked (by simp)]
        exact opened
      · have count := (serviced.step step).2 1 (by decide)
        simp only [IrqSystem.pending, if_neg unlatched, show irq'.stage = _ from step.stage_eq,
          IrqEvent.came, IrqEvent.went, if_neg other] at count
        intro latched
        rw [if_pos latched] at count
        omega
  | accept enabled open' asked step =>
      obtain ⟨_, _, ⟨silent, _⟩ | ⟨line, _, _, taken⟩⟩ := serviced.accepted step
      · exact absurd silent asked
      · have unmasked := taken.opened.1
        rw [opened] at unmasked
        obtain rfl : line = 1 := by simpa using unmasked
        exact absurd taken.latched unlatched
  | handle entered | unhandled entered => cases entered.symm.trans idle
  | finish step =>
      have running := idle
      generalize m.irq = irq at step running
      cases step
      cases running
  | access | put | sti | hlt =>
      obtain ⟨typed, codes⟩ := quiet ⟨rfl, rfl⟩
      exact ⟨serviced, opened, unlatched, idle, full, data, typed.symm ▸ wire, codes⟩

/-- **A code left over from before `pic_init` silences the keyboard.** `pic_init` forgets
the request of a code that is already in the output buffer, and the kernel reads the
buffer only in the handler. So when the main loop starts with a full buffer, no run ever
reads a code, however many keys are typed. -/
theorem stale_code_silences {pics : Pics} (irq : start.irq = ⟨picUnmask (picInit pics) 1, .idle⟩)
    (full : start.full = true) (run : Steps TypingStep start events m) :
    handledCodes events = [] ∧ m.full = true ∧ m.data = start.data ∧
      m.wire = start.wire ++ pressedCodes events := by
  have stale : Stale start events m := by
    induction run with
    | refl =>
        obtain ⟨serviced, opened, unlatched⟩ := keyboardOpen pics
        exact ⟨irq ▸ serviced, irq ▸ opened, irq ▸ unlatched, by rw [irq], full, rfl,
          (List.append_nil _).symm, rfl⟩
    | snoc _ last ih => exact ih.step last
  exact ⟨stale.unread, stale.full, stale.data, stale.wire⟩

end Progress

section Sample

/-- With no request and nothing on the wire, only a key or a device can act. -/
theorem sampleTyping_stuck {vga : Vga} {event : TypingEvent} {m' : TypingState}
    (step : TypingStep (sampleTyping [] false (picSendEoi (sampleServed.setRequest 1 false) 1) .idle
      (kbGet sampleTyped).1 .asleep true vga) event m') : event.work = 0 := by
  cases step with
  | press | raise | withdraw => rfl
  | accept _ _ asked => exact absurd rfl asked
  | finish step => cases step
  | send next | handle next | unhandled next | access _ next | put _ next | sti _ next | hlt _ next =>
      cases next

/-- A key is typed before the first sleep. The steps after it are within what is left
there, and when none is possible any more its code was read. -/
theorem typing_progress_sample : ∃ start t prior m later m', LoopReady start t ∧
    Steps TypingStep start prior m ∧ Steps TypingStep m later m' ∧ pressedCodes prior = [0x1E] ∧
    (later.map TypingEvent.work).sum = 16 ∧ (later.map TypingEvent.work).sum ≤ m.workLeft ∧
    m'.point = .asleep ∧ [0x1E] = handledCodes (prior ++ later) := by
  obtain ⟨vga, _, settled⟩ := vgaClear_settled ⟨fun _ => 0, 0, 0, 7, 0, fun _ => 0⟩
  obtain ⟨vga', shown, _⟩ := settled.putchar 97
  have ready : LoopReady (sampleTyping [] false sampleOpen .idle .initial (.get .idle) false vga) _ :=
    ⟨rfl, ⟨samplePics, rfl⟩, rfl, rfl, rfl, rfl, rfl, settled⟩
  have prior := sampleTyping_slept vga
  have later := ((sampleTyping_handled vga).trans (sampleTyping_shown shown)).trans
    (sampleTyping_again _ vga')
  obtain ⟨_, _, _, asleep, codes⟩ :=
    (typing_progress ready (prior.trans later)).2 fun _ _ => sampleTyping_stuck
  exact ⟨_, _, _, _, _, _, ready, prior, later, rfl, rfl, (typing_progress ready prior).1 later, asleep,
    codes⟩

/-- A code from before is in the buffer: two keys are typed, and the loop sleeps for good. -/
theorem stale_code_silences_sample : ∃ start events m, start.full = true ∧
    Steps TypingStep start events m ∧ pressedCodes events = [0x1E, 0x9E] ∧ m.point = .asleep ∧
    handledCodes events = [] ∧ m.wire = [0x1E, 0x9E] := by
  obtain ⟨vga, _⟩ := vgaClear_settled ⟨fun _ => 0, 0, 0, 7, 0, fun _ => 0⟩
  have compared : Steps TypingStep
      (sampleTyping [] true sampleOpen .idle .initial (.get .idle) false vga)
      [.pressed 0x1E, .access .readHead, .access .readTail] _ :=
    .snoc (.snoc (.single (.press 0x1E)) (.access rfl rfl (.readHead _) trivial))
      (.access rfl rfl (.thenTail _ _) trivial)
  have slept := ((compared.snoc (.access rfl rfl (.empty _ 0) trivial)).snoc (.sti rfl rfl)).snoc
    (.hlt rfl rfl)
  have run := slept.snoc (.press 0x9E)
  obtain ⟨unread, _, _, wire⟩ := @stale_code_silences _ _ _ samplePics rfl rfl run
  exact ⟨_, _, _, rfl, run, rfl, rfl, unread, wire⟩

end Sample

end GodOs
