import GodOs.Keyboard.Handler
import GodOs.Lib.Transition

/-!
# The keyboard ring under interrupts

`kb_get` runs one volatile access at a time, and `keyboard_handler` may run as a
whole between any two of them. `keyboard_ring_fifo` says that the ring is a FIFO
that loses characters only when it is full.
-/

namespace GodOs

open Lib

/-- Where a running `kb_get` stands: what it has read so far. The two reads of the
comparison come in either order. -/
inductive Getting where
  | idle
  | head (h : Nat)
  | tail (t : Nat)
  | both (h t : Nat)
  | index (t : Nat)
  | data (c : UInt8)
  | advance (c : UInt8) (t : Nat)
  | written (c : UInt8)

/-- What can be observed in one step. -/
inductive KbEvent where
  | silent
  | enqueued (c : UInt8)
  | dropped (c : UInt8)
  | readHead
  | readTail
  | readBuf
  | writeTail (c : UInt8)
  | returned (value : Int)
deriving DecidableEq

/-- The driver with its one consumer. -/
structure KbSystem where
  kb : Keyboard
  getting : Getting

def KbSystem.initial : KbSystem := ⟨.initial, .idle⟩

/-- What an interrupt does with its scancode: a translated character is enqueued
when the handler advances the head, and dropped otherwise. -/
def keyEvent (kb : Keyboard) (sc : UInt8) : KbEvent :=
  match kbTranslate kb sc with
  | none => .silent
  | some c => if (keyboardHandler kb sc).head = kb.head then .dropped c else .enqueued c

/-- One interrupt, or one access of `kb_get`. -/
inductive KbStep : KbSystem → KbEvent → KbSystem → Prop where
  | interrupt (kb : Keyboard) (getting : Getting) (sc : UInt8) {event : KbEvent}
      (shown : event = keyEvent kb sc) :
      KbStep ⟨kb, getting⟩ event ⟨keyboardHandler kb sc, getting⟩
  | readHead (kb : Keyboard) : KbStep ⟨kb, .idle⟩ .readHead ⟨kb, .head kb.head⟩
  | readTail (kb : Keyboard) : KbStep ⟨kb, .idle⟩ .readTail ⟨kb, .tail kb.tail⟩
  | thenTail (kb : Keyboard) (h : Nat) : KbStep ⟨kb, .head h⟩ .readTail ⟨kb, .both h kb.tail⟩
  | thenHead (kb : Keyboard) (t : Nat) : KbStep ⟨kb, .tail t⟩ .readHead ⟨kb, .both kb.head t⟩
  | empty (kb : Keyboard) (h : Nat) : KbStep ⟨kb, .both h h⟩ (.returned (-1)) ⟨kb, .idle⟩
  | index (kb : Keyboard) {h t : Nat} (different : h ≠ t) :
      KbStep ⟨kb, .both h t⟩ .readTail ⟨kb, .index kb.tail⟩
  | readBuf (kb : Keyboard) (t : Nat) : KbStep ⟨kb, .index t⟩ .readBuf ⟨kb, .data (kb.buf t)⟩
  | again (kb : Keyboard) (c : UInt8) :
      KbStep ⟨kb, .data c⟩ .readTail ⟨kb, .advance c kb.tail⟩
  | writeTail (kb : Keyboard) (c : UInt8) (t : Nat) :
      KbStep ⟨kb, .advance c t⟩ (.writeTail c)
        ⟨{ kb with tail := (t + 1) &&& (kbBufSize - 1) }, .written c⟩
  | result (kb : Keyboard) (c : UInt8) :
      KbStep ⟨kb, .written c⟩ (.returned c.toNat) ⟨kb, .idle⟩

/-- The character that a step puts into the ring. -/
def KbEvent.enqueued? : KbEvent → Option UInt8
  | .enqueued c => some c
  | _ => none

/-- The character whose cell a step releases. -/
def KbEvent.released? : KbEvent → Option UInt8
  | .writeTail c => some c
  | _ => none

/-- The result of `kb_get` in a step, unless it is `-1`. -/
def KbEvent.returned? : KbEvent → Option Int
  | .returned value => if 0 ≤ value then some value else none
  | _ => none

def enqueued (events : List KbEvent) : List UInt8 := events.filterMap KbEvent.enqueued?

def released (events : List KbEvent) : List UInt8 := events.filterMap KbEvent.released?

def returned (events : List KbEvent) : List Int := events.filterMap KbEvent.returned?

private theorem filterMap_snoc {α β : Type} (f : α → Option β) (items : List α) (item : α) :
    (items ++ [item]).filterMap f = items.filterMap f ++ (f item).toList := by
  rw [List.filterMap_append]
  cases shown : f item <;> simp [shown]

theorem enqueued_snoc (events : List KbEvent) (event : KbEvent) :
    enqueued (events ++ [event]) = enqueued events ++ event.enqueued?.toList :=
  filterMap_snoc _ events event

theorem released_snoc (events : List KbEvent) (event : KbEvent) :
    released (events ++ [event]) = released events ++ event.released?.toList :=
  filterMap_snoc _ events event

theorem returned_snoc (events : List KbEvent) (event : KbEvent) :
    returned (events ++ [event]) = returned events ++ event.returned?.toList :=
  filterMap_snoc _ events event

/-- A character as the value that `kb_get` returns for it. -/
def charValue (c : UInt8) : Int := c.toNat

/-- `kb_get` without interrupts is its accesses in a row. -/
theorem kbGet_steps (kb : Keyboard) :
    ∃ events, Steps KbStep ⟨kb, .idle⟩ events ⟨(kbGet kb).1, .idle⟩ ∧
      events.getLast? = some (.returned (kbGet kb).2) ∧
      returned events = (KbEvent.returned (kbGet kb).2).returned?.toList := by
  have compared : Steps KbStep ⟨kb, .idle⟩ [.readHead, .readTail] ⟨kb, .both kb.head kb.tail⟩ :=
    .snoc (.single (.readHead kb)) (.thenTail kb kb.head)
  by_cases isEmpty : kb.head = kb.tail
  · rw [kbGet, if_pos isEmpty]
    rw [isEmpty] at compared
    exact ⟨_, .snoc compared (.empty kb kb.tail), by simp, rfl⟩
  · rw [kbGet, if_neg isEmpty]
    exact ⟨_, ((((compared.snoc (.index kb isEmpty)).snoc (.readBuf kb kb.tail)).snoc
      (.again kb _)).snoc (.writeTail kb _ _)).snoc (.result _ _), by simp, rfl⟩

section Key

variable {kb : Keyboard}

/-- An interrupt shows nothing that `kb_get` shows. -/
theorem keyEvent_ne (kb : Keyboard) (sc : UInt8) :
    .readHead ≠ keyEvent kb sc ∧ ∀ value, .returned value ≠ keyEvent kb sc := by
  unfold keyEvent
  split
  · simp
  · split <;> simp

/-- What an interrupt does to a valid ring. -/
theorem keyEvent_cases (valid : kb.ring.Valid kbBufSize) (sc : UInt8) :
    (keyEvent kb sc = .silent ∧ (keyboardHandler kb sc).ring = kb.ring) ∨
    (∃ c, keyEvent kb sc = .dropped c ∧ (kb.head + 1) % kbBufSize = kb.tail ∧
      (keyboardHandler kb sc).ring = kb.ring) ∨
    ∃ c, keyEvent kb sc = .enqueued c ∧ (kb.head + 1) % kbBufSize ≠ kb.tail ∧
      (keyboardHandler kb sc).ring = kb.ring.push kbBufSize c := by
  rcases keyboardHandler_cases kb sc with ⟨silent, same⟩ | ⟨c, translated, enqueue⟩
  · exact .inl ⟨by rw [keyEvent, silent], same⟩
  · refine .inr ?_
    rw [keyEvent, translated, enqueue]
    simp only
    by_cases full : (kb.head + 1) % kbBufSize = kb.tail
    · exact .inl ⟨c, by rw [kbEnqueue_full full, if_pos rfl], full, by rw [kbEnqueue_full full]⟩
    · have pushed := @kbEnqueue_room kb c full
      have advanced : (kbEnqueue kb c).head = (kb.head + 1) % kbBufSize :=
        congrArg RingBuffer.head pushed
      have inside : kb.head < 64 := valid.head
      exact .inr ⟨c, by rw [advanced, if_neg (by simp only [kbBufSize]; omega)], full, pushed⟩

end Key

/-- What the reads of a running `kb_get` still say about the ring. -/
def Reading (s : KbSystem) : Prop :=
  match s.getting with
  | .idle => True
  | .head h => h = s.kb.tail ∨ s.kb.head ≠ s.kb.tail
  | .tail t => t = s.kb.tail
  | .both h t => t = s.kb.tail ∧ (h = t ∨ s.kb.head ≠ s.kb.tail)
  | .index t => t = s.kb.tail ∧ s.kb.head ≠ s.kb.tail
  | .data c => c = s.kb.buf s.kb.tail ∧ s.kb.head ≠ s.kb.tail
  | .advance c t => t = s.kb.tail ∧ c = s.kb.buf s.kb.tail ∧ s.kb.head ≠ s.kb.tail
  | .written _ => True

/-- The character that was released and is about to be returned. -/
def Getting.unreturned : Getting → List UInt8
  | .written c => [c]
  | _ => []

/-- The invariant of the ring: every enqueued character was released or is still
held, and every released one was returned, in order. -/
structure Fifo (events : List KbEvent) (s : KbSystem) : Prop where
  valid : s.kb.ring.Valid kbBufSize
  reading : Reading s
  conserved : enqueued events = released events ++ s.kb.ring.contents kbBufSize
  delivered : (released events).map charValue =
    returned events ++ s.getting.unreturned.map charValue

section Step

variable {s s' : KbSystem} {events : List KbEvent} {event : KbEvent}

/-- An interrupt leaves what `kb_get` has read true. -/
theorem Reading.interrupt {kb : Keyboard} {getting : Getting} (valid : kb.ring.Valid kbBufSize)
    (reading : Reading ⟨kb, getting⟩) (sc : UInt8) : Reading ⟨keyboardHandler kb sc, getting⟩ := by
  have kept : (keyboardHandler kb sc).tail = kb.tail ∧
      (kb.head ≠ kb.tail → (keyboardHandler kb sc).head ≠ kb.tail ∧
        (keyboardHandler kb sc).buf kb.tail = kb.buf kb.tail) := by
    rcases keyEvent_cases valid sc with ⟨_, same⟩ | ⟨_, _, _, same⟩ | ⟨c, _, room, pushed⟩
    · simp only [Keyboard.ring, RingBuffer.mk.injEq] at same
      exact ⟨same.2.2, fun nonempty => ⟨by rwa [same.2.1], by rw [same.1]⟩⟩
    · simp only [Keyboard.ring, RingBuffer.mk.injEq] at same
      exact ⟨same.2.2, fun nonempty => ⟨by rwa [same.2.1], by rw [same.1]⟩⟩
    · simp only [Keyboard.ring, RingBuffer.push, RingBuffer.mk.injEq] at pushed
      refine ⟨pushed.2.2, fun nonempty => ⟨by rwa [pushed.2.1], ?_⟩⟩
      rw [pushed.1]
      exact Function.update_of_ne (Ne.symm nonempty) _ _
  obtain ⟨sameTail, grown⟩ := kept
  cases getting with
  | idle => trivial
  | head h =>
      simp only [Reading, sameTail] at reading ⊢
      exact reading.imp_right fun nonempty => (grown nonempty).1
  | tail t =>
      simp only [Reading, sameTail] at reading ⊢
      exact reading
  | both h t =>
      simp only [Reading, sameTail] at reading ⊢
      exact ⟨reading.1, reading.2.imp_right fun nonempty => (grown nonempty).1⟩
  | index t =>
      simp only [Reading, sameTail] at reading ⊢
      exact ⟨reading.1, (grown reading.2).1⟩
  | data c =>
      simp only [Reading, sameTail] at reading ⊢
      exact ⟨by rw [(grown reading.2).2]; exact reading.1, (grown reading.2).1⟩
  | advance c t =>
      simp only [Reading, sameTail] at reading ⊢
      obtain ⟨isTail, isData, nonempty⟩ := reading
      exact ⟨isTail, by rw [(grown nonempty).2]; exact isData, (grown nonempty).1⟩
  | written c => trivial

/-- A step that shows nothing and keeps the ring keeps the invariant. -/
theorem Fifo.keep (fifo : Fifo events s) (sameRing : s'.kb.ring = s.kb.ring) (reading : Reading s')
    (same : s'.getting.unreturned = s.getting.unreturned) (notEnqueued : event.enqueued? = none)
    (notReleased : event.released? = none) (notReturned : event.returned? = none) :
    Fifo (events ++ [event]) s' where
  valid := sameRing ▸ fifo.valid
  reading := reading
  conserved := by
    rw [sameRing]
    rw [enqueued_snoc, released_snoc, notEnqueued, notReleased]
    simpa using fifo.conserved
  delivered := by
    rw [same]
    rw [released_snoc, returned_snoc, notReleased, notReturned]
    simpa using fifo.delivered

/-- Every step keeps the invariant. -/
theorem Fifo.step (fifo : Fifo events s) (step : KbStep s event s') :
    Fifo (events ++ [event]) s' := by
  have ⟨valid, reading, conserved, delivered⟩ := fifo
  cases step with
  | interrupt kb getting sc shown =>
      have reading' := reading.interrupt valid sc
      subst shown
      rcases keyEvent_cases valid sc with ⟨isEvent, same⟩ | ⟨c, isEvent, _, same⟩ |
        ⟨c, isEvent, room, pushed⟩
      · exact isEvent ▸ fifo.keep same reading' rfl rfl rfl rfl
      · exact isEvent ▸ fifo.keep same reading' rfl rfl rfl rfl
      · rw [isEvent]
        refine ⟨by rw [pushed]; exact valid.push c, reading', ?_, ?_⟩
        · rw [pushed, valid.contents_push room, enqueued_snoc, released_snoc]
          have held := congrArg (· ++ [c]) conserved
          simpa [KbEvent.enqueued?, KbEvent.released?] using held
        · rw [released_snoc, returned_snoc]
          simpa [KbEvent.released?, KbEvent.returned?] using delivered
  | readHead kb => exact fifo.keep rfl (Classical.em (kb.head = kb.tail)) rfl rfl rfl rfl
  | readTail kb => exact fifo.keep rfl rfl rfl rfl rfl rfl
  | thenTail kb h => exact fifo.keep rfl ⟨rfl, reading⟩ rfl rfl rfl rfl
  | thenHead kb t =>
      have isTail : t = kb.tail := reading
      exact fifo.keep rfl ⟨isTail, isTail ▸ Classical.em (kb.head = kb.tail)⟩ rfl rfl rfl rfl
  | empty kb h => exact fifo.keep rfl trivial rfl rfl rfl rfl
  | index kb different => exact fifo.keep rfl ⟨rfl, reading.2.resolve_left different⟩ rfl rfl rfl rfl
  | readBuf kb t =>
      obtain ⟨isTail, nonempty⟩ := reading
      exact fifo.keep rfl ⟨congrArg kb.buf isTail, nonempty⟩ rfl rfl rfl rfl
  | again kb c => exact fifo.keep rfl ⟨rfl, reading⟩ rfl rfl rfl rfl
  | writeTail kb c t =>
      obtain ⟨isTail, isData, nonempty⟩ := reading
      have ring : ({ kb with tail := (t + 1) &&& (kbBufSize - 1) } : Keyboard).ring =
          kb.ring.release kbBufSize := by
        rw [kbWrap, isTail]
        rfl
      have front : kb.ring.contents kbBufSize =
          c :: (kb.ring.release kbBufSize).contents kbBufSize := by
        rw [isData]
        exact valid.contents_release nonempty
      refine ⟨by rw [ring]; exact valid.release, trivial, ?_, ?_⟩
      · rw [ring, enqueued_snoc, released_snoc]
        have held : enqueued events = released events ++ kb.ring.contents kbBufSize := conserved
        rw [front] at held
        simpa [KbEvent.enqueued?, KbEvent.released?] using held
      · rw [released_snoc, returned_snoc, List.map_append]
        have due : (released events).map charValue = returned events := by
          simpa [Getting.unreturned] using delivered
        simpa [KbEvent.released?, KbEvent.returned?, Getting.unreturned] using due
  | result kb c =>
      refine ⟨valid, trivial, ?_, ?_⟩
      · rw [enqueued_snoc, released_snoc]
        simpa [KbEvent.enqueued?, KbEvent.released?] using conserved
      · have isChar : (0 : Int) ≤ c.toNat := Int.natCast_nonneg _
        rw [released_snoc, returned_snoc]
        simpa [KbEvent.released?, KbEvent.returned?, Getting.unreturned, charValue, isChar] using
          delivered

/-- Every run keeps the invariant. -/
theorem Fifo.run (run : Steps KbStep .initial events s) : Fifo events s := by
  induction run with
  | refl =>
      exact ⟨⟨by decide, by decide⟩, trivial, rfl, rfl⟩
  | snoc _ last ih => exact ih.step last

/-- The handler does not write the tail. -/
theorem keyboardHandler_tail (kb : Keyboard) (sc : UInt8) : (keyboardHandler kb sc).tail = kb.tail := by
  unfold keyboardHandler kbEnqueue
  simp only
  split_ifs <;> rfl

/-- A comparison compares the values `h` and `t`. -/
def Compares (h t : Nat) (s : KbSystem) : Prop :=
  match s.getting with
  | .head h' => h' = h ∧ s.kb.tail = t
  | .both h' t' => h' = h ∧ t' = t
  | _ => True

/-- Until the head is read again, only the values read are compared. -/
theorem Compares.step {h t : Nat} (compares : Compares h t s) (once : event ≠ .readHead)
    (step : KbStep s event s') : Compares h t s' := by
  cases step with
  | interrupt kb getting sc =>
      cases getting with
      | head h' => exact ⟨compares.1, (keyboardHandler_tail kb sc).trans compares.2⟩
      | both h' t' => exact compares
      | _ => trivial
  | readHead => exact absurd rfl once
  | thenHead => exact absurd rfl once
  | thenTail kb h' => exact compares
  | _ => trivial

/-- A call that returns `-1` read the head while the ring was empty. -/
theorem empty_of_returned {during : List KbEvent} {s₁ s₂ s₃ : KbSystem} (reading : Reading s)
    (first : KbStep s .readHead s₁) (run : Steps KbStep s₁ during s₂) (once : .readHead ∉ during)
    (last : KbStep s₂ (.returned (-1)) s₃) : s.kb.head = s.kb.tail := by
  have compares : Compares s.kb.head s.kb.tail s₁ := by
    cases first with
    | readHead kb => exact ⟨rfl, rfl⟩
    | thenHead kb t => exact ⟨rfl, reading⟩
    | interrupt kb getting sc shown => exact absurd shown (keyEvent_ne kb sc).1
  have compares' := run.invariant_of_forall (Compares s.kb.head s.kb.tail) (· ≠ .readHead)
    (fun compares other step => compares.step other step)
    (fun event member isRead => once (isRead ▸ member)) compares
  cases last with
  | empty kb h => exact compares'.1.symm.trans compares'.2
  | interrupt kb getting sc shown => exact absurd shown ((keyEvent_ne kb sc).2 _)

/-- **The keyboard ring is a FIFO that is lossless until full.** In every run, with
interrupts between any two accesses of `kb_get`, the characters returned are a
prefix of those enqueued, at most 63 are pending, a character is dropped only
with 63 pending, and `-1` is returned only if the ring was empty when `kb_head`
was read. -/
theorem keyboard_ring_fifo (run : Steps KbStep .initial events s) :
    returned events <+: (enqueued events).map charValue ∧
    (enqueued events).length ≤ (released events).length + 63 ∧
    (∀ {c s'}, KbStep s (.dropped c) s' →
      (enqueued events).length = (released events).length + 63) ∧
    ∀ {s₁ during s₂ s₃}, KbStep s .readHead s₁ → Steps KbStep s₁ during s₂ →
      .readHead ∉ during → KbStep s₂ (.returned (-1)) s₃ →
        s.kb.head = s.kb.tail ∧ (enqueued events).length = (released events).length := by
  have fifo := Fifo.run run
  have lengths := congrArg List.length fifo.conserved
  rw [List.length_append, RingBuffer.contents_length] at lengths
  have bound := fifo.valid.count_lt
  refine ⟨?_, by simp only [kbBufSize] at *; omega, ?_, ?_⟩
  · rw [fifo.conserved, List.map_append, fifo.delivered, List.append_assoc]
    exact List.prefix_append _ _
  · intro c s' dropped
    have full : (s.kb.head + 1) % kbBufSize = s.kb.tail := by
      cases dropped with
      | interrupt kb getting sc shown =>
          rcases keyEvent_cases fifo.valid sc with ⟨isEvent, _⟩ | ⟨_, _, full, _⟩ | ⟨_, isEvent, _⟩
          · rw [isEvent] at shown
            cases shown
          · exact full
          · rw [isEvent] at shown
            cases shown
    have counted := fifo.valid.full_iff.mp full
    simp only [kbBufSize] at counted lengths
    omega
  · intro s₁ during s₂ s₃ first run' once last
    have isEmpty := empty_of_returned fifo.reading first run' once last
    have counted := fifo.valid.count_eq_zero.mpr isEmpty
    exact ⟨isEmpty, by omega⟩

/-- A second key comes while `kb_get` takes the character of the first, and a third one
after the `kb_get` that finds the ring empty has read `kb_head`. -/
theorem keyboard_ring_fifo_sample : ∃ events s s₁ s₂ s₃, Steps KbStep .initial events s ∧
    returned events = [97, 98] ∧ returned events <+: (enqueued events).map charValue ∧
    KbStep s .readHead s₁ ∧ Steps KbStep s₁ [.readTail, .enqueued 99] s₂ ∧
    KbStep s₂ (.returned (-1)) s₃ ∧ s.kb.head = s.kb.tail := by
  have compared : Steps KbStep .initial [.enqueued 97, .readHead, .readTail, .enqueued 98] _ :=
    .snoc (.snoc (.snoc (.single (.interrupt .initial .idle 0x1E (by decide))) (.readHead _))
      (.thenTail _ _)) (.interrupt _ _ 0x30 (by decide))
  have taken : Steps KbStep _ [.readTail, .readBuf, .readTail, .writeTail 97, .returned 97] _ :=
    .snoc (.snoc (.snoc (.snoc (.single (.index (keyboardHandler (keyboardHandler .initial 0x1E) 0x30)
      (show (1 : Nat) ≠ 0 by decide))) (.readBuf _ _)) (.again _ _)) (.writeTail _ _ _)) (.result _ _)
  obtain ⟨events, got, _, result⟩ :=
    kbGet_steps { keyboardHandler (keyboardHandler .initial 0x1E) 0x30 with tail := 1 }
  have run := (compared.trans taken).trans got
  have during : Steps KbStep _ [.readTail, .enqueued 99] _ :=
    .snoc (.single (.thenTail (kbGet { keyboardHandler (keyboardHandler .initial 0x1E) 0x30 with
      tail := 1 }).1 2)) (.interrupt _ _ 0x2E (by decide))
  obtain ⟨fifo, _, _, empty⟩ := keyboard_ring_fifo run
  refine ⟨_, _, _, _, _, run, ?_, fifo, .readHead _, during, .empty _ 2,
    (empty (.readHead _) during (by decide) (.empty _ 2)).1⟩
  rw [returned, List.filterMap_append, List.filterMap_append]
  exact congrArg ([97] ++ ·) result

end Step

end GodOs
