import GodOs.Lib.Memory

/-!
# Programs that read memory

A `Probe` is a program with its reads of a memory, and notes on whatever else it does,
in their order. `Probe.value` is what it computes on a memory; `Probe.Safe` bounds every
read and every note; `Safe.congr` says that it depends on what it reads.
-/

namespace Lib

/-- A program that reads words and leaves notes. -/
inductive Probe (Note α : Type) where
  | done (value : α)
  | read (address width : Nat) (next : Nat → Probe Note α)
  | note (what : Note) (next : Probe Note α)

namespace Probe

variable {Note α β : Type} {mem mem' : Memory} {Reads : Nat → Nat → Prop} {Notes : Note → Prop}

/-- Continue with the value of a program. -/
def bind : Probe Note α → (α → Probe Note β) → Probe Note β
  | done value, then' => then' value
  | read address width next, then' => read address width fun word => (next word).bind then'
  | note what next, then' => note what (next.bind then')

/-- What a program computes on a memory. -/
def value (mem : Memory) : Probe Note α → α
  | done value => value
  | read address width next => (next (mem.load address width)).value mem
  | note _ next => next.value mem

/-- The notes that it leaves. -/
def notes (mem : Memory) : Probe Note α → List Note
  | done _ => []
  | read address width next => (next (mem.load address width)).notes mem
  | note what next => what :: next.notes mem

/-- On a memory, every read and every note of a program is allowed. -/
def Safe (mem : Memory) (Reads : Nat → Nat → Prop) (Notes : Note → Prop) : Probe Note α → Prop
  | done _ => True
  | read address width next => Reads address width ∧ Safe mem Reads Notes (next (mem.load address width))
  | note what next => Notes what ∧ Safe mem Reads Notes next

@[simp] theorem value_bind (program : Probe Note α) (then' : α → Probe Note β) :
    (program.bind then').value mem = (then' (program.value mem)).value mem := by
  induction program with
  | done value => rfl
  | read address width next ih => exact ih _
  | note what next ih => exact ih

@[simp] theorem notes_bind (program : Probe Note α) (then' : α → Probe Note β) :
    (program.bind then').notes mem = program.notes mem ++ (then' (program.value mem)).notes mem := by
  induction program with
  | done value => rfl
  | read address width next ih => exact ih _
  | note what next ih => exact congrArg (what :: ·) ih

/-- A sequence is safe when both of its parts are. -/
theorem Safe.bind {program : Probe Note α} {then' : α → Probe Note β}
    (first : Safe mem Reads Notes program)
    (second : Safe mem Reads Notes (then' (program.value mem))) :
    Safe mem Reads Notes (program.bind then') := by
  induction program with
  | done value => exact second
  | read address width next ih => exact ⟨first.1, ih _ first.2 second⟩
  | note what next ih => exact ⟨first.1, ih first.2 second⟩

/-- Safety under wider bounds. -/
theorem Safe.mono {Reads' : Nat → Nat → Prop} {program : Probe Note α}
    (safe : Safe mem Reads Notes program)
    (wider : ∀ address width, Reads address width → Reads' address width) :
    Safe mem Reads' Notes program := by
  induction program with
  | done value => exact trivial
  | read address width next ih => exact ⟨wider address width safe.1, ih _ safe.2⟩
  | note what next ih => exact ⟨safe.1, ih safe.2⟩

/-- The notes of a safe program are allowed. -/
theorem Safe.notes {program : Probe Note α} (safe : Safe mem Reads Notes program) :
    ∀ what ∈ program.notes mem, Notes what := by
  induction program with
  | done value => exact fun _ member => absurd member List.not_mem_nil
  | read address width next ih => exact ih _ safe.2
  | note what next ih =>
      intro other member
      rcases List.mem_cons.mp member with rfl | later
      · exact safe.1
      · exact ih safe.2 other later

/-- A program does the same on a memory that agrees on its reads. -/
theorem Safe.congr {program : Probe Note α} (safe : Safe mem Reads Notes program)
    (agree : ∀ address width, Reads address width → mem'.load address width = mem.load address width) :
    program.value mem' = program.value mem ∧ program.notes mem' = program.notes mem := by
  induction program with
  | done value => exact ⟨rfl, rfl⟩
  | read address width next ih =>
      rw [value, value, Probe.notes, Probe.notes, agree address width safe.1]
      exact ih _ safe.2
  | note what next ih =>
      obtain ⟨sameValue, sameNotes⟩ := ih safe.2
      exact ⟨sameValue, congrArg (what :: ·) sameNotes⟩

end Probe
end Lib
