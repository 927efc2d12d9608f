import GodOs.Lib.Memory
import GodOs.Lib.Outcome

/-!
# Programs that load and store words

An `Access` is a program seen through its loads and stores. `Access.flat` runs it on a
memory, `Access.Carried` on a machine whose states are not memories. A machine that
answers each access as a memory does runs every program as the memory does, and to its
end unless an access is stuck.
-/

namespace Lib

/-- A program of loads and stores of words, and how it ends. -/
inductive Access (α : Type) where
  | ret (outcome : Outcome α)
  | load (address width : Nat) (next : Nat → Access α)
  | store (address width value : Nat) (next : Access α)

/-- What loads and stores of words do to a state. -/
structure Machine (State : Type) where
  load : State → Nat → Nat → Nat → State → Prop
  store : State → Nat → Nat → Nat → State → Prop

namespace Access

variable {α β State : Type}

/-- Go on with the value of a program. -/
def bind : Access α → (α → Access β) → Access β
  | .ret (.done value), next => next value
  | .ret (.halted why), _ => .ret (.halted why)
  | .ret .loop, _ => .ret .loop
  | .load address width rest, next => .load address width fun value => (rest value).bind next
  | .store address width value rest, next => .store address width value (rest.bind next)

/-- The run on a memory. -/
def flat : Access α → Memory → Outcome (Memory × α)
  | .ret outcome, memory => outcome.bind fun value => .done (memory, value)
  | .load address width next, memory => (next (memory.load address width)).flat memory
  | .store address width value next, memory => next.flat (memory.store address width value)

/-- All accesses of the run on a memory are `Inside`. -/
def Stays (Inside : Nat → Nat → Prop) : Access α → Memory → Prop
  | .ret _, _ => True
  | .load address width next, memory =>
      Inside address width ∧ (next (memory.load address width)).Stays Inside memory
  | .store address width value next, memory =>
      Inside address width ∧ next.Stays Inside (memory.store address width value)

instance decidableStays (Inside : Nat → Nat → Prop) [∀ address width, Decidable (Inside address width)] :
    (program : Access α) → (memory : Memory) → Decidable (program.Stays Inside memory)
  | .ret _, _ => .isTrue trivial
  | .load address width next, memory =>
      have := decidableStays Inside (next (memory.load address width)) memory
      inferInstanceAs (Decidable (Inside address width ∧ _))
  | .store address width value next, memory =>
      have := decidableStays Inside next (memory.store address width value)
      inferInstanceAs (Decidable (Inside address width ∧ _))

/-- The place and width of the first access. -/
def first : Access α → Option (Nat × Nat)
  | .ret _ => none
  | .load address width _ => some (address, width)
  | .store address width _ _ => some (address, width)

/-- A machine carries out the first accesses of a program, up to what is left of it. -/
inductive Carried (machine : Machine State) : Access α → State → Access α → State → Prop where
  | refl {program state} : Carried machine program state program state
  | load {program state address width next current value after}
      (prior : Carried machine program state (.load address width next) current)
      (last : machine.load current address width value after) :
      Carried machine program state (next value) after
  | store {program state address width value next current after}
      (prior : Carried machine program state (.store address width value next) current)
      (last : machine.store current address width value after) :
      Carried machine program state next after

section Flat

variable {Inside Wider : Nat → Nat → Prop} {program : Access α} {next : α → Access β} {memory : Memory}

/-- A sequence runs one part after the other. -/
theorem flat_bind (program : Access α) (next : α → Access β) (memory : Memory) :
    (program.bind next).flat memory =
      (program.flat memory).bind fun run => (next run.2).flat run.1 := by
  induction program generalizing memory with
  | ret outcome => cases outcome <;> rfl
  | load address width rest ih => exact ih _ memory
  | store address width value rest ih => exact ih _

/-- A sequence stays inside if both parts do. -/
theorem Stays.bind (first : program.Stays Inside memory)
    (second : ∀ {memory' value}, program.flat memory = .done (memory', value) →
      (next value).Stays Inside memory') :
    (program.bind next).Stays Inside memory := by
  induction program generalizing memory with
  | ret outcome =>
      cases outcome with
      | done value => exact second rfl
      | halted | loop => trivial
  | load address width rest ih => exact ⟨first.1, ih _ first.2 second⟩
  | store address width value rest ih => exact ⟨first.1, ih first.2 second⟩

theorem Stays.mono (stays : program.Stays Inside memory)
    (wider : ∀ {address width}, Inside address width → Wider address width) :
    program.Stays Wider memory := by
  induction program generalizing memory with
  | ret => trivial
  | load address width rest ih => exact ⟨wider stays.1, ih _ stays.2⟩
  | store address width value rest ih => exact ⟨wider stays.1, ih stays.2⟩

end Flat

section Machines

variable {machine : Machine State} {program rest last : Access α} {state middle finish : State}
  {Rel : State → Memory → Prop} {Inside : Nat → Nat → Prop} {Stuck : State → Nat → Nat → Prop}
  {memory : Memory}

theorem Carried.trans (front : Carried machine program state rest middle)
    (back : Carried machine rest middle last finish) : Carried machine program state last finish := by
  induction back with
  | refl => exact front
  | load _ final ih => exact .load ih final
  | store _ final ih => exact .store ih final

/-- The machine answers the accesses inside from related states as the memory does. -/
structure Simulates (machine : Machine State) (Rel : State → Memory → Prop)
    (Inside : Nat → Nat → Prop) : Prop where
  load : ∀ {state memory address width value after}, Rel state memory → Inside address width →
    machine.load state address width value after → value = memory.load address width ∧ Rel after memory
  store : ∀ {state memory address width value after}, Rel state memory → Inside address width →
    machine.store state address width value after → Rel after (memory.store address width value)

/-- The machine carries out each access inside, or is stuck. -/
structure Serves (machine : Machine State) (Rel : State → Memory → Prop)
    (Inside : Nat → Nat → Prop) (Stuck : State → Nat → Nat → Prop) : Prop where
  load : ∀ {state memory address width}, Rel state memory → Inside address width →
    (∃ value after, machine.load state address width value after) ∨ Stuck state address width
  store : ∀ {state memory address width}, Rel state memory → Inside address width → ∀ value,
    (∃ after, machine.store state address width value after) ∨ Stuck state address width

/-- What is left of a program runs on the memory as the whole did, and stays inside. -/
theorem Simulates.carried (simulates : Simulates machine Rel Inside)
    (run : Carried machine program state rest finish) (related : Rel state memory)
    (stays : program.Stays Inside memory) :
    ∃ memory', Rel finish memory' ∧ rest.flat memory' = program.flat memory ∧
      rest.Stays Inside memory' := by
  induction run with
  | refl => exact ⟨memory, related, rfl, stays⟩
  | load _ final ih =>
      obtain ⟨memory', related', same, inside, later⟩ := ih
      obtain ⟨rfl, after⟩ := simulates.load related' inside final
      exact ⟨memory', after, same, later⟩
  | store _ final ih =>
      obtain ⟨memory', related', same, inside, later⟩ := ih
      exact ⟨_, simulates.store related' inside final, same, later⟩

/-- A program that ends on the machine ends with the same outcome on the memory. -/
theorem Simulates.ends {outcome : Outcome α} (simulates : Simulates machine Rel Inside)
    (run : Carried machine program state (.ret outcome) finish) (related : Rel state memory)
    (stays : program.Stays Inside memory) :
    ∃ memory', Rel finish memory' ∧
      program.flat memory = outcome.bind fun value => .done (memory', value) := by
  obtain ⟨memory', related', same, _⟩ := simulates.carried run related stays
  exact ⟨memory', related', same.symm⟩

/-- A program that stays inside is carried to its end, or to an access that is stuck. -/
theorem Simulates.advances (simulates : Simulates machine Rel Inside)
    (serves : Serves machine Rel Inside Stuck) (related : Rel state memory)
    (stays : program.Stays Inside memory) :
    ∃ rest finish, Carried machine program state rest finish ∧
      ((∃ outcome, rest = .ret outcome) ∨
        ∃ address width, rest.first = some (address, width) ∧ Stuck finish address width) := by
  induction program generalizing state memory with
  | ret outcome => exact ⟨_, _, .refl, .inl ⟨outcome, rfl⟩⟩
  | load address width next ih =>
      rcases serves.load related stays.1 with ⟨value, after, step⟩ | stuck
      · obtain ⟨rfl, related'⟩ := simulates.load related stays.1 step
        obtain ⟨rest, finish, run, ends⟩ := ih _ related' stays.2
        exact ⟨rest, finish, (Carried.load .refl step).trans run, ends⟩
      · exact ⟨_, _, .refl, .inr ⟨address, width, rfl, stuck⟩⟩
  | store address width value next ih =>
      rcases serves.store related stays.1 value with ⟨after, step⟩ | stuck
      · obtain ⟨rest, finish, run, ends⟩ := ih (simulates.store related stays.1 step) stays.2
        exact ⟨rest, finish, (Carried.store .refl step).trans run, ends⟩
      · exact ⟨_, _, .refl, .inr ⟨address, width, rfl, stuck⟩⟩

/-- A program that ends in a value on the memory ends in it on the machine, or is stuck. -/
theorem Simulates.finishes {value : α} {after : Memory} (simulates : Simulates machine Rel Inside)
    (serves : Serves machine Rel Inside Stuck) (related : Rel state memory)
    (stays : program.Stays Inside memory) (total : program.flat memory = .done (after, value)) :
    (∃ finish, Carried machine program state (.ret (.done value)) finish ∧ Rel finish after) ∨
      ∃ rest finish address width, Carried machine program state rest finish ∧
        rest.first = some (address, width) ∧ Stuck finish address width := by
  obtain ⟨rest, finish, run, ⟨outcome, rfl⟩ | ⟨address, width, first, stuck⟩⟩ :=
    simulates.advances serves related stays
  · obtain ⟨memory', related', same⟩ := simulates.ends run related stays
    rw [total] at same
    obtain ⟨value', rfl, same'⟩ := Outcome.bind_eq_done.mp same.symm
    obtain ⟨rfl, rfl⟩ := Prod.mk.inj (Outcome.done.inj same')
    exact .inl ⟨finish, run, related'⟩
  · exact .inr ⟨rest, finish, address, width, run, first, stuck⟩

end Machines

end Access
end Lib
