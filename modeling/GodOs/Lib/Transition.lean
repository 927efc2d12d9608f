import Mathlib

/-!
# Labelled transition systems

A system is a step relation between states, labelled by events. `Steps` is its
finite runs; `Steps.invariant` turns a fact about one step into a fact about
every run, and `Steps.simulate` turns a simulation of one step into a
simulation of every run.
-/

namespace Lib

variable {State Event : Type}

/-- Zero or more consecutive steps with the events they emit, oldest first. -/
inductive Steps (step : State → Event → State → Prop) : State → List Event → State → Prop where
  | refl {state} : Steps step state [] state
  | snoc {start events current event next} (prior : Steps step start events current)
      (last : step current event next) : Steps step start (events ++ [event]) next

/-- An event with a label is a step with it; an event without one is a stutter. -/
def Labelled {Label : Type} (step : State → Label → State → Prop) (state : State) :
    Option Label → State → Prop
  | none, next => next = state
  | some label, next => step state label next

namespace Steps

variable {step : State → Event → State → Prop} {start middle finish : State}
  {events later : List Event}

/-- One step is a run. -/
theorem single {event : Event} (last : step start event finish) :
    Steps step start [event] finish := by
  simpa using Steps.snoc .refl last

/-- Runs that meet compose. -/
theorem trans (first : Steps step start events middle) (second : Steps step middle later finish) :
    Steps step start (events ++ later) finish := by
  induction second with
  | refl => simpa using first
  | snoc _ last ih =>
      rw [← List.append_assoc]
      exact .snoc ih last

/-- A run can be cut between any two of its events. -/
theorem split (run : Steps step start (events ++ later) finish) :
    ∃ middle, Steps step start events middle ∧ Steps step middle later finish := by
  generalize total : events ++ later = emitted at run
  induction run generalizing later with
  | refl =>
      obtain ⟨rfl, rfl⟩ := List.append_eq_nil_iff.mp total
      exact ⟨_, .refl, .refl⟩
  | snoc prior last ih =>
      rcases List.eq_nil_or_concat' later with rfl | ⟨front, final, rfl⟩
      · rw [List.append_nil] at total
        rw [total]
        exact ⟨_, .snoc prior last, .refl⟩
      · rw [← List.append_assoc] at total
        obtain ⟨earlier, same⟩ := List.append_inj' total rfl
        obtain ⟨middle, first, second⟩ := ih earlier
        rw [same]
        exact ⟨middle, first, .snoc second last⟩

/-- What every step preserves, every run preserves. -/
theorem invariant {Inv : State → Prop}
    (preserved : ∀ {state event next}, Inv state → step state event next → Inv next)
    (run : Steps step start events finish) (initial : Inv start) : Inv finish := by
  induction run with
  | refl => exact initial
  | snoc _ last ih => exact preserved ih last

/-- A run whose events all satisfy `Allowed` preserves what allowed steps preserve. -/
theorem invariant_of_forall (Inv : State → Prop) (Allowed : Event → Prop)
    (preserved : ∀ {state event next}, Inv state → Allowed event → step state event next →
      Inv next)
    (run : Steps step start events finish) (allowed : ∀ event ∈ events, Allowed event)
    (initial : Inv start) : Inv finish := by
  induction run with
  | refl => exact initial
  | snoc _ last ih =>
      refine preserved (ih fun event member => allowed event ?_) (allowed _ ?_) last
      · exact List.mem_append_left _ member
      · exact List.mem_append_right _ (List.mem_singleton_self _)

/-- Weaken the step relation of a run, using an invariant of the stronger one. -/
theorem weaken {weaker : State → Event → State → Prop} {Inv : State → Prop}
    (preserved : ∀ {state event next}, Inv state → step state event next → Inv next)
    (implied : ∀ {state event next}, Inv state → step state event next → weaker state event next)
    (run : Steps step start events finish) (initial : Inv start) :
    Steps weaker start events finish := by
  induction run with
  | refl => exact .refl
  | snoc prior last ih => exact .snoc ih (implied (invariant preserved prior initial) last)

/-- A run of the concrete system whose events all satisfy `Allowed` is matched by a run of
the abstract one, event by event; an event with no abstract counterpart is a stutter. -/
theorem simulate {Abstract Label : Type} {abstractStep : Abstract → Label → Abstract → Prop}
    {label : Event → Option Label} (Rel : State → Abstract → Prop) (Allowed : Event → Prop)
    (matched : ∀ {state event next abstract}, Rel state abstract → Allowed event →
      step state event next → ∃ abstractNext, Rel next abstractNext ∧
        Labelled abstractStep abstract (label event) abstractNext)
    (run : Steps step start events finish) (allowed : ∀ event ∈ events, Allowed event)
    {abstractStart : Abstract} (related : Rel start abstractStart) :
    ∃ abstractFinish, Rel finish abstractFinish ∧
      Steps abstractStep abstractStart (events.filterMap label) abstractFinish := by
  induction run with
  | refl => exact ⟨abstractStart, related, .refl⟩
  | @snoc _ _ event _ _ last ih =>
      obtain ⟨abstractMiddle, relatedMiddle, abstractRun⟩ :=
        ih fun event member => allowed event (List.mem_append_left _ member)
      obtain ⟨abstractNext, relatedNext, visible⟩ :=
        matched relatedMiddle (allowed _ (List.mem_append_right _ (List.mem_singleton_self _))) last
      refine ⟨abstractNext, relatedNext, ?_⟩
      rw [List.filterMap_append]
      cases shown : label event with
      | none =>
          rw [shown] at visible
          obtain rfl : abstractNext = abstractMiddle := visible
          simpa [shown] using abstractRun
      | some visibleLabel =>
          rw [shown] at visible
          simpa [shown] using Steps.snoc abstractRun visible

end Steps
end Lib
