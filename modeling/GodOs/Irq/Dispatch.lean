import GodOs.Irq.Service
import GodOs.Machine.Interrupt

/-!
# The dispatch table of `irq.c`

`irq_dispatch` finds the line of a vector and the handler that was registered for it.
What the handler then does is up to the kernel around it.
-/

namespace GodOs

open Lib

/-- What `irq_dispatch` does with an interrupt. -/
inductive Dispatched (Handler : Type) where
  | ignored
  | handler (irq : Fin 16) (fn : Handler)
  | unhandled (irq : Fin 16)

section Table

variable {Handler : Type} {handlers : Fin 16 → Option Handler} {r : Regs}

def irqRegister (handlers : Fin 16 → Option Handler) (irq : UInt8) (fn : Option Handler) :
    Fin 16 → Option Handler :=
  if small : irq.toNat < idtIrqCount then Function.update handlers ⟨irq.toNat, small⟩ fn
  else handlers

/-- The part of `irq_dispatch` before its handler runs. -/
def irqDispatch (handlers : Fin 16 → Option Handler) (r : Regs) : Dispatched Handler :=
  let irq := (r.vector - BitVec.ofNat 64 idtIrqBase).toNat
  if small : irq < idtIrqCount then
    match handlers ⟨irq, small⟩ with
    | some fn => .handler ⟨irq, small⟩ fn
    | none => .unhandled ⟨irq, small⟩
  else .ignored

/-- The vector of a line finds the entry of the line. -/
theorem irqDispatch_line (irq : Fin 16) (isVector : r.vector = BitVec.ofNat 64 (idtIrqBase + irq)) :
    irqDispatch handlers r =
      match handlers irq with
      | some fn => .handler irq fn
      | none => .unhandled irq := by
  have number : (r.vector - BitVec.ofNat 64 idtIrqBase).toNat = irq := by
    rw [isVector]
    exact irqNumber_eq irq
  have small : (r.vector - BitVec.ofNat 64 idtIrqBase).toNat < idtIrqCount := number ▸ irq.isLt
  have same : (⟨(r.vector - BitVec.ofNat 64 idtIrqBase).toNat, small⟩ : Fin 16) = irq :=
    Fin.ext number
  unfold irqDispatch
  simp only [dif_pos small, same]

/-- Every other vector is ignored, also those below the first line. -/
theorem irqDispatch_other (other : ∀ irq : Fin 16, r.vector ≠ BitVec.ofNat 64 (idtIrqBase + irq)) :
    irqDispatch handlers r = .ignored := by
  refine dif_neg fun small => other ⟨_, small⟩ ?_
  rw [BitVec.ofNat_add, BitVec.ofNat_toNat, BitVec.setWidth_eq]
  exact (BitVec.sub_add_cancel _ _).symm.trans (BitVec.add_comm _ _)

end Table

end GodOs
