import Mathlib

/-!
# The interrupt controllers

Two 8259A chips, the second one on input 2 of the first. A chip is programmed by up to
four initialisation words, latches the edges of its inputs as requests, and offers the
first request that is neither masked nor behind a line in service. The processor takes
the vector of a request by acknowledging it, which puts the line in service until an
end of interrupt.
-/

namespace GodOs

/-- The inputs of a chip and the lines of both are numbered from zero. -/
instance neZero_inputs : NeZero 8 := ⟨by decide⟩

instance neZero_lines : NeZero 16 := ⟨by decide⟩

/-- The initialisation word that a chip expects next. -/
inductive PicStage where
  | ready
  | icw2
  | icw3
  | icw4
deriving DecidableEq

/-- One chip: its place in the initialisation, what the initialisation words chose, the
mask register, the latched requests and the lines in service. -/
structure Pic where
  stage : PicStage
  single : Bool
  wantsIcw4 : Bool
  base : UInt8
  cascade : UInt8
  autoEoi : Bool
  imr : UInt8
  irr : Finset (Fin 8)
  isr : Finset (Fin 8)

namespace Pic

/-- The bit of a line in the mask register. -/
def masked (pic : Pic) (line : Fin 8) : Bool := pic.imr.toBitVec.getLsbD line

/-- A request that the chip may offer. In service, a line holds back itself and all lines
behind it. -/
def Offers (pic : Pic) (line : Fin 8) : Prop :=
  pic.stage = .ready ∧ line ∈ pic.irr ∧ pic.masked line = false ∧ ∀ served ∈ pic.isr, line < served

instance (pic : Pic) (line : Fin 8) : Decidable (pic.Offers line) :=
  inferInstanceAs (Decidable (_ ∧ _ ∧ _ ∧ _))

/-- The request that the chip offers, the lowest line first. -/
def request? (pic : Pic) : Option (Fin 8) := Fin.find? fun line => decide (pic.Offers line)

/-- The first line in service. -/
def inService? (pic : Pic) : Option (Fin 8) := Fin.find? fun line => decide (line ∈ pic.isr)

/-- A line is taken into service, and its request is over. -/
def serve (pic : Pic) (line : Fin 8) : Pic :=
  { pic with irr := pic.irr.erase line, isr := if pic.autoEoi then pic.isr else insert line pic.isr }

/-- A byte on the command port. Bit 4 marks the first initialisation word, which resets
the chip; otherwise `0x20` is the end of the first line in service and `0x60` that of a
given line. The commands for rotating priorities and for reading other registers leave
the chip alone here. -/
def writeCommand (pic : Pic) (value : UInt8) : Pic :=
  if value &&& 0x10 ≠ 0 then
    { pic with
      stage := .icw2, single := value &&& 0x02 ≠ 0, wantsIcw4 := value &&& 0x01 ≠ 0
      autoEoi := false, imr := 0, irr := ∅, isr := ∅ }
  else if value &&& 0xF8 = 0x20 then
    match pic.inService? with
    | some line => { pic with isr := pic.isr.erase line }
    | none => pic
  else if value &&& 0xF8 = 0x60 then
    { pic with isr := pic.isr.erase (Fin.ofNat 8 value.toNat) }
  else pic

/-- A byte on the data port: the initialisation word that is due, or the mask. -/
def writeData (pic : Pic) (value : UInt8) : Pic :=
  match pic.stage with
  | .icw2 =>
      { pic with
        base := value &&& 0xF8
        stage := if pic.single then (if pic.wantsIcw4 then .icw4 else .ready) else .icw3 }
  | .icw3 => { pic with cascade := value, stage := if pic.wantsIcw4 then .icw4 else .ready }
  | .icw4 => { pic with autoEoi := value &&& 0x02 ≠ 0, stage := .ready }
  | .ready => { pic with imr := value }

/-- The vector of a line. -/
def vector (pic : Pic) (line : Fin 8) : UInt8 := pic.base + UInt8.ofNat line

/-- The chip is asked for its vector. Without a request it gives that of line 7, and
takes nothing into service. -/
def acknowledge (pic : Pic) : Pic × UInt8 :=
  match pic.request? with
  | some line => (pic.serve line, pic.vector line)
  | none => (pic, pic.vector 7)

end Pic

/-- The two chips of a PC. -/
structure Pics where
  master : Pic
  slave : Pic

namespace Pics

/-- The first chip with its input 2, which follows the output of the second one. -/
def cascaded (pics : Pics) : Pic :=
  { pics.master with
    irr := if pics.slave.request?.isSome then insert 2 pics.master.irr else pics.master.irr.erase 2 }

/-- The request that the processor sees. -/
def intr? (pics : Pics) : Option (Fin 8) := pics.cascaded.request?

/-- The processor acknowledges an interrupt. On an input with a chip behind it the vector
comes from that chip, if the chip knows itself to be there. -/
def inta (pics : Pics) : Pics × Option UInt8 :=
  match pics.intr? with
  | none => (pics, some (pics.master.vector 7))
  | some line =>
      let master := pics.master.serve line
      if pics.master.cascade.toBitVec.getLsbD line then
        if (pics.slave.cascade &&& 7).toNat = line then
          (⟨master, pics.slave.acknowledge.1⟩, some pics.slave.acknowledge.2)
        else (⟨master, pics.slave⟩, none)
      else (⟨master, pics.slave⟩, some (pics.master.vector line))

/-- A byte written to a port of the chips. -/
def outb (pics : Pics) (port : Nat) (value : UInt8) : Pics :=
  if port = 0x20 then { pics with master := pics.master.writeCommand value }
  else if port = 0x21 then { pics with master := pics.master.writeData value }
  else if port = 0xA0 then { pics with slave := pics.slave.writeCommand value }
  else if port = 0xA1 then { pics with slave := pics.slave.writeData value }
  else pics

/-- A byte read from a data port, which is the mask. -/
def inb (pics : Pics) (port : Nat) : UInt8 :=
  if port = 0x21 then pics.master.imr else if port = 0xA1 then pics.slave.imr else 0xFF

/-- The latched requests change at one of the sixteen lines. -/
def setRequest (pics : Pics) (irq : Fin 16) (on : Bool) : Pics :=
  let line : Fin 8 := Fin.ofNat 8 irq
  let change (requests : Finset (Fin 8)) := if on then insert line requests else requests.erase line
  if irq < 8 then { pics with master := { pics.master with irr := change pics.master.irr } }
  else { pics with slave := { pics.slave with irr := change pics.slave.irr } }

end Pics

section Chip

variable {pic : Pic} {line : Fin 8}

namespace Pic

theorem request?_eq_some : pic.request? = some line ↔
    pic.Offers line ∧ ∀ other < line, ¬ pic.Offers other := by
  rw [request?, Fin.find?_eq_some_iff]
  simp only [decide_eq_true_eq, decide_eq_false_iff_not]

theorem request?_eq_none : pic.request? = none ↔ ∀ line, ¬ pic.Offers line := by
  rw [request?, Fin.find?_eq_none_iff]
  simp only [decide_eq_false_iff_not]

/-- With nothing in service a chip offers every open request, or one before it. -/
theorem Offers.request (offers : pic.Offers line) : ∃ first ≤ line, pic.request? = some first := by
  cases found : pic.request? with
  | none => exact absurd offers (request?_eq_none.mp found line)
  | some first =>
      refine ⟨first, ?_, rfl⟩
      by_contra later
      exact (request?_eq_some.mp found).2 line (by omega) offers

/-- The end of interrupt takes the only line in service out of it. -/
theorem eoi_single (serving : pic.isr = {line}) :
    pic.writeCommand 0x20 = { pic with isr := ∅ } := by
  have found : pic.inService? = some line := by
    rw [inService?, Fin.find?_eq_some_iff, serving]
    simp only [Finset.mem_singleton, decide_eq_true_eq, decide_eq_false_iff_not, true_and]
    exact fun other before => ne_of_lt before
  unfold writeCommand
  rw [if_neg (by decide), if_pos (by decide), found]
  simp only [serving, Finset.erase_singleton]

/-- Without a line in service the end of interrupt does nothing. -/
theorem eoi_idle (idle : pic.isr = ∅) : pic.writeCommand 0x20 = pic := by
  have found : pic.inService? = none := by
    rw [inService?, Fin.find?_eq_none_iff, idle]
    simp
  unfold writeCommand
  rw [if_neg (by decide), if_pos (by decide), found]

end Pic

end Chip

end GodOs
