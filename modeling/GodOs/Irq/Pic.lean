import GodOs.Lib.Transition
import GodOs.Machine.Pic

/-!
# The driver of `pic.c`

`pic_init` programs both chips, whatever they were doing, and masks every line.
`pic_mask` and `pic_unmask` are then operations on the set of masked lines: unmasking a
line of the second chip opens the cascade with it.
-/

namespace GodOs

open Lib

def pic1Cmd : Nat := 0x20
def pic1Data : Nat := 0x21
def pic2Cmd : Nat := 0xA0
def pic2Data : Nat := 0xA1
def picEoi : UInt8 := 0x20
def picIcw1Init : UInt8 := 0x11
def picIcw2Master : UInt8 := 0x20
def picIcw2Slave : UInt8 := 0x28
def picIcw3Master : UInt8 := 0x04
def picIcw3Slave : UInt8 := 0x02
def picIcw48086 : UInt8 := 0x01
def picMaskAll : UInt8 := 0xFF

def picInit (pics : Pics) : Pics :=
  let pics := pics.outb pic1Cmd picIcw1Init
  let pics := pics.outb pic2Cmd picIcw1Init
  let pics := pics.outb pic1Data picIcw2Master
  let pics := pics.outb pic2Data picIcw2Slave
  let pics := pics.outb pic1Data picIcw3Master
  let pics := pics.outb pic2Data picIcw3Slave
  let pics := pics.outb pic1Data picIcw48086
  let pics := pics.outb pic2Data picIcw48086
  let pics := pics.outb pic1Data picMaskAll
  pics.outb pic2Data picMaskAll

def picUpdateMask (pics : Pics) (irq : UInt8) (masked : Bool) : Pics :=
  if irq ≥ 16 then pics
  else
    let port := if irq < 8 then pic1Data else pic2Data
    let bit : UInt8 := 1 <<< (irq &&& 7)
    let old := pics.inb port
    pics.outb port (if masked then old ||| bit else old &&& ~~~bit)

def picMask (pics : Pics) (irq : UInt8) : Pics := picUpdateMask pics irq true

def picUnmask (pics : Pics) (irq : UInt8) : Pics :=
  let pics := if irq ≥ 8 ∧ irq < 16 then picUpdateMask pics 2 false else pics
  picUpdateMask pics irq false

def picSendEoi (pics : Pics) (irq : UInt8) : Pics :=
  if irq ≥ 16 then pics
  else
    let pics := if irq ≥ 8 then pics.outb pic2Cmd picEoi else pics
    pics.outb pic1Cmd picEoi

/-- One chip as the kernel programs it: x86 mode with manual end of interrupt. -/
structure Pic.Programmed (pic : Pic) (base cascade : UInt8) : Prop where
  stage : pic.stage = .ready
  base : pic.base = base
  cascade : pic.cascade = cascade
  autoEoi : pic.autoEoi = false

/-- Both chips as the kernel programs them. -/
structure Pics.Programmed (pics : Pics) : Prop where
  master : pics.master.Programmed picIcw2Master picIcw3Master
  slave : pics.slave.Programmed picIcw2Slave picIcw3Slave

/-- The input of its chip that a line is. -/
def lineOf (irq : Fin 16) : Fin 8 := Fin.ofNat 8 irq

/-- The chip of a line. -/
def Pics.chip (pics : Pics) (irq : Fin 16) : Pic := if irq < 8 then pics.master else pics.slave

/-- The mask bit of a line. -/
def Pics.masked (pics : Pics) (irq : Fin 16) : Bool := (pics.chip irq).masked (lineOf irq)

/-- A request of a line is latched. -/
def Pics.Latched (pics : Pics) (irq : Fin 16) : Prop := lineOf irq ∈ (pics.chip irq).irr

/-- A line can reach the processor: it is unmasked, and so is the cascade for the lines
behind it. -/
def Pics.Open (pics : Pics) (irq : Fin 16) : Prop :=
  pics.masked irq = false ∧ (8 ≤ irq → pics.masked 2 = false)

/-- The calls of the driver after `pic_init`. -/
inductive PicCall where
  | mask (irq : UInt8)
  | unmask (irq : UInt8)

def PicCall.apply (pics : Pics) : PicCall → Pics
  | .mask irq => picMask pics irq
  | .unmask irq => picUnmask pics irq

/-- What a call does to the set of masked lines. A number that is no line does nothing. -/
def PicCall.onMasks (masks : Finset (Fin 16)) : PicCall → Finset (Fin 16)
  | .mask irq => if small : irq.toNat < 16 then insert ⟨irq.toNat, small⟩ masks else masks
  | .unmask irq =>
      if small : irq.toNat < 16 then
        (if 8 ≤ irq then masks.erase 2 else masks).erase ⟨irq.toNat, small⟩
      else masks

section Init

variable {pics : Pics}

/-- `pic_init` leaves both chips programmed, masked and without a request, in whatever
state they were, in the middle of another initialisation too. -/
theorem picInit_eq (pics : Pics) : picInit pics =
    ⟨⟨.ready, false, true, picIcw2Master, picIcw3Master, false, picMaskAll, ∅, ∅⟩,
      ⟨.ready, false, true, picIcw2Slave, picIcw3Slave, false, picMaskAll, ∅, ∅⟩⟩ := rfl

theorem picInit_programmed (pics : Pics) : (picInit pics).Programmed :=
  ⟨⟨rfl, rfl, rfl, rfl⟩, ⟨rfl, rfl, rfl, rfl⟩⟩

end Init

section Masks

variable {pics : Pics} {irq : UInt8} {line : Fin 8} {masks : Finset (Fin 16)}

/-- The bit that `pic_update_mask` computes. -/
theorem updateBit (irq : UInt8) (line : Fin 8) :
    ((1 : UInt8) <<< (irq &&& 7)).toBitVec.getLsbD line = decide (line = Fin.ofNat 8 irq.toNat) := by
  revert irq line
  decide +kernel

/-- The mask register that `pic_update_mask` writes. -/
def updated (old irq : UInt8) (masked : Bool) : UInt8 :=
  let bit : UInt8 := 1 <<< (irq &&& 7)
  if masked then old ||| bit else old &&& ~~~bit

/-- Updating changes the bit of its line only. -/
theorem updated_bit (old irq : UInt8) (masked : Bool) (line : Fin 8) :
    (updated old irq masked).toBitVec.getLsbD line =
      if line = Fin.ofNat 8 irq.toNat then masked else old.toBitVec.getLsbD line := by
  have bit := updateBit irq line
  have inside : line.val < 8 := line.isLt
  unfold updated
  cases masked with
  | true =>
      rw [if_pos rfl, UInt8.toBitVec_or, BitVec.getLsbD_or, bit]
      by_cases same : line = Fin.ofNat 8 irq.toNat
      · rw [if_pos same, decide_eq_true same, Bool.or_true]
      · rw [if_neg same, decide_eq_false same, Bool.or_false]
  | false =>
      rw [if_neg (by decide), UInt8.toBitVec_and, UInt8.toBitVec_not, BitVec.getLsbD_and,
        BitVec.getLsbD_not, bit, decide_eq_true inside, Bool.true_and]
      by_cases same : line = Fin.ofNat 8 irq.toNat
      · rw [if_pos same, decide_eq_true same, Bool.not_true, Bool.and_false]
      · rw [if_neg same, decide_eq_false same, Bool.not_false, Bool.and_true]

/-- `pic_update_mask` writes the mask register of the chip of its line. -/
theorem picUpdateMask_eq (ready : pics.Programmed) (small : irq < 16) (masked : Bool) :
    picUpdateMask pics irq masked =
      if irq < 8 then
        { pics with master := { pics.master with imr := updated pics.master.imr irq masked } }
      else { pics with slave := { pics.slave with imr := updated pics.slave.imr irq masked } } := by
  have low : ¬ irq ≥ 16 := UInt8.not_le.mpr small
  rw [picUpdateMask, if_neg low]
  by_cases first : irq < 8
  · rw [if_pos first, if_pos first]
    simp only [Pics.outb, Pics.inb, pic1Data, Pic.writeData, ready.master.stage]
    rfl
  · rw [if_neg first, if_neg first]
    simp only [Pics.outb, Pics.inb, pic2Data, Pic.writeData, ready.slave.stage]
    rfl

/-- Lines of one chip are told apart by their inputs. -/
theorem lineOf_eq {other : Fin 16} {n : Nat} (small : n < 16) (same : other < 8 ↔ n < 8) :
    lineOf other = Fin.ofNat 8 n ↔ other = ⟨n, small⟩ := by
  simp only [lineOf, Fin.ext_iff, Fin.val_ofNat, Fin.lt_def] at same ⊢
  have inside : other.val < 16 := other.isLt
  have eight : ((8 : Fin 16) : Nat) = 8 := rfl
  omega

/-- `pic_update_mask` changes the mask bit of its line only. -/
theorem picUpdateMask_spec (ready : pics.Programmed) (small : irq.toNat < 16) (masked : Bool) :
    (picUpdateMask pics irq masked).Programmed ∧
    (∀ other, (picUpdateMask pics irq masked).masked other =
      if other = ⟨irq.toNat, small⟩ then masked else pics.masked other) ∧
    ∀ other, ((picUpdateMask pics irq masked).chip other).irr = (pics.chip other).irr ∧
      ((picUpdateMask pics irq masked).chip other).isr = (pics.chip other).isr := by
  rw [picUpdateMask_eq ready (by rw [UInt8.lt_iff_toNat_lt]; exact small)]
  have first : irq < 8 ↔ irq.toNat < 8 := UInt8.lt_iff_toNat_lt
  by_cases low : irq.toNat < 8
  · rw [if_pos (first.mpr low)]
    refine ⟨⟨⟨ready.master.stage, ready.master.base, ready.master.cascade, ready.master.autoEoi⟩,
      ready.slave⟩, fun other => ?_, fun other => ?_⟩
    · simp only [Pics.masked, Pics.chip]
      by_cases here : other < 8
      · rw [if_pos here, if_pos here]
        simp only [Pic.masked, updated_bit, lineOf_eq small (iff_of_true here low)]
      · have different : other ≠ ⟨irq.toNat, small⟩ := by
          rintro rfl
          exact here low
        rw [if_neg here, if_neg here, if_neg different]
    · simp only [Pics.chip]
      split <;> exact ⟨rfl, rfl⟩
  · rw [if_neg (mt first.mp low)]
    refine ⟨⟨ready.master, ⟨ready.slave.stage, ready.slave.base, ready.slave.cascade,
      ready.slave.autoEoi⟩⟩, fun other => ?_, fun other => ?_⟩
    · simp only [Pics.masked, Pics.chip]
      by_cases here : other < 8
      · have different : other ≠ ⟨irq.toNat, small⟩ := by
          rintro rfl
          exact low here
        rw [if_pos here, if_pos here, if_neg different]
      · rw [if_neg here, if_neg here]
        simp only [Pic.masked, updated_bit, lineOf_eq small (iff_of_false here low)]
    · simp only [Pics.chip]
      split <;> exact ⟨rfl, rfl⟩

/-- A number that is no line does nothing. -/
theorem picUpdateMask_beyond (large : ¬ irq.toNat < 16) (masked : Bool) :
    picUpdateMask pics irq masked = pics :=
  if_pos (by rw [ge_iff_le, UInt8.le_iff_toNat_le]; exact Nat.le_of_not_lt large)

/-- The mask registers stand for a set of lines. -/
structure Masks (pics : Pics) (masks : Finset (Fin 16)) : Prop where
  ready : pics.Programmed
  bits : ∀ irq, pics.masked irq = decide (irq ∈ masks)

theorem Masks.update (isMasks : Masks pics masks) (small : irq.toNat < 16) (masked : Bool) :
    Masks (picUpdateMask pics irq masked)
      (if masked then insert ⟨irq.toNat, small⟩ masks else masks.erase ⟨irq.toNat, small⟩) := by
  obtain ⟨ready, bits, _⟩ := picUpdateMask_spec isMasks.ready small masked
  refine ⟨ready, fun other => ?_⟩
  rw [bits, isMasks.bits]
  by_cases same : other = ⟨irq.toNat, small⟩ <;> cases masked <;> simp [same]

/-- `pic_init` masks every line. -/
theorem picInit_masks (pics : Pics) : Masks (picInit pics) Finset.univ :=
  ⟨picInit_programmed pics, by rw [picInit_eq]; decide⟩

theorem Masks.call (isMasks : Masks pics masks) (call : PicCall) :
    Masks (call.apply pics) (call.onMasks masks) := by
  cases call with
  | mask irq =>
      simp only [PicCall.apply, PicCall.onMasks, picMask]
      by_cases small : irq.toNat < 16
      · rw [dif_pos small]
        exact isMasks.update small true
      · rwa [dif_neg small, picUpdateMask_beyond small]
  | unmask irq =>
      have bounds : (irq ≥ 8 ∧ irq < 16) ↔ 8 ≤ irq ∧ irq.toNat < 16 := by
        rw [UInt8.lt_iff_toNat_lt]
        rfl
      simp only [PicCall.apply, PicCall.onMasks, picUnmask, bounds]
      by_cases small : irq.toNat < 16
      · rw [dif_pos small]
        by_cases behind : 8 ≤ irq
        · rw [if_pos ⟨behind, small⟩, if_pos behind]
          exact (@Masks.update pics 2 masks isMasks (by decide) false).update small false
        · rw [if_neg (fun both => behind both.1), if_neg behind]
          exact isMasks.update small false
      · rw [dif_neg small, if_neg (fun both => small both.2), picUpdateMask_beyond small]
        exact isMasks

/-- Any calls after `pic_init` act on the set of masked lines. -/
theorem Masks.calls (isMasks : Masks pics masks) (calls : List PicCall) :
    Masks (calls.foldl PicCall.apply pics) (calls.foldl PicCall.onMasks masks) := by
  induction calls generalizing pics masks with
  | nil => exact isMasks
  | cons call calls ih => exact ih (isMasks.call call)

/-- Whether a line is open can be read off the set. -/
theorem Masks.open_iff (isMasks : Masks pics masks) (irq : Fin 16) :
    pics.Open irq ↔ irq ∉ masks ∧ (8 ≤ irq → 2 ∉ masks) := by
  simp only [Pics.Open, isMasks.bits, decide_eq_false_iff_not]

/-- **The mask registers are a set of lines.** Whatever the chips did before, after
`pic_init` and any calls of `pic_mask` and `pic_unmask`, with any numbers, the two mask
registers are the set that the calls compute from the set of all lines. A call to
`pic_unmask` then opens its line, the cascade included, and closes no other line; a call
to `pic_mask` closes its line and opens none. -/
theorem pic_masks_exact (pics : Pics) (calls : List PicCall) :
    Masks (calls.foldl PicCall.apply (picInit pics)) (calls.foldl PicCall.onMasks Finset.univ) ∧
    ∀ irq : Fin 16,
      (picUnmask (calls.foldl PicCall.apply (picInit pics)) (UInt8.ofNat irq)).Open irq ∧
      ¬ (picMask (calls.foldl PicCall.apply (picInit pics)) (UInt8.ofNat irq)).Open irq ∧
      (∀ other, (calls.foldl PicCall.apply (picInit pics)).Open other →
        (picUnmask (calls.foldl PicCall.apply (picInit pics)) (UInt8.ofNat irq)).Open other ∧
        ((picMask (calls.foldl PicCall.apply (picInit pics)) (UInt8.ofNat irq)).Open other ∨
          other = irq ∨ irq = 2 ∧ 8 ≤ other)) ∧
      ∀ other, (picMask (calls.foldl PicCall.apply (picInit pics)) (UInt8.ofNat irq)).Open other →
        (calls.foldl PicCall.apply (picInit pics)).Open other := by
  have isMasks := (picInit_masks pics).calls calls
  refine ⟨isMasks, fun irq => ?_⟩
  generalize calls.foldl PicCall.apply (picInit pics) = pics at *
  generalize calls.foldl PicCall.onMasks Finset.univ = masks at *
  have byte : (UInt8.ofNat irq).toNat = irq ∧ (8 ≤ UInt8.ofNat irq ↔ 8 ≤ irq) := by
    clear isMasks
    revert irq
    decide
  have onMask : PicCall.onMasks masks (.mask (UInt8.ofNat irq)) = insert irq masks := by
    simp only [PicCall.onMasks, byte.1, irq.isLt, dite_true]
  have onUnmask : PicCall.onMasks masks (.unmask (UInt8.ofNat irq)) =
      (if 8 ≤ irq then masks.erase 2 else masks).erase irq := by
    simp only [PicCall.onMasks, byte.1, byte.2, irq.isLt, dite_true]
  have masked : Masks (picMask pics (UInt8.ofNat irq)) (insert irq masks) :=
    onMask ▸ isMasks.call (.mask (UInt8.ofNat irq))
  have unmasked : Masks (picUnmask pics (UInt8.ofNat irq))
      ((if 8 ≤ irq then masks.erase 2 else masks).erase irq) :=
    onUnmask ▸ isMasks.call (.unmask (UInt8.ofNat irq))
  simp only [masked.open_iff, unmasked.open_iff, isMasks.open_iff]
  refine ⟨⟨Finset.notMem_erase _ _, fun behind => ?_⟩, fun opened => ?_,
    fun other opened => ⟨⟨?_, ?_⟩, ?_⟩, fun other opened => ⟨?_, fun behind => ?_⟩⟩
  · rw [if_pos behind]
    exact fun member => Finset.notMem_erase 2 masks (Finset.mem_of_mem_erase member)
  · exact opened.1 (Finset.mem_insert_self _ _)
  · intro member
    have member := Finset.mem_of_mem_erase member
    split at member
    · exact opened.1 (Finset.mem_of_mem_erase member)
    · exact opened.1 member
  · intro behind member
    have member := Finset.mem_of_mem_erase member
    split at member
    · exact opened.2 behind (Finset.mem_of_mem_erase member)
    · exact opened.2 behind member
  · by_cases same : other = irq
    · exact .inr (.inl same)
    by_cases cascade : irq = 2 ∧ 8 ≤ other
    · exact .inr (.inr cascade)
    refine .inl ⟨?_, fun behind => ?_⟩
    · rw [Finset.mem_insert, not_or]
      exact ⟨same, opened.1⟩
    · rw [Finset.mem_insert, not_or]
      exact ⟨fun isCascade => cascade ⟨isCascade.symm, behind⟩, opened.2 behind⟩
  · exact fun member => opened.1 (Finset.mem_insert_of_mem member)
  · exact fun member => opened.2 behind (Finset.mem_insert_of_mem member)

end Masks

end GodOs
