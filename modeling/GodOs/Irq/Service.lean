import GodOs.Irq.Pic

/-!
# The service of interrupts

Devices raise and withdraw requests at any time; the processor acknowledges one while
no handler runs, `irq_dispatch` finds the line from the vector, and the end of interrupt
follows the handler. `irq_service_exact` says that over all runs each request is
dispatched once, under its own line, and that between two handlers nothing stays in
service, so that no open line is ever held back.
-/

namespace GodOs

open Lib

def idtIrqBase : Nat := 32
def idtIrqLast : Nat := 47
def idtIrqCount : Nat := idtIrqLast - idtIrqBase + 1

/-- The line that `irq_dispatch` computes from the vector, as a 64-bit difference. -/
def irqNumber (vector : Nat) : Nat := (BitVec.ofNat 64 vector - BitVec.ofNat 64 idtIrqBase).toNat

/-- Where the processor is: no interrupt, before the handler, or before its end. -/
inductive ServiceStage where
  | idle
  | entered (vector : Nat)
  | handled (irq : Nat)

structure IrqSystem where
  pics : Pics
  stage : ServiceStage

/-- The number of a line of each chip. -/
def masterLine (line : Fin 8) : Fin 16 := ⟨line, by omega⟩

def slaveLine (line : Fin 8) : Fin 16 := ⟨8 + line, by omega⟩

/-- The line whose request the chips offer. -/
def Pics.first? (pics : Pics) : Option (Fin 16) :=
  match pics.intr? with
  | none => none
  | some line =>
      if line = 2 then pics.slave.request?.map slaveLine else some (masterLine line)

inductive IrqEvent where
  | raised (irq : Fin 16)
  | withdrawn (irq : Fin 16)
  | called (call : PicCall)
  | accepted (vector : Nat) (taken : Option (Fin 16))
  | late (irq : Fin 16) (vector : Nat)
  | dispatched (irq : Nat)
  | finished (irq : Nat)

/-- One step of the devices, the chips or the processor. A handler runs with interrupts
off, so the processor accepts one only between two handlers; a vector without a request
is a spurious one. A request behind the cascade may also be withdrawn while the
processor is already asking for its vector. -/
inductive IrqStep : IrqSystem → IrqEvent → IrqSystem → Prop where
  | raise {s : IrqSystem} {irq : Fin 16} (device : irq ≠ 2) (quiet : ¬ s.pics.Latched irq) :
      IrqStep s (.raised irq) { s with pics := s.pics.setRequest irq true }
  | withdraw {s : IrqSystem} {irq : Fin 16} (latched : s.pics.Latched irq) :
      IrqStep s (.withdrawn irq) { s with pics := s.pics.setRequest irq false }
  | call {pics : Pics} (call : PicCall) :
      IrqStep ⟨pics, .idle⟩ (.called call) ⟨call.apply pics, .idle⟩
  | accept {pics pics' : Pics} {vector : UInt8} (given : pics.inta = (pics', some vector)) :
      IrqStep ⟨pics, .idle⟩ (.accepted vector.toNat pics.first?) ⟨pics', .entered vector.toNat⟩
  | late {pics : Pics} {inner : Fin 8} (asked : pics.intr? = some 2)
      (offered : pics.slave.request? = some inner)
      (gone : ({ pics.slave with irr := pics.slave.irr.erase inner } : Pic).request? = none) :
      IrqStep ⟨pics, .idle⟩
        (.late (slaveLine inner) (pics.slave.vector 7).toNat)
        ⟨⟨pics.master.serve 2, { pics.slave with irr := pics.slave.irr.erase inner }⟩,
          .entered (pics.slave.vector 7).toNat⟩
  | dispatch {pics : Pics} {vector : Nat} :
      IrqStep ⟨pics, .entered vector⟩ (.dispatched (irqNumber vector))
        ⟨pics, if irqNumber vector ≥ idtIrqCount then .idle else .handled (irqNumber vector)⟩
  | finish {pics : Pics} {irq : Nat} :
      IrqStep ⟨pics, .handled irq⟩ (.finished irq) ⟨picSendEoi pics (UInt8.ofNat irq), .idle⟩

/-- What is in service while the interrupt of a line is handled: the line and its
cascade. A spurious interrupt has the number of the last line of its chip, and puts
nothing into service there. -/
def Serving (pics : Pics) (irq : Fin 16) : Prop :=
  if irq < 8 then
    pics.slave.isr = ∅ ∧ (pics.master.isr = {lineOf irq} ∨ irq = 7 ∧ pics.master.isr = ∅)
  else
    pics.master.isr = {2} ∧ (pics.slave.isr = {lineOf irq} ∨ irq = 15 ∧ pics.slave.isr = ∅)

/-- What the chips have in service at each place of the processor. -/
def InService (pics : Pics) : ServiceStage → Prop
  | .idle => pics.master.isr = ∅ ∧ pics.slave.isr = ∅
  | .entered vector => ∃ irq : Fin 16, irq ≠ 2 ∧ vector = idtIrqBase + irq ∧ Serving pics irq
  | .handled number => ∃ irq : Fin 16, irq ≠ 2 ∧ number = irq ∧ Serving pics irq

/-- The invariant of the service. The cascade is no device, so it latches nothing. -/
structure Serviced (s : IrqSystem) : Prop where
  ready : s.pics.Programmed
  wired : ¬ s.pics.Latched 2
  service : InService s.pics s.stage

section Chips

variable {pics pics' : Pics} {irq other : Fin 16} {line : Fin 8} {s s' : IrqSystem} {event : IrqEvent}

/-- Requests change at one line. -/
theorem setRequest_latched (pics : Pics) (irq other : Fin 16) (on : Bool) :
    (pics.setRequest irq on).Latched other ↔ if other = irq then on = true else pics.Latched other := by
  have inject : (other < 8 ↔ irq < 8) → (lineOf other = Fin.ofNat 8 irq ↔ other = irq) :=
    @lineOf_eq other irq irq.isLt
  simp only [Pics.Latched, Pics.setRequest, Pics.chip]
  by_cases first : irq < 8
  · simp only [if_pos first]
    by_cases here : other < 8
    · simp only [if_pos here]
      by_cases same : other = irq
      · cases on <;> simp [same, lineOf]
      · have apart := mt (inject (iff_of_true here first)).mp same
        cases on <;> simp only [Bool.false_eq_true, if_true, if_false, Finset.mem_erase,
          Finset.mem_insert, same, apart, ne_eq, not_false_eq_true, true_and, false_or]
    · have apart : other ≠ irq := by
        rintro rfl
        exact here first
      simp only [if_neg here, if_neg apart]
  · simp only [if_neg first]
    by_cases here : other < 8
    · have apart : other ≠ irq := by
        rintro rfl
        exact first here
      simp only [if_pos here, if_neg apart]
    · simp only [if_neg here]
      by_cases same : other = irq
      · cases on <;> simp [same, lineOf]
      · have apart := mt (inject (iff_of_false here first)).mp same
        cases on <;> simp only [Bool.false_eq_true, if_true, if_false, Finset.mem_erase,
          Finset.mem_insert, same, apart, ne_eq, not_false_eq_true, true_and, false_or]

/-- A change of requests touches nothing else. -/
theorem setRequest_rest (pics : Pics) (irq : Fin 16) (on : Bool) :
    (pics.Programmed → (pics.setRequest irq on).Programmed) ∧
      (pics.setRequest irq on).master.isr = pics.master.isr ∧
      (pics.setRequest irq on).slave.isr = pics.slave.isr := by
  simp only [Pics.setRequest]
  split
  · exact ⟨fun ready => ⟨⟨ready.master.stage, ready.master.base, ready.master.cascade,
      ready.master.autoEoi⟩, ready.slave⟩, rfl, rfl⟩
  · exact ⟨fun ready => ⟨ready.master, ⟨ready.slave.stage, ready.slave.base, ready.slave.cascade,
      ready.slave.autoEoi⟩⟩, rfl, rfl⟩

/-- The vectors of a programmed chip. -/
theorem Pic.Programmed.vector {pic : Pic} {base cascade : UInt8} (ready : pic.Programmed base cascade)
    (known : base = picIcw2Master ∨ base = picIcw2Slave) (line : Fin 8) :
    (pic.vector line).toNat = base.toNat + line := by
  rw [Pic.vector, ready.base]
  revert line
  rcases known with rfl | rfl <;> decide

/-- What acknowledging does on programmed chips: nothing is asked for and the vector is
spurious, or the first chip serves one of its lines, or both serve a line of the second. -/
theorem Pics.inta_cases (ready : pics.Programmed) :
    (pics.intr? = none ∧ pics.first? = none ∧ pics.inta = (pics, some (pics.master.vector 7))) ∨
    (∃ line ≠ 2, pics.intr? = some line ∧ pics.first? = some (masterLine line) ∧
      pics.inta = (⟨pics.master.serve line, pics.slave⟩, some (pics.master.vector line))) ∨
    ∃ inner, pics.intr? = some 2 ∧ pics.slave.request? = some inner ∧
      pics.first? = some (slaveLine inner) ∧
      pics.inta = (⟨pics.master.serve 2, pics.slave.serve inner⟩, some (pics.slave.vector inner)) := by
  have wiring : ∀ line : Fin 8, picIcw3Master.toBitVec.getLsbD line = true ↔ line = 2 := by decide
  have identity : (picIcw3Slave &&& 7).toNat = 2 := rfl
  cases asked : pics.intr? with
  | none => exact .inl ⟨rfl, by rw [first?, asked], by rw [inta, asked]⟩
  | some line =>
      refine .inr ?_
      by_cases cascade : line = 2
      · subst cascade
        have behind : pics.slave.request?.isSome := by
          have offers := (Pic.request?_eq_some.mp asked).1.2.1
          by_contra silent
          simp [cascaded, silent] at offers
        obtain ⟨inner, offered⟩ := Option.isSome_iff_exists.mp behind
        refine .inr ⟨inner, rfl, offered, ?_, ?_⟩
        · simp only [first?, asked, offered, if_true, Option.map_some]
        · simp only [inta, asked, ready.master.cascade, (wiring 2).mpr rfl, ready.slave.cascade,
            identity, if_true, Pic.acknowledge, offered]
          rfl
      · have direct : ¬ picIcw3Master.toBitVec.getLsbD line = true := mt (wiring line).mp cascade
        refine .inl ⟨line, cascade, rfl, ?_, ?_⟩
        · simp only [first?, asked, if_neg cascade]
        · simp only [inta, asked, ready.master.cascade, if_neg direct]

/-- Every line is one of the first chip or one of the second. -/
theorem line_cases (irq : Fin 16) : (∃ line, irq = masterLine line) ∨ ∃ line, irq = slaveLine line := by
  revert irq
  decide

theorem masterLine_chip (line : Fin 8) : masterLine line < 8 ∧ lineOf (masterLine line) = line ∧
    (masterLine line = 2 ↔ line = 2) := by
  revert line
  decide

theorem slaveLine_chip (line : Fin 8) : ¬ slaveLine line < 8 ∧ lineOf (slaveLine line) = line ∧
    slaveLine line ≠ 2 := by
  revert line
  decide

theorem latched_master {line : Fin 8} :
    pics.Latched (masterLine line) ↔ line ∈ pics.master.irr := by
  obtain ⟨chip, place, _⟩ := masterLine_chip line
  rw [Pics.Latched, Pics.chip, if_pos chip, place]

theorem latched_slave {line : Fin 8} : pics.Latched (slaveLine line) ↔ line ∈ pics.slave.irr := by
  obtain ⟨chip, place, _⟩ := slaveLine_chip line
  rw [Pics.Latched, Pics.chip, if_neg chip, place]

theorem open_master {line : Fin 8} :
    pics.Open (masterLine line) ↔ pics.master.masked line = false := by
  obtain ⟨chip, place, _⟩ := masterLine_chip line
  rw [Pics.Open, Pics.masked, Pics.chip, if_pos chip, place]
  exact and_iff_left fun behind => absurd chip (by omega)

theorem open_slave {line : Fin 8} :
    pics.Open (slaveLine line) ↔ pics.slave.masked line = false ∧ pics.master.masked 2 = false := by
  obtain ⟨chip, place, _⟩ := slaveLine_chip line
  have cascade : pics.masked 2 = pics.master.masked 2 := rfl
  rw [Pics.Open, Pics.masked, Pics.chip, if_neg chip, place, cascade]
  exact and_congr_right fun _ => ⟨fun behind => behind (by omega), fun unmasked _ => unmasked⟩

/-- The order in which the chips offer open requests: the second chip at the place of
its cascade. -/
def rank (irq : Fin 16) : Nat := if irq < 8 then 16 * irq else 24 + irq

theorem rank_master (line : Fin 8) : rank (masterLine line) = 16 * line :=
  if_pos (masterLine_chip line).1

theorem rank_slave (line : Fin 8) : rank (slaveLine line) = 24 + (8 + line) :=
  if_neg (slaveLine_chip line).1

/-- With nothing in service the processor sees the open requests of the first chip, and
an open request of the second as one of line 2. -/
theorem Pics.intr_offers (ready : pics.Programmed)
    (idle : pics.master.isr = ∅ ∧ pics.slave.isr = ∅) :
    (line ≠ 2 → (pics.cascaded.Offers line ↔
      pics.Latched (masterLine line) ∧ pics.Open (masterLine line))) ∧
    (pics.cascaded.Offers 2 ↔ pics.slave.request?.isSome ∧ pics.master.masked 2 = false) ∧
    (pics.slave.Offers line ∧ pics.master.masked 2 = false ↔
      pics.Latched (slaveLine line) ∧ pics.Open (slaveLine line)) := by
  have bits : ∀ line, pics.cascaded.masked line = pics.master.masked line := fun _ => rfl
  have quiet : ∀ line : Fin 8, ∀ served ∈ pics.cascaded.isr, line < served := fun _ served member =>
    absurd (idle.1 ▸ member) (Finset.notMem_empty _)
  have quiet' : ∀ line : Fin 8, ∀ served ∈ pics.slave.isr, line < served := fun _ served member =>
    absurd (idle.2 ▸ member) (Finset.notMem_empty _)
  refine ⟨fun other => ?_, ?_, ?_⟩
  · rw [latched_master, open_master, Pic.Offers, bits]
    have requests : line ∈ pics.cascaded.irr ↔ line ∈ pics.master.irr := by
      simp only [cascaded]
      split <;> simp [other]
    rw [requests]
    exact ⟨fun offers => ⟨offers.2.1, offers.2.2.1⟩, fun both =>
      ⟨ready.master.stage, both.1, both.2, quiet line⟩⟩
  · rw [Pic.Offers, bits]
    have requests : 2 ∈ pics.cascaded.irr ↔ pics.slave.request?.isSome := by
      simp only [cascaded]
      split
      next some => simp [some]
      next none => simp [none]
    rw [requests]
    exact ⟨fun offers => ⟨offers.2.1, offers.2.2.1⟩, fun both =>
      ⟨ready.master.stage, both.1, both.2, quiet 2⟩⟩
  · rw [latched_slave, open_slave, Pic.Offers]
    exact ⟨fun both => ⟨both.1.2.1, both.1.2.2.1, both.2⟩, fun both =>
      ⟨⟨ready.slave.stage, both.1, both.2.1, quiet' line⟩, both.2.2⟩⟩

/-- What accepting the request of a line does: it was the first of the open ones, and it
alone is over and in service. -/
structure Taken (pics pics' : Pics) (irq : Fin 16) : Prop where
  device : irq ≠ 2
  latched : pics.Latched irq
  opened : pics.Open irq
  first : ∀ other ≠ 2, pics.Latched other → pics.Open other → rank irq ≤ rank other
  ready : pics'.Programmed
  requests : ∀ other, pics'.Latched other ↔ other ≠ irq ∧ pics.Latched other
  serving : Serving pics' irq

theorem Pic.Programmed.serve {pic : Pic} {base cascade : UInt8} (ready : pic.Programmed base cascade)
    (idle : pic.isr = ∅) : (pic.serve line).Programmed base cascade ∧ (pic.serve line).isr = {line} := by
  refine ⟨⟨ready.stage, ready.base, ready.cascade, ready.autoEoi⟩, ?_⟩
  simp only [Pic.serve, ready.autoEoi, idle]
  rfl

/-- The first chip serves one of its own lines. -/
theorem Pics.taken_master (ready : pics.Programmed)
    (idle : pics.master.isr = ∅ ∧ pics.slave.isr = ∅) (direct : line ≠ 2)
    (asked : pics.intr? = some line) :
    Taken pics ⟨pics.master.serve line, pics.slave⟩ (masterLine line) := by
  obtain ⟨chip, place, cascade⟩ := masterLine_chip line
  obtain ⟨offers, before⟩ := Pic.request?_eq_some.mp asked
  obtain ⟨programmed, serving⟩ := @Pic.Programmed.serve line _ _ _ ready.master idle.1
  have mine := ((@Pics.intr_offers pics line ready idle).1 direct).mp offers
  refine
    { device := mt cascade.mp direct, latched := mine.1, opened := mine.2, first := ?_,
      ready := ⟨programmed, ready.slave⟩, requests := ?_, serving := ?_ }
  · intro other device latched opened
    rcases line_cases other with ⟨later, rfl⟩ | ⟨inner, rfl⟩
    · have notBefore : ¬ later < line := fun earlier => before later earlier
        (((@Pics.intr_offers pics later ready idle).1 (mt (masterLine_chip later).2.2.mpr device)).mpr
          ⟨latched, opened⟩)
      rw [rank_master, rank_master]
      omega
    · have both := (@Pics.intr_offers pics inner ready idle).2.2.mpr ⟨latched, opened⟩
      have behind : pics.cascaded.Offers 2 := (@Pics.intr_offers pics inner ready idle).2.1.mpr
        ⟨by obtain ⟨_, _, found⟩ := both.1.request; rw [found]; rfl, both.2⟩
      have notBefore : ¬ 2 < line := fun earlier => before 2 earlier behind
      rw [rank_master, rank_slave]
      omega
  · intro other
    rcases line_cases other with ⟨later, rfl⟩ | ⟨inner, rfl⟩
    · rw [latched_master, latched_master]
      simp only [Pic.serve, Finset.mem_erase, masterLine, ne_eq, Fin.mk.injEq, Fin.val_inj]
    · rw [latched_slave, latched_slave]
      have apart : slaveLine inner ≠ masterLine line := by
        rintro same
        exact (slaveLine_chip inner).1 (same ▸ chip)
      exact (and_iff_right apart).symm
  · rw [Serving, if_pos chip, place]
    exact ⟨idle.2, .inl serving⟩

/-- Both chips serve a line of the second. -/
theorem Pics.taken_slave (ready : pics.Programmed)
    (idle : pics.master.isr = ∅ ∧ pics.slave.isr = ∅) (wired : ¬ pics.Latched 2)
    (asked : pics.intr? = some 2) (offered : pics.slave.request? = some line) :
    Taken pics ⟨pics.master.serve 2, pics.slave.serve line⟩ (slaveLine line) := by
  obtain ⟨chip, place, device⟩ := slaveLine_chip line
  obtain ⟨offers, before⟩ := Pic.request?_eq_some.mp asked
  obtain ⟨offers', before'⟩ := Pic.request?_eq_some.mp offered
  obtain ⟨programmed, serving⟩ := @Pic.Programmed.serve 2 _ _ _ ready.master idle.1
  obtain ⟨programmed', serving'⟩ := @Pic.Programmed.serve line _ _ _ ready.slave idle.2
  have cascade := (@Pics.intr_offers pics line ready idle).2.1.mp offers
  have mine := (@Pics.intr_offers pics line ready idle).2.2.mp ⟨offers', cascade.2⟩
  refine
    { device := device, latched := mine.1, opened := mine.2, first := ?_,
      ready := ⟨programmed, programmed'⟩, requests := ?_, serving := ?_ }
  · intro other device' latched opened
    rcases line_cases other with ⟨later, rfl⟩ | ⟨inner, rfl⟩
    · have direct := mt (masterLine_chip later).2.2.mpr device'
      have notBefore : ¬ later < 2 := fun earlier => before later earlier
        (((@Pics.intr_offers pics later ready idle).1 direct).mpr ⟨latched, opened⟩)
      have inside : later.val < 8 := later.isLt
      have apart : later.val ≠ 2 := fun same => direct (Fin.ext same)
      rw [rank_slave, rank_master]
      omega
    · have both := (@Pics.intr_offers pics inner ready idle).2.2.mpr ⟨latched, opened⟩
      have notBefore : ¬ inner < line := fun earlier => before' inner earlier both.1
      rw [rank_slave, rank_slave]
      omega
  · intro other
    rcases line_cases other with ⟨later, rfl⟩ | ⟨inner, rfl⟩
    · rw [latched_master, latched_master]
      have apart : masterLine later ≠ slaveLine line := by
        rintro same
        exact chip (same ▸ (masterLine_chip later).1)
      have notWired : 2 ∉ pics.master.irr := mt latched_master.mpr wired
      rw [and_iff_right apart]
      simp only [Pic.serve, Finset.mem_erase]
      refine and_iff_right_of_imp fun member => ?_
      rintro rfl
      exact notWired member
    · rw [latched_slave, latched_slave]
      simp only [Pic.serve, Finset.mem_erase, slaveLine, ne_eq, Fin.mk.injEq]
      have same : 8 + inner.val = 8 + line.val ↔ inner = line := by
        rw [Nat.add_left_cancel_iff, Fin.val_inj]
      rw [same]
  · rw [Serving, if_neg chip, place]
    exact ⟨serving, .inl serving'⟩

/-- With nothing in service a silent pair of chips has no open request. -/
theorem Pics.silent (ready : pics.Programmed) (idle : pics.master.isr = ∅ ∧ pics.slave.isr = ∅)
    (silent : pics.intr? = none) : ∀ irq ≠ 2, ¬ (pics.Latched irq ∧ pics.Open irq) := by
  intro irq device both
  rcases line_cases irq with ⟨line, rfl⟩ | ⟨line, rfl⟩
  · exact Pic.request?_eq_none.mp silent line
      (((@Pics.intr_offers pics line ready idle).1 (mt (masterLine_chip line).2.2.mpr device)).mpr both)
  · obtain ⟨offers, unmasked⟩ := (@Pics.intr_offers pics line ready idle).2.2.mpr both
    obtain ⟨first, _, found⟩ := offers.request
    exact Pic.request?_eq_none.mp silent 2
      ((@Pics.intr_offers pics line ready idle).2.1.mpr ⟨by rw [found]; rfl, unmasked⟩)

/-- What the processor gets from programmed chips with nothing in service: a request that
was the first of the open ones, or the spurious vector of line 7 if there is none. -/
theorem Pics.inta_spec {vector : UInt8} (ready : pics.Programmed)
    (idle : pics.master.isr = ∅ ∧ pics.slave.isr = ∅) (wired : ¬ pics.Latched 2)
    (given : pics.inta = (pics', some vector)) :
    (pics.intr? = none ∧ pics.first? = none ∧ pics' = pics ∧ vector.toNat = 32 + 7) ∨
    ∃ irq, pics.first? = some irq ∧ vector.toNat = 32 + irq ∧ Taken pics pics' irq := by
  rcases Pics.inta_cases ready with ⟨silent, none', result⟩ | ⟨line, direct, asked, isFirst, result⟩ |
    ⟨inner, asked, offered, isFirst, result⟩
  · obtain ⟨rfl, same⟩ := Prod.mk.inj (given.symm.trans result)
    obtain rfl := Option.some.inj same
    exact .inl ⟨silent, none', rfl, ready.master.vector (.inl rfl) 7⟩
  · obtain ⟨rfl, same⟩ := Prod.mk.inj (given.symm.trans result)
    obtain rfl := Option.some.inj same
    exact .inr ⟨_, isFirst, ready.master.vector (.inl rfl) line,
      Pics.taken_master ready idle direct asked⟩
  · obtain ⟨rfl, same⟩ := Prod.mk.inj (given.symm.trans result)
    obtain rfl := Option.some.inj same
    refine .inr ⟨_, isFirst, ?_, Pics.taken_slave ready idle wired asked offered⟩
    rw [ready.slave.vector (.inr rfl) inner]
    simp only [slaveLine]
    have base : picIcw2Slave.toNat = 40 := rfl
    omega

/-- The end of interrupt on a chip with at most one line in service. -/
theorem Pic.eoi_serving {pic : Pic} {spurious : Prop}
    (serving : pic.isr = {line} ∨ spurious ∧ pic.isr = ∅) :
    pic.writeCommand picEoi = { pic with isr := ∅ } := by
  rcases serving with single | ⟨_, nothing⟩
  · exact Pic.eoi_single single
  · refine (Pic.eoi_idle nothing).trans ?_
    rw [← nothing]

theorem Pic.Programmed.idle {pic : Pic} {base cascade : UInt8} (ready : pic.Programmed base cascade) :
    ({ pic with isr := ∅ } : Pic).Programmed base cascade :=
  ⟨ready.stage, ready.base, ready.cascade, ready.autoEoi⟩

/-- The number of a line fits the argument of `pic_send_eoi`. -/
theorem irqByte (irq : Fin 16) :
    ¬ UInt8.ofNat irq ≥ 16 ∧ (UInt8.ofNat irq ≥ 8 ↔ ¬ irq < 8) ∧ (UInt8.ofNat irq).toNat = irq := by
  revert irq
  decide

/-- The end of interrupt takes out of service what the interrupt of its line put there. -/
theorem Serving.finish (serving : Serving pics irq) : picSendEoi pics (UInt8.ofNat irq) =
    ⟨{ pics.master with isr := ∅ }, { pics.slave with isr := ∅ }⟩ := by
  obtain ⟨isLine, behind, _⟩ := irqByte irq
  have first (pics : Pics) : pics.outb pic1Cmd picEoi =
      { pics with master := pics.master.writeCommand picEoi } := rfl
  have second : pics.outb pic2Cmd picEoi = { pics with slave := pics.slave.writeCommand picEoi } := rfl
  rw [picSendEoi, if_neg isLine]
  unfold Serving at serving
  by_cases chip : irq < 8
  · rw [if_pos chip] at serving
    obtain ⟨quiet, served⟩ := serving
    rw [if_neg (mt behind.mp (not_not_intro chip)), first, Pic.eoi_serving served, ← quiet]
  · rw [if_neg chip] at serving
    obtain ⟨cascade, served⟩ := serving
    rw [if_pos (behind.mpr chip), second, first, Pic.eoi_serving served]
    congr 1
    exact Pic.eoi_single cascade

/-- A call of the driver leaves requests and service alone. -/
theorem PicCall.apply_rest (ready : pics.Programmed) (call : PicCall) :
    (call.apply pics).Programmed ∧
      ∀ other, ((call.apply pics).chip other).irr = (pics.chip other).irr ∧
        ((call.apply pics).chip other).isr = (pics.chip other).isr := by
  have update {pics : Pics} (ready : pics.Programmed) (irq : UInt8) (masked : Bool) :
      (picUpdateMask pics irq masked).Programmed ∧
        ∀ other, ((picUpdateMask pics irq masked).chip other).irr = (pics.chip other).irr ∧
          ((picUpdateMask pics irq masked).chip other).isr = (pics.chip other).isr := by
    by_cases small : irq.toNat < 16
    · have spec := picUpdateMask_spec ready small masked
      exact ⟨spec.1, spec.2.2⟩
    · rw [picUpdateMask_beyond small]
      exact ⟨ready, fun _ => ⟨rfl, rfl⟩⟩
  cases call with
  | mask irq => exact update ready irq true
  | unmask irq =>
      simp only [PicCall.apply, picUnmask]
      split
      · obtain ⟨ready', first⟩ := update ready 2 false
        obtain ⟨ready'', second⟩ := update ready' irq false
        exact ⟨ready'', fun other => ⟨(second other).1.trans (first other).1,
          (second other).2.trans (first other).2⟩⟩
      · exact update ready irq false

end Chips

/-- A request that came for a line: a device raised it, or the processor got the vector
of the line for a request that was gone. -/
def IrqEvent.came (irq : Fin 16) : IrqEvent → Nat
  | .raised line => if line = irq then 1 else 0
  | .accepted vector none => if vector = idtIrqBase + irq then 1 else 0
  | .late _ vector => if vector = idtIrqBase + irq then 1 else 0
  | _ => 0

/-- A request of a line that is over: the device withdrew it, or it was dispatched. -/
def IrqEvent.went (irq : Fin 16) : IrqEvent → Nat
  | .withdrawn line => if line = irq then 1 else 0
  | .late line _ => if line = irq then 1 else 0
  | .dispatched number => if number = irq then 1 else 0
  | _ => 0

instance (pics : Pics) (irq : Fin 16) : Decidable (pics.Latched irq) :=
  inferInstanceAs (Decidable (_ ∈ _))

/-- The processor has entered the handler of a line and not yet dispatched it. -/
def ServiceStage.due (irq : Fin 16) : ServiceStage → Nat
  | .entered vector => if vector = idtIrqBase + irq then 1 else 0
  | _ => 0

/-- The requests of a line that are on their way. -/
def IrqSystem.pending (s : IrqSystem) (irq : Fin 16) : Nat :=
  (if s.pics.Latched irq then 1 else 0) + s.stage.due irq

section Service

variable {s s' : IrqSystem} {event : IrqEvent} {events : List IrqEvent} {irq : Fin 16}

/-- The line of a vector. -/
theorem irqNumber_eq (irq : Fin 16) : irqNumber (idtIrqBase + irq) = irq := by
  revert irq
  decide

/-- What the chips hold and what is in service, as the invariant sees it. -/
theorem Serviced.of_same {pics pics' : Pics} {stage : ServiceStage} (serviced : Serviced ⟨pics, stage⟩)
    (ready : pics'.Programmed) (wired : ¬ pics'.Latched 2)
    (master : pics'.master.isr = pics.master.isr) (slave : pics'.slave.isr = pics.slave.isr) :
    Serviced ⟨pics', stage⟩ := by
  refine ⟨ready, wired, ?_⟩
  have service := serviced.service
  cases stage <;> simp only [InService, Serving, master, slave] at service ⊢ <;> exact service

/-- Every step keeps the invariant and the count of the requests of every device. -/
theorem Serviced.step (serviced : Serviced s) (step : IrqStep s event s') :
    Serviced s' ∧ ∀ irq ≠ 2, s.pending irq + event.came irq = s'.pending irq + event.went irq := by
  have ⟨ready, wired, service⟩ := serviced
  cases step with
  | @raise _ line device quiet =>
      obtain ⟨programmed, master, slave⟩ := setRequest_rest s.pics line true
      refine ⟨serviced.of_same (programmed ready) ?_ master slave, fun irq _ => ?_⟩
      · rw [setRequest_latched, if_neg device.symm]
        exact wired
      · simp only [IrqSystem.pending, setRequest_latched, IrqEvent.came, IrqEvent.went]
        by_cases same : irq = line
        · subst same
          simp [quiet]
          omega
        · simp only [same, Ne.symm same, if_false]
  | @withdraw _ line latched =>
      obtain ⟨programmed, master, slave⟩ := setRequest_rest s.pics line false
      have device : line ≠ 2 := by
        rintro rfl
        exact wired latched
      refine ⟨serviced.of_same (programmed ready) ?_ master slave, fun irq _ => ?_⟩
      · rw [setRequest_latched, if_neg device.symm]
        exact wired
      · simp only [IrqSystem.pending, setRequest_latched, IrqEvent.came, IrqEvent.went]
        by_cases same : irq = line
        · subst same
          simp [latched]
          omega
        · simp only [same, Ne.symm same, if_false]
  | @call pics call =>
      obtain ⟨programmed, rest⟩ := PicCall.apply_rest ready call
      have latched (other : Fin 16) : (call.apply pics).Latched other ↔ pics.Latched other := by
        rw [Pics.Latched, Pics.Latched, (rest other).1]
      refine ⟨serviced.of_same programmed (mt (latched 2).mp wired) (rest 0).2 (rest 8).2,
        fun irq _ => ?_⟩
      simp only [IrqSystem.pending, latched, IrqEvent.came, IrqEvent.went]
  | @accept pics pics' vector given =>
      rcases Pics.inta_spec ready service wired given with ⟨_, none', rfl, isVector⟩ |
        ⟨line, isFirst, isVector, taken⟩
      · refine ⟨⟨ready, wired, 7, by decide, isVector, ?_⟩, fun irq _ => ?_⟩
        · rw [Serving, if_pos (by decide)]
          exact ⟨service.2, .inr ⟨rfl, service.1⟩⟩
        · simp only [IrqSystem.pending, none', IrqEvent.came, IrqEvent.went, ServiceStage.due]
          omega
      · refine ⟨⟨taken.ready, ?_, line, taken.device, isVector, taken.serving⟩, fun irq _ => ?_⟩
        · rw [taken.requests]
          exact fun both => wired both.2
        · simp only [IrqSystem.pending, isFirst, IrqEvent.came, IrqEvent.went, ServiceStage.due,
            taken.requests, isVector, idtIrqBase]
          by_cases same : irq = line
          · subst same
            simp [taken.latched]
          · have apart : ¬ 32 + line.val = 32 + irq.val := by omega
            simp only [same, apart, ne_eq, not_false_eq_true, true_and, if_false]
  | @late pics inner asked offered gone =>
      have taken := Pics.taken_slave ready service wired asked offered
      have latched (other : Fin 16) :
          (⟨pics.master.serve 2, { pics.slave with irr := pics.slave.irr.erase inner }⟩ : Pics).Latched
            other ↔ other ≠ slaveLine inner ∧ pics.Latched other := by
        rw [← taken.requests]
        simp only [Pics.Latched, Pics.chip]
        split <;> exact Iff.rfl
      have isVector : (pics.slave.vector 7).toNat = 32 + (15 : Fin 16).val :=
        ready.slave.vector (.inr rfl) 7
      obtain ⟨programmed, serving⟩ := @Pic.Programmed.serve 2 _ _ _ ready.master service.1
      refine ⟨⟨⟨programmed, ready.slave.stage, ready.slave.base, ready.slave.cascade,
        ready.slave.autoEoi⟩, ?_, 15, by decide, isVector, ?_⟩, fun irq _ => ?_⟩
      · rw [latched]
        exact fun both => wired both.2
      · rw [Serving, if_neg (by decide)]
        exact ⟨serving, .inr ⟨rfl, service.2⟩⟩
      · simp only [IrqSystem.pending, IrqEvent.came, IrqEvent.went, ServiceStage.due, latched]
        by_cases same : irq = slaveLine inner
        · subst same
          simp only [taken.latched, ne_eq, not_true_eq_false, false_and, if_true, if_false]
          omega
        · simp only [same, Ne.symm same, ne_eq, not_false_eq_true, true_and, if_false]
          omega
  | @dispatch pics vector =>
      obtain ⟨line, device, rfl, serving⟩ := service
      have number := irqNumber_eq line
      have isLine : ¬ line.val ≥ idtIrqCount := Nat.not_le.mpr line.isLt
      rw [number, if_neg isLine]
      refine ⟨⟨ready, wired, line, device, rfl, serving⟩, fun irq _ => ?_⟩
      simp only [IrqSystem.pending, IrqEvent.came, IrqEvent.went, ServiceStage.due, idtIrqBase,
        Nat.add_left_cancel_iff]
      omega
  | @finish pics number =>
      obtain ⟨line, _, rfl, serving⟩ := service
      rw [serving.finish]
      have latched (other : Fin 16) :
          (⟨{ pics.master with isr := ∅ }, { pics.slave with isr := ∅ }⟩ : Pics).Latched other ↔
            pics.Latched other := by
        simp only [Pics.Latched, Pics.chip]
        split <;> exact Iff.rfl
      refine ⟨⟨⟨ready.master.idle, ready.slave.idle⟩, mt (latched 2).mp wired, rfl, rfl⟩, fun irq _ => ?_⟩
      simp only [IrqSystem.pending, latched, IrqEvent.came, IrqEvent.went, ServiceStage.due]

/-- What is accepted: nothing, or the request of a line. -/
theorem Serviced.accepted (serviced : Serviced s) {vector : Nat} {taken : Option (Fin 16)}
    (step : IrqStep s (.accepted vector taken) s') :
    s.stage = .idle ∧ s'.stage = .entered vector ∧
      ((s.pics.intr? = none ∧ taken = none ∧ vector = idtIrqBase + 7) ∨
        ∃ irq, taken = some irq ∧ vector = idtIrqBase + irq ∧ Taken s.pics s'.pics irq) := by
  have ⟨ready, wired, service⟩ := serviced
  generalize isTaken : IrqEvent.accepted vector taken = event at step
  cases step with
  | accept given =>
      obtain ⟨rfl, rfl⟩ := IrqEvent.accepted.inj isTaken
      refine ⟨rfl, rfl, ?_⟩
      rcases Pics.inta_spec ready service wired given with ⟨silent, none', _, isVector⟩ |
        ⟨line, isFirst, isVector, taken⟩
      · exact .inl ⟨silent, none', isVector⟩
      · exact .inr ⟨line, isFirst, isVector, taken⟩
  | _ => cases isTaken

/-- What is dispatched: the line of the vector. -/
theorem Serviced.dispatched (serviced : Serviced s) {number : Nat}
    (step : IrqStep s (.dispatched number) s') :
    s'.stage = .handled number ∧ ∃ irq : Fin 16, irq ≠ 2 ∧ number = irq ∧
      s.stage = .entered (idtIrqBase + irq) := by
  have service := serviced.service
  cases step with
  | dispatch =>
      obtain ⟨irq, device, rfl, _⟩ := service
      have isLine : ¬ irq.val ≥ idtIrqCount := Nat.not_le.mpr irq.isLt
      rw [irqNumber_eq, if_neg isLine]
      exact ⟨rfl, irq, device, rfl, rfl⟩

/-- The end of interrupt leaves the mask register alone. -/
theorem Pic.eoi_imr (pic : Pic) : (pic.writeCommand picEoi).imr = pic.imr := by
  unfold Pic.writeCommand
  rw [if_neg (by decide), if_pos (by decide)]
  split <;> rfl

/-- A request that is withdrawn while the processor asks for its vector was the first open
one. It is gone, and the vector is that of line 15. -/
theorem Serviced.late {vector : Nat} (serviced : Serviced s) (step : IrqStep s (.late irq vector) s') :
    8 ≤ irq ∧ s.pics.Latched irq ∧ s.pics.Open irq ∧
      (∀ other ≠ 2, s.pics.Latched other → s.pics.Open other → rank irq ≤ rank other) ∧
      vector = idtIrqBase + 15 ∧ ¬ s'.pics.Latched irq := by
  obtain ⟨ready, wired, service⟩ := serviced
  cases step with
  | @late pics inner asked offered gone =>
      have taken := Pics.taken_slave ready service wired asked offered
      obtain ⟨chip, place, _⟩ := slaveLine_chip inner
      refine ⟨not_lt.mp chip, taken.latched, taken.opened, taken.first,
        ready.slave.vector (.inr rfl) 7, ?_⟩
      simp only [Pics.Latched, Pics.chip, if_neg chip, place]
      exact Finset.notMem_erase _ _

/-- Only the driver changes the masks. -/
theorem IrqStep.masked (step : IrqStep s event s') (noCall : ∀ call, event ≠ .called call) :
    s'.pics.masked = s.pics.masked := by
  have same {pics pics' : Pics} (master : pics'.master.imr = pics.master.imr)
      (slave : pics'.slave.imr = pics.slave.imr) : pics'.masked = pics.masked := by
    funext irq
    simp only [Pics.masked, Pics.chip, Pic.masked]
    split
    · rw [master]
    · rw [slave]
  cases step with
  | raise | withdraw =>
      refine same ?_ ?_ <;> simp only [Pics.setRequest] <;> split <;> rfl
  | call call => exact absurd rfl (noCall call)
  | accept given =>
      unfold Pics.inta at given
      split at given
      · obtain ⟨rfl, _⟩ := Prod.mk.inj given
        rfl
      · simp only at given
        split at given
        · split at given
          · obtain ⟨rfl, _⟩ := Prod.mk.inj given
            refine same rfl ?_
            unfold Pic.acknowledge
            split <;> rfl
          · cases given
        · obtain ⟨rfl, _⟩ := Prod.mk.inj given
          exact same rfl rfl
  | late => exact same rfl rfl
  | dispatch => rfl
  | finish =>
      unfold picSendEoi
      split
      · rfl
      · split
        · exact same (Pic.eoi_imr _) (Pic.eoi_imr _)
        · exact same (Pic.eoi_imr _) rfl

/-- Where the processor is after the steps that are none of its own. -/
theorem IrqStep.stage_eq (step : IrqStep s event s') :
    match event with
    | .raised _ | .withdrawn _ | .called _ => s'.stage = s.stage
    | .finished _ => s'.stage = .idle
    | _ => True := by
  cases step <;> trivial

/-- Every run from the initialised chips keeps the invariant and the count. -/
theorem Serviced.run {pics : Pics} (run : Steps IrqStep ⟨picInit pics, .idle⟩ events s) :
    Serviced s ∧ ∀ irq ≠ 2, (events.map (IrqEvent.came irq)).sum =
      (events.map (IrqEvent.went irq)).sum + s.pending irq := by
  induction run with
  | refl =>
      refine ⟨⟨picInit_programmed pics, by rw [picInit_eq]; decide, rfl, rfl⟩, fun irq _ => ?_⟩
      have silent : ¬ (picInit pics).Latched irq := by
        rw [picInit_eq]
        revert irq
        decide
      simp [IrqSystem.pending, silent, ServiceStage.due]
  | snoc _ last ih =>
      obtain ⟨serviced, count⟩ := ih.1.step last
      refine ⟨serviced, fun irq device => ?_⟩
      have before := ih.2 irq device
      have now := count irq device
      simp only [List.map_append, List.sum_append, List.map_cons, List.map_nil, List.sum_cons,
        List.sum_nil]
      omega

/-- **Interrupt service is exact.** In every run from `pic_init`, whatever the devices,
the driver and the processor do, the requests that came for a line are those dispatched
under its number, those withdrawn and those on their way. What is dispatched is the line
of a device, and gets an end of interrupt. What is accepted is the first open request,
under its own vector, or nothing, under that of line 7 and only when there is no open
request. A request of the second chip that a device withdraws in the middle of this has
the vector of line 15. Between two handlers nothing is in service, so an open request is
offered. -/
theorem irq_service_exact {pics : Pics} (run : Steps IrqStep ⟨picInit pics, .idle⟩ events s) :
    (∀ irq ≠ 2, (events.map (IrqEvent.came irq)).sum =
      (events.map (IrqEvent.went irq)).sum + s.pending irq) ∧
    (∀ {number s'}, IrqStep s (.dispatched number) s' →
      s'.stage = .handled number ∧ ∃ irq : Fin 16, irq ≠ 2 ∧ number = irq) ∧
    (∀ {vector irq s'}, IrqStep s (.accepted vector (some irq)) s' → irq ≠ 2 ∧
      vector = idtIrqBase + irq ∧ s.pics.Latched irq ∧ s.pics.Open irq ∧
      ∀ other ≠ 2, s.pics.Latched other → s.pics.Open other → rank irq ≤ rank other) ∧
    (∀ {vector s'}, IrqStep s (.accepted vector none) s' → vector = idtIrqBase + 7 ∧
      ∀ irq ≠ 2, ¬ (s.pics.Latched irq ∧ s.pics.Open irq)) ∧
    (∀ {irq vector s'}, IrqStep s (.late irq vector) s' → 8 ≤ irq ∧ s.pics.Latched irq ∧
      s.pics.Open irq ∧
      (∀ other ≠ 2, s.pics.Latched other → s.pics.Open other → rank irq ≤ rank other) ∧
      vector = idtIrqBase + 15 ∧ ¬ s'.pics.Latched irq) ∧
    (s.stage = .idle → s.pics.master.isr = ∅ ∧ s.pics.slave.isr = ∅ ∧
      ∀ irq ≠ 2, s.pics.Latched irq → s.pics.Open irq → s.pics.intr? ≠ none) := by
  obtain ⟨⟨ready, wired, service⟩, count⟩ := Serviced.run run
  refine ⟨count, ?_, ?_, ?_, fun step => Serviced.late ⟨ready, wired, service⟩ step, fun idle => ?_⟩
  · intro number s' step
    obtain ⟨stage, irq, device, isNumber, _⟩ := Serviced.dispatched ⟨ready, wired, service⟩ step
    exact ⟨stage, irq, device, isNumber⟩
  · intro vector irq s' step
    obtain ⟨_, _, ⟨_, none', _⟩ | ⟨line, isFirst, isVector, taken⟩⟩ :=
      Serviced.accepted ⟨ready, wired, service⟩ step
    · cases none'
    · obtain rfl := Option.some.inj isFirst
      exact ⟨taken.device, isVector, taken.latched, taken.opened, taken.first⟩
  · intro vector s' step
    obtain ⟨idle, _, ⟨silent, _, isVector⟩ | ⟨line, isFirst, _⟩⟩ :=
      Serviced.accepted ⟨ready, wired, service⟩ step
    · rw [idle] at service
      exact ⟨isVector, Pics.silent ready service silent⟩
    · cases isFirst
  · rw [idle] at service
    exact ⟨service.1, service.2, fun irq device latched opened silent =>
      Pics.silent ready service silent irq device ⟨latched, opened⟩⟩

end Service

section Sample

/-- Chips in the middle of some other use. -/
def samplePics : Pics :=
  ⟨⟨.icw3, true, false, 8, 0, true, 0, {0, 3}, {1}⟩, ⟨.ready, false, true, 112, 2, false, 0, {4}, ∅⟩⟩

/-- The keyboard and the clock raise their lines; only the keyboard is let through. -/
theorem irq_service_exact_sample : ∃ events s, Steps IrqStep ⟨picInit samplePics, .idle⟩ events s ∧
    (events.map (IrqEvent.went 1)).sum = 1 ∧
    (events.map (IrqEvent.came 0)).sum = (events.map (IrqEvent.went 0)).sum + s.pending 0 ∧
    s.pending 0 = 1 := by
  have opened : Steps IrqStep ⟨picInit samplePics, .idle⟩ _ _ := .single (.call (.unmask 1))
  have raised := (opened.snoc (@IrqStep.raise _ 1 (by decide) (by decide))).snoc
    (@IrqStep.raise _ 0 (by decide) (by decide))
  have accepted := raised.snoc (@IrqStep.accept _ _ 33 rfl)
  have finished := (accepted.snoc .dispatch).snoc .finish
  exact ⟨_, _, finished, by decide, (irq_service_exact finished).1 0 (by decide), by decide⟩

end Sample

end GodOs
