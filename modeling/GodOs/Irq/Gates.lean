import GodOs.Machine.Interrupt

/-!
# The gates of `idt.c`

`idt_init` fills a table of packed descriptors in memory, and the processor reads the
descriptor of a vector from there. `idt_init_exact` says what the processor finds: the
48 stubs behind interrupt gates of the kernel, and nothing anywhere else.
-/

namespace GodOs

open Lib Lib.Memory

/-- `idt_entry_t`, packed. -/
structure IdtEntry where
  offsetLow : BitVec 16
  selector : BitVec 16
  ist : BitVec 8
  typeAttr : BitVec 8
  offsetMid : BitVec 16
  offsetHigh : BitVec 32
  zero : BitVec 32
deriving DecidableEq

def idtTypeAttr : BitVec 8 := 0x8E

def idtEntries : Nat := 256

def idtExceptions : Nat := 32

/-- The seven assignments to an entry, in the order of the source. -/
def IdtEntry.write (entry : IdtEntry) (mem : Memory) (place : Nat) : Memory :=
  let mem := mem.store place 2 entry.offsetLow.toNat
  let mem := mem.store (place + 2) 2 entry.selector.toNat
  let mem := mem.store (place + 4) 1 entry.ist.toNat
  let mem := mem.store (place + 5) 1 entry.typeAttr.toNat
  let mem := mem.store (place + 6) 2 entry.offsetMid.toNat
  let mem := mem.store (place + 8) 4 entry.offsetHigh.toNat
  mem.store (place + 12) 4 entry.zero.toNat

/-- The entry that lies in memory. -/
def IdtEntry.read (mem : Memory) (place : Nat) : IdtEntry where
  offsetLow := BitVec.ofNat 16 (mem.load place 2)
  selector := BitVec.ofNat 16 (mem.load (place + 2) 2)
  ist := BitVec.ofNat 8 (mem.load (place + 4) 1)
  typeAttr := BitVec.ofNat 8 (mem.load (place + 5) 1)
  offsetMid := BitVec.ofNat 16 (mem.load (place + 6) 2)
  offsetHigh := BitVec.ofNat 32 (mem.load (place + 8) 4)
  zero := BitVec.ofNat 32 (mem.load (place + 12) 4)

/-- What `set_gate` writes for a handler. -/
def gateEntry (handler : Word) : IdtEntry where
  offsetLow := (handler &&& 0xFFFF).setWidth 16
  selector := idtSelector
  ist := 0
  typeAttr := idtTypeAttr
  offsetMid := ((handler >>> 16) &&& 0xFFFF).setWidth 16
  offsetHigh := ((handler >>> 32) &&& 0xFFFFFFFF).setWidth 32
  zero := 0

/-- What `idt_init` writes first. -/
def clearEntry : IdtEntry := ⟨0, 0, 0, 0, 0, 0, 0⟩

/-- A loop over `count` entries from `first` on. -/
def writeEntries (mem : Memory) (idt : Nat) (entry : Nat → IdtEntry) (first : Nat) : Nat → Memory
  | 0 => mem
  | count + 1 =>
      (entry (first + count)).write (writeEntries mem idt entry first count)
        (idt + 16 * (first + count))

/-- `idt_init`, for the addresses in `isr_stub_table`. -/
def idtInit (mem : Memory) (idt : Nat) (stubs : Nat → Word) : Memory :=
  let mem := writeEntries mem idt (fun _ => clearEntry) 0 idtEntries
  let mem := writeEntries mem idt (fun i => gateEntry (stubs i)) 0 idtExceptions
  writeEntries mem idt (fun i => gateEntry (stubs i)) 32 16

/-- The limit that `lidt` loads. -/
def idtLimit : Nat := 16 * idtEntries - 1

/-- The processor finds a present interrupt gate for a vector. Without one it faults. -/
def idtGate (mem : Memory) (idt limit vector : Nat) : Option IdtEntry :=
  let entry := IdtEntry.read mem (idt + 16 * vector)
  if 16 * vector + 15 ≤ limit ∧ entry.typeAttr &&& 0x80 ≠ 0 ∧ entry.typeAttr &&& 0x1F = 0x0E then
    some entry
  else none

/-- The address in an entry. -/
def IdtEntry.offset (entry : IdtEntry) : Word :=
  entry.offsetLow.setWidth 64 ||| (entry.offsetMid.setWidth 64 <<< 16) |||
    (entry.offsetHigh.setWidth 64 <<< 32)

/-- An interrupt on the current stack through a gate to the code of the kernel. -/
def Cpu.enter (s : Cpu) (idt limit vector : Nat) (errorCode : Word) : Option Cpu :=
  match idtGate s.mem idt limit vector with
  | some entry =>
      if entry.selector = idtSelector ∧ entry.ist &&& 7 = 0 then
        some (s.deliver vector errorCode entry.offset)
      else none
  | none => none

section Table

variable {mem mem' : Memory} {idt place first count vector : Nat} {entry : IdtEntry}
  {entries : Nat → IdtEntry}

/-- Writing an entry leaves the bytes outside it. -/
theorem IdtEntry.write_outside {address : Nat} (outside : address < place ∨ place + 16 ≤ address) :
    entry.write mem place address = mem address := by
  simp only [IdtEntry.write]
  rw [store_outside (by omega), store_outside (by omega), store_outside (by omega),
    store_outside (by omega), store_outside (by omega), store_outside (by omega),
    store_outside (by omega)]

/-- An entry is read back as it was written. -/
theorem IdtEntry.read_write (entry : IdtEntry) (mem : Memory) (place : Nat) :
    IdtEntry.read (entry.write mem place) place = entry := by
  have back {width : Nat} (value : BitVec (8 * width)) :
      BitVec.ofNat (8 * width) (value.toNat % 256 ^ width) = value := by
    have fits : value.toNat < 256 ^ width := (pow_mul 2 8 width ▸ value.isLt : _ < (2 ^ 8) ^ width)
    rw [Nat.mod_eq_of_lt fits, BitVec.ofNat_toNat, BitVec.setWidth_eq]
  obtain ⟨low, selector, ist, attr, mid, high, zero⟩ := entry
  simp only [IdtEntry.read, IdtEntry.write]
  simp (disch := omega) only [load_store_disjoint, load_store_same]
  rw [IdtEntry.mk.injEq]
  exact ⟨@back 2 low, @back 2 selector, @back 1 ist, @back 1 attr, @back 2 mid, @back 4 high,
    @back 4 zero⟩

/-- An entry depends on its own bytes. -/
theorem IdtEntry.read_congr (same : SameOn mem mem' place 16) :
    IdtEntry.read mem' place = IdtEntry.read mem place := by
  simp only [IdtEntry.read]
  rw [load_congr (same.mono (by omega) (by omega)), load_congr (same.mono (by omega) (by omega)),
    load_congr (same.mono (by omega) (by omega)), load_congr (same.mono (by omega) (by omega)),
    load_congr (same.mono (by omega) (by omega)), load_congr (same.mono (by omega) (by omega)),
    load_congr (same.mono (by omega) (by omega))]

/-- What a loop over the table leaves: its own entries, and every other byte. -/
theorem writeEntries_spec (mem : Memory) (idt : Nat) (entries : Nat → IdtEntry) (first count : Nat) :
    (∀ vector, IdtEntry.read (writeEntries mem idt entries first count) (idt + 16 * vector) =
      if first ≤ vector ∧ vector < first + count then entries vector
      else IdtEntry.read mem (idt + 16 * vector)) ∧
    ∀ address, address < idt + 16 * first ∨ idt + 16 * (first + count) ≤ address →
      writeEntries mem idt entries first count address = mem address := by
  induction count with
  | zero => exact ⟨fun vector => by rw [if_neg (by omega)]; rfl, fun _ _ => rfl⟩
  | succ count ih =>
      refine ⟨fun vector => ?_, fun address outside => ?_⟩
      · rw [writeEntries]
        by_cases last : vector = first + count
        · rw [last, IdtEntry.read_write, if_pos (by omega)]
        · have apart : SameOn (writeEntries mem idt entries first count)
              ((entries (first + count)).write (writeEntries mem idt entries first count)
                (idt + 16 * (first + count))) (idt + 16 * vector) 16 :=
            fun address lower upper => IdtEntry.write_outside (by omega)
          rw [IdtEntry.read_congr apart, ih.1]
          exact if_congr (by omega) rfl rfl
      · rw [writeEntries, IdtEntry.write_outside (by omega)]
        exact ih.2 address (by omega)

/-- The table after `idt_init`. -/
theorem idtInit_entry (mem : Memory) (idt : Nat) (stubs : Nat → Word) (small : vector < idtEntries) :
    IdtEntry.read (idtInit mem idt stubs) (idt + 16 * vector) =
      if vector < 48 then gateEntry (stubs vector) else clearEntry := by
  have size : idtEntries = 256 := rfl
  have exceptions : idtExceptions = 32 := rfl
  rw [idtInit]
  rw [(writeEntries_spec _ idt _ 32 16).1, (writeEntries_spec _ idt _ 0 idtExceptions).1,
    (writeEntries_spec _ idt _ 0 idtEntries).1]
  split_ifs <;> first | rfl | omega

/-- `idt_init` writes nothing but its table. -/
theorem idtInit_outside {stubs : Nat → Word} {address : Nat}
    (outside : address < idt ∨ idt + 4096 ≤ address) : idtInit mem idt stubs address = mem address := by
  have size : idtEntries = 256 := rfl
  have exceptions : idtExceptions = 32 := rfl
  rw [idtInit]
  rw [(writeEntries_spec _ idt _ 32 16).2 address (by omega),
    (writeEntries_spec _ idt _ 0 idtExceptions).2 address (by omega),
    (writeEntries_spec _ idt _ 0 idtEntries).2 address (by omega)]

/-- The three parts of an address make up the address. -/
theorem gateEntry_offset (handler : Word) : (gateEntry handler).offset = handler := by
  have narrow (part : Word) : (part &&& 0xFFFF).setWidth 16 = part.setWidth 16 := by
    rw [BitVec.setWidth_and]
    exact BitVec.and_allOnes
  have high (part : Word) : (part &&& 0xFFFFFFFF).setWidth 32 = part.setWidth 32 := by
    rw [BitVec.setWidth_and]
    exact BitVec.and_allOnes
  apply BitVec.eq_of_getLsbD_eq
  intro bit within
  simp only [IdtEntry.offset, gateEntry, narrow, high, BitVec.getLsbD_or, BitVec.getLsbD_shiftLeft,
    BitVec.getLsbD_setWidth, BitVec.getLsbD_ushiftRight, within, decide_true, Bool.true_and]
  -- each bit comes from the one part that holds it
  rcases Nat.lt_or_ge bit 16 with isLow | notLow
  · simp [isLow, show bit < 32 by omega]
  · rcases Nat.lt_or_ge bit 32 with isMid | isHigh
    · simp [show ¬ bit < 16 by omega, isMid, show bit - 16 < 16 by omega, show bit - 16 < 64 by omega,
        show 16 + (bit - 16) = bit by omega]
    · simp [show ¬ bit < 16 by omega, show ¬ bit < 32 by omega, show ¬ bit - 16 < 16 by omega,
        show bit - 32 < 32 by omega, show bit - 32 < 64 by omega, show 32 + (bit - 32) = bit by omega]

/-- What the processor finds in the table as long as nobody overwrites it. -/
theorem idtInit_gate {stubs : Nat → Word} (kept : SameOn (idtInit mem idt stubs) mem' idt 4096) :
    idtGate mem' idt idtLimit vector = if vector < 48 then some (gateEntry (stubs vector)) else none := by
  have limit : idtLimit = 4095 := rfl
  have size : idtEntries = 256 := rfl
  unfold idtGate
  simp only
  by_cases inside : vector < idtEntries
  · have entry := idtInit_entry mem idt stubs inside
    rw [IdtEntry.read_congr (kept.mono (by omega) (by omega)), entry]
    by_cases isVector : vector < 48
    · rw [if_pos isVector, if_pos isVector]
      exact if_pos ⟨by omega, show idtTypeAttr &&& 0x80 ≠ 0 by decide,
        show idtTypeAttr &&& 0x1F = 0x0E by decide⟩
    · rw [if_neg isVector, if_neg isVector]
      exact if_neg fun found => found.2.1 (by decide)
  · rw [if_neg (show ¬ vector < 48 by omega)]
    exact if_neg fun found => by omega

/-- **Every vector enters its stub.** After `idt_init`, whatever the memory held, the
processor delivers each of the vectors 0 to 47 to the entry of `isr_stub_table` for it,
with interrupts off, and finds no gate for any other vector. The call writes the table
and nothing else. -/
theorem idt_init_exact (mem : Memory) (idt : Nat) (stubs : Nat → Word) (s : Cpu)
    (kept : SameOn (idtInit mem idt stubs) s.mem idt 4096) (vector : Nat) (errorCode : Word) :
    (if vector < 48 then
      ∃ entered, s.enter idt idtLimit vector errorCode = some entered ∧
        entered = s.deliver vector errorCode (stubs vector) ∧ entered.rip = stubs vector ∧
        entered.cs = idtSelector ∧ entered.rflags &&& 0x200 = 0
    else s.enter idt idtLimit vector errorCode = none) ∧
    ∀ address, address < idt ∨ idt + 4096 ≤ address → idtInit mem idt stubs address = mem address := by
  refine ⟨?_, fun address outside => idtInit_outside outside⟩
  have gate := @idtInit_gate mem s.mem idt vector stubs kept
  unfold Cpu.enter
  by_cases isVector : vector < 48
  · rw [if_pos isVector] at gate ⊢
    have kernel : (gateEntry (stubs vector)).selector = idtSelector ∧
        (gateEntry (stubs vector)).ist &&& 7 = 0 := ⟨rfl, (by decide : (0 : BitVec 8) &&& 7 = 0)⟩
    have off : (s.rflags &&& ~~~0x34300) &&& 0x200 = 0 := by
      rw [BitVec.and_assoc]
      simp
    refine ⟨_, ?_, rfl, rfl, rfl, off⟩
    rw [gate]
    simp only [if_pos kernel, gateEntry_offset]
  · rw [if_neg isVector] at gate ⊢
    rw [gate]

/-- Addresses of stubs in the upper half, so that all three parts of a gate count. -/
def sampleStubs : Nat → Word := fun vector => 0xFFFF800000100000 + BitVec.ofNat 64 (32 * vector)

theorem idt_init_exact_sample :
    ∃ entered, ({ sampleCpu with mem := idtInit (fun _ => 0xAA) 0x5000 sampleStubs } : Cpu).enter
      0x5000 idtLimit 33 0 = some entered ∧ entered.rip = 0xFFFF800000100420 := by
  obtain ⟨entered, found, _, rip, _⟩ := (idt_init_exact (fun _ => 0xAA) 0x5000 sampleStubs
    { sampleCpu with mem := idtInit (fun _ => 0xAA) 0x5000 sampleStubs } (SameOn.refl _ _ _) 33 0).1
  exact ⟨entered, found, rip⟩

end Table

end GodOs
