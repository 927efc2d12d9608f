import GodOs.Lib.Stack

/-!
# Interrupt entry and return

The processor's side of an interrupt, the stubs of `isr.asm`, and the common code
that saves and restores the registers around `isr_handler`, as a machine that runs
lists of instructions. `interrupt_preserves_context` says that the handler sees the
interrupted registers in its `regs_t`, and that the return restores them.
-/

namespace GodOs

open Lib Lib.Memory

/-- The general registers but for the stack pointer. -/
inductive Gpr where
  | rax | rbx | rcx | rdx | rsi | rdi | rbp | r8 | r9 | r10 | r11 | r12 | r13 | r14 | r15
deriving DecidableEq

structure Cpu where
  gpr : Gpr → Word
  rsp : Word
  rip : Word
  rflags : Word
  cs : BitVec 16
  ss : BitVec 16
  mem : Memory

/-- The instructions of the stubs and of `isr_common`; `movRsp` copies the stack
pointer to a register. -/
inductive Instr where
  | push (register : Gpr)
  | pushImm (value : Word)
  | pop (register : Gpr)
  | cld
  | movRsp (register : Gpr)
  | addRsp (value : Word)
  | iretq

def Cpu.push (s : Cpu) (value : Word) : Cpu :=
  { s with rsp := s.rsp - 8, mem := s.mem.setWord (s.rsp - 8) value }

/-- The effect of an instruction on the registers and the memory. The arithmetic
flags that `add` sets are not kept: `iretq` replaces them. -/
def Cpu.exec (s : Cpu) : Instr → Cpu
  | .push register => s.push (s.gpr register)
  | .pushImm value => s.push value
  | .pop register =>
      { s with gpr := Function.update s.gpr register (s.mem.word s.rsp), rsp := s.rsp + 8 }
  | .cld => { s with rflags := s.rflags &&& ~~~0x400 }
  | .movRsp register => { s with gpr := Function.update s.gpr register s.rsp }
  | .addRsp value => { s with rsp := s.rsp + value }
  | .iretq =>
      { s with
        rip := s.mem.word s.rsp
        cs := (s.mem.word (s.rsp + 8)).setWidth 16
        rflags := s.mem.word (s.rsp + 16)
        rsp := s.mem.word (s.rsp + 24)
        ss := (s.mem.word (s.rsp + 32)).setWidth 16 }

def Cpu.run (s : Cpu) (code : List Instr) : Cpu := code.foldl Cpu.exec s

/-- `call`: push the return address and continue at the target. -/
def Cpu.call (s : Cpu) (target returnAddress : Word) : Cpu :=
  { s.push returnAddress with rip := target }

/-- The vectors for which the processor pushes an error code. -/
def errorCodeVectors : List Nat := [8, 10, 11, 12, 13, 14, 17, 21, 29, 30]

def idtSelector : BitVec 16 := 0x08

/-- The processor delivers an interrupt through a gate of the table: on the current
stack, aligned down to 16 bytes, it pushes SS, RSP, RFLAGS, CS, RIP and the error
code of the vectors that have one. An interrupt gate clears TF, IF, NT, RF and VM. -/
def Cpu.deliver (s : Cpu) (vector : Nat) (errorCode offset : Word) : Cpu :=
  let framed : Cpu := { s with rsp := s.rsp &&& ~~~15 }
  let framed := framed.push (s.ss.setWidth 64)
  let framed := framed.push s.rsp
  let framed := framed.push s.rflags
  let framed := framed.push (s.cs.setWidth 64)
  let framed := framed.push s.rip
  let framed := if vector ∈ errorCodeVectors then framed.push errorCode else framed
  { framed with rip := offset, cs := idtSelector, rflags := s.rflags &&& ~~~0x34300 }

/-- The two macros of `isr.asm` that make the stub of a vector. -/
inductive Stub where
  | isrNoerr (vector : Nat)
  | isrErr (vector : Nat)
deriving DecidableEq

/-- The number in the label of a stub. -/
def Stub.label : Stub → Nat
  | .isrNoerr vector => vector
  | .isrErr vector => vector

/-- The body of a stub; its `jmp isr_common` is the code that follows. -/
def Stub.code : Stub → List Instr
  | .isrNoerr vector => [.pushImm 0, .pushImm (BitVec.ofNat 64 vector)]
  | .isrErr vector => [.pushImm (BitVec.ofNat 64 vector)]

/-- The stubs in the order of the source. -/
def isrStubs : List Stub :=
  [.isrNoerr 0, .isrNoerr 1, .isrNoerr 2, .isrNoerr 3, .isrNoerr 4, .isrNoerr 5, .isrNoerr 6,
    .isrNoerr 7, .isrErr 8, .isrNoerr 9, .isrErr 10, .isrErr 11, .isrErr 12, .isrErr 13, .isrErr 14,
    .isrNoerr 15, .isrNoerr 16, .isrErr 17, .isrNoerr 18, .isrNoerr 19, .isrNoerr 20, .isrErr 21,
    .isrNoerr 22, .isrNoerr 23, .isrNoerr 24, .isrNoerr 25, .isrNoerr 26, .isrNoerr 27, .isrNoerr 28,
    .isrErr 29, .isrErr 30, .isrNoerr 31, .isrNoerr 32, .isrNoerr 33, .isrNoerr 34, .isrNoerr 35,
    .isrNoerr 36, .isrNoerr 37, .isrNoerr 38, .isrNoerr 39, .isrNoerr 40, .isrNoerr 41, .isrNoerr 42,
    .isrNoerr 43, .isrNoerr 44, .isrNoerr 45, .isrNoerr 46, .isrNoerr 47]

/-- `isr_stub_table`: entry `i` names the label `isr_stub_i`. -/
def isrStubTable (vector : Nat) : Option Stub :=
  if vector < 48 then isrStubs.find? fun stub => stub.label = vector else none

/-- The registers in the order in which `isr_common` pushes them. -/
def isrCommonPushes : List Gpr :=
  [.rax, .rbx, .rcx, .rdx, .rsi, .rdi, .rbp, .r8, .r9, .r10, .r11, .r12, .r13, .r14, .r15]

/-- The registers in the order in which `isr_common` pops them. -/
def isrCommonPops : List Gpr :=
  [.r15, .r14, .r13, .r12, .r11, .r10, .r9, .r8, .rbp, .rdi, .rsi, .rdx, .rcx, .rbx, .rax]

/-- `isr_common` up to `call isr_handler`. -/
def isrCommonSave : List Instr := isrCommonPushes.map .push ++ [.cld, .movRsp .rdi]

/-- `isr_common` after `call isr_handler`. -/
def isrCommonRestore : List Instr := isrCommonPops.map .pop ++ [.addRsp 16, .iretq]

/-- `regs_t`, in the order of its fields in memory. -/
structure Regs where
  r15 : Word
  r14 : Word
  r13 : Word
  r12 : Word
  r11 : Word
  r10 : Word
  r9 : Word
  r8 : Word
  rbp : Word
  rdi : Word
  rsi : Word
  rdx : Word
  rcx : Word
  rbx : Word
  rax : Word
  vector : Word
  errorCode : Word
  rip : Word
  cs : Word
  rflags : Word
deriving DecidableEq

/-- The bytes at an address, read as a `regs_t`. -/
def readRegs (mem : Memory) (address : Word) : Regs where
  r15 := mem.word address
  r14 := mem.word (address + 8)
  r13 := mem.word (address + 16)
  r12 := mem.word (address + 24)
  r11 := mem.word (address + 32)
  r10 := mem.word (address + 40)
  r9 := mem.word (address + 48)
  r8 := mem.word (address + 56)
  rbp := mem.word (address + 64)
  rdi := mem.word (address + 72)
  rsi := mem.word (address + 80)
  rdx := mem.word (address + 88)
  rcx := mem.word (address + 96)
  rbx := mem.word (address + 104)
  rax := mem.word (address + 112)
  vector := mem.word (address + 120)
  errorCode := mem.word (address + 128)
  rip := mem.word (address + 136)
  cs := mem.word (address + 144)
  rflags := mem.word (address + 152)

/-- The state just before the call of `isr_handler`. -/
def Cpu.interrupted (s : Cpu) (vector : Nat) (errorCode offset : Word) : Option Cpu :=
  (isrStubTable vector).map fun stub =>
    (s.deliver vector errorCode offset).run (stub.code ++ isrCommonSave)

/-- The registers that a C function keeps. -/
def calleeSaved : List Gpr := [.rbx, .rbp, .r12, .r13, .r14, .r15]

/-- A C function that was entered at `entry` returns in `exit`: the stack pointer is
above the return address, and the other registers are arbitrary. -/
structure Returns (entry exit : Cpu) : Prop where
  rip : exit.rip = entry.mem.word entry.rsp
  rsp : exit.rsp = entry.rsp + 8
  saved : ∀ register ∈ calleeSaved, exit.gpr register = entry.gpr register

/-- The 22 words of the frame, from `regs_t` to the pushed SS, are as they were. -/
def FrameKept (frame : Word) (mem mem' : Memory) : Prop :=
  ∀ offset < 176, mem' (frame + BitVec.ofNat 64 offset).toNat =
    mem (frame + BitVec.ofNat 64 offset).toNat

section Run

variable {s : Cpu} {base : Word} {words : List Word} {registers : List Gpr}

/-- The words on the stack of the processor, from its aligned stack pointer up to `base`. -/
structure OnStack (s : Cpu) (base : Word) (words : List Word) : Prop where
  aligned : Aligned s.rsp
  extent : s.rsp + BitVec.ofNat 64 (8 * words.length) = base
  stacked : Stacked s.mem s.rsp words

theorem OnStack.push (stack : OnStack s base words) (small : words.length < 64) (value : Word) :
    OnStack (s.push value) base (value :: words) where
  aligned := stack.aligned.pushed
  extent := by
    rw [Cpu.push, List.length_cons, place_succ, BitVec.sub_add_cancel]
    exact stack.extent
  stacked := stack.stacked.push stack.aligned (by omega) value

theorem Cpu.push_rsp (s : Cpu) (value : Word) : (s.push value).rsp = s.rsp - 8 := rfl

theorem Cpu.run_append (s : Cpu) (code later : List Instr) :
    s.run (code ++ later) = (s.run code).run later :=
  List.foldl_append

/-- Pushing registers stacks them, the last on top, and keeps them. -/
theorem OnStack.run_push (stack : OnStack s base words)
    (small : registers.length + words.length < 64) :
    OnStack (s.run (registers.map .push)) base ((registers.map s.gpr).reverse ++ words) ∧
      (s.run (registers.map .push)).gpr = s.gpr := by
  induction registers generalizing s words with
  | nil => exact ⟨stack, rfl⟩
  | cons register rest ih =>
      simp only [List.length_cons] at small
      have pushed := ih (stack.push (by omega) (s.gpr register)) (by rw [List.length_cons]; omega)
      rw [List.map_cons, List.map_cons, List.reverse_cons, List.append_assoc]
      exact pushed

/-- Popping registers that lie on the stack, the first on top, gives them their words. -/
theorem OnStack.run_pop {saved : Gpr → Word}
    (stack : OnStack s base (registers.map saved ++ words)) :
    OnStack (s.run (registers.map .pop)) base words ∧
      ∀ register, (s.run (registers.map .pop)).gpr register =
        if register ∈ registers then saved register else s.gpr register := by
  induction registers generalizing s with
  | nil => exact ⟨stack, fun register => by rw [if_neg List.not_mem_nil]; rfl⟩
  | cons first rest ih =>
      rw [List.map_cons, List.cons_append] at stack
      obtain ⟨aligned, extent, top, below⟩ := stack
      rw [List.length_cons, place_succ] at extent
      obtain ⟨left, values⟩ := @ih (s.exec (.pop first)) ⟨aligned.popped, extent, below⟩
      refine ⟨left, fun register => ?_⟩
      rw [List.map_cons, Cpu.run, List.foldl_cons]
      refine (values register).trans ?_
      by_cases again : register ∈ rest
      · rw [if_pos again, if_pos (List.mem_cons_of_mem _ again)]
      · rw [if_neg again]
        by_cases here : register = first
        · subst here
          rw [if_pos List.mem_cons_self]
          exact (Function.update_self _ _ _).trans top
        · rw [if_neg (by simp [here, again])]
          exact Function.update_of_ne here _ _

/-- Clearing the direction flag and copying the stack pointer leave the stack. -/
theorem OnStack.point (stack : OnStack s base words) (register : Gpr) :
    OnStack (s.run [.cld, .movRsp register]) base words ∧
      (s.run [.cld, .movRsp register]).gpr register = (s.run [.cld, .movRsp register]).rsp :=
  ⟨⟨stack.aligned, stack.extent, stack.stacked⟩, Function.update_self _ _ _⟩

/-- The words that the processor pushes on every interrupt, the last on top. -/
def Cpu.context (s : Cpu) : List Word :=
  [s.rip, s.cs.setWidth 64, s.rflags, s.rsp, s.ss.setWidth 64]

/-- The words above the saved registers: the vector, the error code or 0, and the context. -/
def Cpu.frame (s : Cpu) (vector : Nat) (errorCode : Word) : List Word :=
  BitVec.ofNat 64 vector ::
    (if vector ∈ errorCodeVectors then errorCode else 0) :: s.context

/-- The stack pointer of the interrupted code, aligned down. -/
def Cpu.frameBase (s : Cpu) : Word := s.rsp &&& ~~~15

theorem Cpu.frameBase_aligned (s : Cpu) : s.frameBase.toNat % 16 = 0 := by
  have low : s.frameBase &&& 15 = 0 := by
    rw [Cpu.frameBase, BitVec.and_assoc]
    simp
  have numbers := congrArg BitVec.toNat low
  rw [BitVec.toNat_and] at numbers
  exact (Nat.and_two_pow_sub_one_eq_mod _ 4).symm.trans numbers

/-- What the processor leaves on the stack. -/
theorem Cpu.deliver_stack (s : Cpu) (vector : Nat) (errorCode offset : Word) :
    OnStack (s.deliver vector errorCode offset) s.frameBase
        ((if vector ∈ errorCodeVectors then [errorCode] else []) ++ s.context) ∧
      (s.deliver vector errorCode offset).gpr = s.gpr := by
  have aligned := s.frameBase_aligned
  have start : OnStack { s with rsp := s.frameBase } s.frameBase [] :=
    ⟨show _ % 8 = 0 by simp only; omega, BitVec.add_zero _, trivial⟩
  have pushed := ((((start.push (by simp) (s.ss.setWidth 64)).push (by simp) s.rsp).push
    (by simp) s.rflags).push (by simp) (s.cs.setWidth 64)).push (by simp) s.rip
  unfold Cpu.deliver
  by_cases pushes : vector ∈ errorCodeVectors
  · simp only [if_pos pushes]
    have full := pushed.push (by simp) errorCode
    exact ⟨⟨full.aligned, full.extent, full.stacked⟩, rfl⟩
  · simp only [if_neg pushes]
    exact ⟨⟨pushed.aligned, pushed.extent, pushed.stacked⟩, rfl⟩

/-- The stubs push a zero for exactly the vectors without an error code. -/
theorem isrStubTable_eq {vector : Nat} (isVector : vector < 48) : isrStubTable vector =
    some (if vector ∈ errorCodeVectors then .isrErr vector else .isrNoerr vector) := by
  revert vector
  decide

/-- After the stub of its vector, an interrupt has the same words on the stack. -/
theorem Cpu.stub_stack (s : Cpu) (vector : Nat) (errorCode offset : Word) :
    OnStack ((s.deliver vector errorCode offset).run
        (if vector ∈ errorCodeVectors then Stub.isrErr vector else .isrNoerr vector).code)
        s.frameBase (s.frame vector errorCode) ∧
      ((s.deliver vector errorCode offset).run
        (if vector ∈ errorCodeVectors then Stub.isrErr vector else .isrNoerr vector).code).gpr =
          s.gpr := by
  obtain ⟨stack, registers⟩ := s.deliver_stack vector errorCode offset
  unfold Cpu.frame
  by_cases pushes : vector ∈ errorCodeVectors
  · rw [if_pos pushes] at stack
    simp only [if_pos pushes]
    exact ⟨stack.push (by simp [Cpu.context]) _, registers⟩
  · rw [if_neg pushes] at stack
    simp only [if_neg pushes]
    exact ⟨(stack.push (by simp [Cpu.context]) 0).push (by simp [Cpu.context]) _, registers⟩

/-- The words on the stack at the call of `isr_handler`. -/
def Cpu.handlerFrame (s : Cpu) (vector : Nat) (errorCode : Word) : List Word :=
  isrCommonPops.map s.gpr ++ s.frame vector errorCode

/-- At the call of `isr_handler` the frame is on the stack, and RDI points to it. -/
theorem Cpu.interrupted_stack (s : Cpu) {vector : Nat} (isVector : vector < 48)
    (errorCode offset : Word) : ∃ call, s.interrupted vector errorCode offset = some call ∧
      OnStack call s.frameBase (s.handlerFrame vector errorCode) ∧ call.gpr .rdi = call.rsp := by
  obtain ⟨stack, registers⟩ := s.stub_stack vector errorCode offset
  rw [Cpu.interrupted, isrStubTable_eq isVector]
  refine ⟨_, rfl, ?_⟩
  beta_reduce
  rw [Cpu.run_append, isrCommonSave, Cpu.run_append]
  generalize (s.deliver vector errorCode offset).run
    (if vector ∈ errorCodeVectors then Stub.isrErr vector else .isrNoerr vector).code = stubbed at *
  have saved := (@OnStack.run_push _ _ _ isrCommonPushes stack
    (by simp [isrCommonPushes, Cpu.frame, Cpu.context])).1
  rw [registers] at saved
  have order : (isrCommonPushes.map s.gpr).reverse = isrCommonPops.map s.gpr := rfl
  rw [order] at saved
  exact saved.point .rdi

/-- The `regs_t` that describes an interrupt of this state. -/
def Cpu.regs (s : Cpu) (vector : Nat) (errorCode : Word) : Regs where
  r15 := s.gpr .r15
  r14 := s.gpr .r14
  r13 := s.gpr .r13
  r12 := s.gpr .r12
  r11 := s.gpr .r11
  r10 := s.gpr .r10
  r9 := s.gpr .r9
  r8 := s.gpr .r8
  rbp := s.gpr .rbp
  rdi := s.gpr .rdi
  rsi := s.gpr .rsi
  rdx := s.gpr .rdx
  rcx := s.gpr .rcx
  rbx := s.gpr .rbx
  rax := s.gpr .rax
  vector := BitVec.ofNat 64 vector
  errorCode := if vector ∈ errorCodeVectors then errorCode else 0
  rip := s.rip
  cs := s.cs.setWidth 64
  rflags := s.rflags

/-- The frame of a handler reads as the interrupted registers. -/
theorem OnStack.readRegs {call : Cpu} {vector : Nat} {errorCode : Word}
    (stack : OnStack call base (s.handlerFrame vector errorCode)) :
    readRegs call.mem call.rsp = s.regs vector errorCode := by
  have word : ∀ index < 22, call.mem.word (call.rsp + BitVec.ofNat 64 (8 * index)) =
      (s.handlerFrame vector errorCode).getD index 0 := by
    intro index within
    have inside : index < (s.handlerFrame vector errorCode).length := within
    rw [stack.stacked.word inside, List.getD_eq_getElem _ _ inside]
  rw [GodOs.readRegs, Cpu.regs, Regs.mk.injEq]
  exact ⟨stack.stacked.1, word 1 (by decide), word 2 (by decide), word 3 (by decide),
    word 4 (by decide), word 5 (by decide), word 6 (by decide), word 7 (by decide),
    word 8 (by decide), word 9 (by decide), word 10 (by decide), word 11 (by decide),
    word 12 (by decide), word 13 (by decide), word 14 (by decide), word 15 (by decide),
    word 16 (by decide), word 17 (by decide), word 18 (by decide), word 19 (by decide)⟩

/-- A function that returns and keeps the frame leaves it on the stack. -/
theorem OnStack.returned {call exit : Cpu} {target returnAddress : Word}
    (stack : OnStack call base words) (fits : words.length = 22)
    (returns : Returns (call.call target returnAddress) exit)
    (kept : FrameKept call.rsp (call.call target returnAddress).mem exit.mem) :
    OnStack exit base words := by
  have entered := stack.push (by omega) returnAddress
  have back : exit.rsp = call.rsp := by
    rw [returns.rsp]
    exact BitVec.sub_add_cancel _ _
  have below := entered.stacked.2
  rw [Cpu.push_rsp, BitVec.sub_add_cancel] at below
  refine ⟨back ▸ stack.aligned, back ▸ stack.extent, back ▸ below.congr fun index within => ?_⟩
  refine word_congr (stack.aligned.add index) fun offset small => ?_
  rw [BitVec.add_assoc, ← BitVec.ofNat_add]
  exact kept _ (by omega)

/-- The code after the call restores everything that lies in the frame. -/
theorem OnStack.restored {exit : Cpu} {vector : Nat} {errorCode : Word}
    (stack : OnStack exit base (s.handlerFrame vector errorCode)) :
    (exit.run isrCommonRestore).gpr = s.gpr ∧ (exit.run isrCommonRestore).rip = s.rip ∧
      (exit.run isrCommonRestore).cs = s.cs ∧ (exit.run isrCommonRestore).rflags = s.rflags ∧
      (exit.run isrCommonRestore).rsp = s.rsp ∧ (exit.run isrCommonRestore).ss = s.ss := by
  obtain ⟨left, registers⟩ := stack.run_pop
  have word : ∀ index < 7,
      (exit.run (isrCommonPops.map .pop)).mem.word
        ((exit.run (isrCommonPops.map .pop)).rsp + BitVec.ofNat 64 (8 * index)) =
          (s.frame vector errorCode).getD index 0 := by
    intro index within
    have inside : index < (s.frame vector errorCode).length := within
    rw [left.stacked.word inside, List.getD_eq_getElem _ _ inside]
  rw [isrCommonRestore, Cpu.run_append]
  generalize exit.run (isrCommonPops.map .pop) = popped at *
  -- `iretq` finds its words above the vector and the error code
  have above : ∀ offset : Word, popped.rsp + 16 + offset = popped.rsp + (16 + offset) :=
    BitVec.add_assoc _ _
  refine ⟨funext fun register => ?_, word 2 (by decide), ?_, ?_, ?_, ?_⟩
  · have saved : register ∈ isrCommonPops := by cases register <;> decide
    exact (registers register).trans (if_pos saved)
  · have cs := word 3 (by decide)
    show (popped.mem.word (popped.rsp + 16 + 8)).setWidth 16 = s.cs
    rw [above]
    exact (congrArg (BitVec.setWidth 16) cs).trans (by simp [Cpu.frame, Cpu.context])
  · show popped.mem.word (popped.rsp + 16 + 16) = s.rflags
    rw [above]
    exact word 4 (by decide)
  · show popped.mem.word (popped.rsp + 16 + 24) = s.rsp
    rw [above]
    exact word 5 (by decide)
  · have ss := word 6 (by decide)
    show (popped.mem.word (popped.rsp + 16 + 32)).setWidth 16 = s.ss
    rw [above]
    exact (congrArg (BitVec.setWidth 16) ss).trans (by simp [Cpu.frame, Cpu.context])

/-- **Interrupts preserve the interrupted context.** For every vector and every state of
the interrupted code, `isr_handler` is called on an aligned stack with a `regs_t` that
holds the interrupted registers, the vector and the error code or 0; and when it
returns as a C function with the frame unmodified, `iretq` resumes the interrupted
code with all its registers. -/
theorem interrupt_preserves_context (s : Cpu) {vector : Nat} (isVector : vector < 48)
    (errorCode offset : Word) : ∃ call, s.interrupted vector errorCode offset = some call ∧
      readRegs call.mem (call.gpr .rdi) = s.regs vector errorCode ∧ call.rsp.toNat % 16 = 0 ∧
      ∀ {target returnAddress exit}, Returns (call.call target returnAddress) exit →
        FrameKept (call.gpr .rdi) (call.call target returnAddress).mem exit.mem →
          (exit.run isrCommonRestore).gpr = s.gpr ∧ (exit.run isrCommonRestore).rip = s.rip ∧
          (exit.run isrCommonRestore).cs = s.cs ∧ (exit.run isrCommonRestore).rflags = s.rflags ∧
          (exit.run isrCommonRestore).rsp = s.rsp ∧ (exit.run isrCommonRestore).ss = s.ss := by
  obtain ⟨call, interrupted, stack, points⟩ := s.interrupted_stack isVector errorCode offset
  refine ⟨call, interrupted, ?_, ?_, ?_⟩
  · rw [points]
    exact stack.readRegs
  · have extent := congrArg BitVec.toNat stack.extent
    have aligned := s.frameBase_aligned
    rw [BitVec.toNat_add, BitVec.toNat_ofNat] at extent
    have length : (s.handlerFrame vector errorCode).length = 22 := rfl
    rw [length] at extent
    omega
  · intro target returnAddress exit returns kept
    rw [points] at kept
    exact (stack.returned rfl returns kept).restored

/-- Interrupted code with a stack pointer that is not aligned. -/
def sampleCpu : Cpu where
  gpr
    | .rax => 0x11
    | .rbx => 0x12
    | .rcx => 0x13
    | .rdx => 0x14
    | .rsi => 0x15
    | .rdi => 0x16
    | .rbp => 0x17
    | .r8 => 0x18
    | .r9 => 0x19
    | .r10 => 0x1A
    | .r11 => 0x1B
    | .r12 => 0x1C
    | .r13 => 0x1D
    | .r14 => 0x1E
    | .r15 => 0x1F
  rsp := 0x90009
  rip := 0x101234
  rflags := 0x202
  cs := 8
  ss := 16
  mem := fun _ => 0

/-- A handler that leaves its own values in the registers that it need not keep. -/
theorem interrupt_preserves_context_sample :
    ∃ call exit, sampleCpu.interrupted 14 2 0x102000 = some call ∧
      (readRegs call.mem (call.gpr .rdi)).errorCode = 2 ∧
      (readRegs call.mem (call.gpr .rdi)).r9 = 0x19 ∧
      Returns (call.call 0x103000 0x102040) exit ∧ exit.gpr .rax = 0xDEAD ∧ exit.gpr .r9 = 0xDEAD ∧
      (exit.run isrCommonRestore).gpr = sampleCpu.gpr ∧
      (exit.run isrCommonRestore).rsp = 0x90009 := by
  obtain ⟨call, interrupted, regs, _, resumes⟩ :=
    @interrupt_preserves_context sampleCpu 14 (by decide) 2 0x102000
  have returns : Returns (call.call 0x103000 0x102040)
      { call.call 0x103000 0x102040 with
        gpr := fun register =>
          if register ∈ calleeSaved then (call.call 0x103000 0x102040).gpr register else 0xDEAD
        rip := (call.call 0x103000 0x102040).mem.word (call.call 0x103000 0x102040).rsp
        rsp := (call.call 0x103000 0x102040).rsp + 8
        rflags := 0x46 } :=
    ⟨rfl, rfl, fun _ saved => if_pos saved⟩
  obtain ⟨gpr, _, _, _, rsp, _⟩ := resumes returns fun _ _ => rfl
  refine ⟨call, _, interrupted, ?_, ?_, returns, rfl, rfl, gpr, rsp⟩
  · rw [regs]
    rfl
  · rw [regs]
    rfl

end Run

end GodOs
