import GodOs.Lib.Memory
import GodOs.Lib.Bits
import GodOs.Lib.Bytes
import GodOs.Lib.Outcome
import GodOs.Lib.Probe
import GodOs.Lib.Transition
import GodOs.Lib.Forest
import GodOs.Pmm.Frame
import GodOs.Mb2.Parse
import GodOs.Mb2.RoundTrip
import GodOs.Pmm.Init
import GodOs.Pmm.Ensure
import GodOs.Pmm.Initial
import GodOs.Pmm.Allocator
import GodOs.Pmm.Lending
import GodOs.Machine.Mmu
import GodOs.Vm.Space
import GodOs.Vm.Paging
import GodOs.Vm.Boot
import GodOs.Vm.Mapped
import GodOs.Pmm.Reserved
import GodOs.Vm.Walk
import GodOs.Vm.Map
import GodOs.Vm.Create
import GodOs.Vm.Fault
import GodOs.Vm.System
import GodOs.Vm.Refinement
import GodOs.Vm.Exact
import GodOs.Vm.Isolation
import GodOs.Vm.Sharing
import GodOs.Vm.Identity
import GodOs.Vm.Coherence
import GodOs.Vm.Ownership
import GodOs.Vm.Demand
import GodOs.Vm.Refusal
import GodOs.Vm.FlatHeap
import GodOs.Vm.Intact
import GodOs.Lib.Ring
import GodOs.Lib.Stack
import GodOs.Lib.Blocks
import GodOs.Lib.Extents
import GodOs.Lib.Wrap
import GodOs.Keyboard.Handler
import GodOs.Keyboard.Fifo
import GodOs.Keyboard.Decode
import GodOs.Kernel.MainLoop
import GodOs.Vga.Screen
import GodOs.Vga.Terminal
import GodOs.Vga.Colour
import GodOs.Vga.Printf
import GodOs.Vga.Format
import GodOs.Vga.Scan
import GodOs.Vga.Digits
import GodOs.Vga.Signed
import GodOs.Vga.Dump
import GodOs.Heap.Alloc
import GodOs.Heap.Headers
import GodOs.Heap.Run
import GodOs.Heap.Gaps
import GodOs.Heap.Canonical
import GodOs.Heap.DoubleFree
import GodOs.Heap.SelfTest
import GodOs.Machine.Interrupt
import GodOs.Mb2.Safety
import GodOs.Machine.Pic
import GodOs.Irq.Pic
import GodOs.Irq.Service
import GodOs.Irq.Dispatch
import GodOs.Irq.Gates
import GodOs.Irq.Handler
import GodOs.Kernel.Typing
import GodOs.Kernel.Progress
import GodOs.Lib.Access
import GodOs.Heap.Accesses
import GodOs.Heap.Paged
import GodOs.Boot.Start
import GodOs.Irq.Stop
