import GodOs.Heap.Accesses
import GodOs.Heap.Canonical
import GodOs.Vm.FlatHeap

/-!
# The heap over demand paging

`kmalloc`, `kfree` and `heap_free_bytes` read and write the heap window, and any of their
accesses may fault. The kernel is a machine for these programs: whatever spaces are
switched, created and mapped between two calls, the calls answer as on flat memory, and
each of them comes to its end unless an access runs out of frames.
-/

namespace GodOs

open Lib Lib.Access Lib.Blocks

/-- A number from its bytes, least significant first. -/
def wordOf : List UInt8 → Nat
  | [] => 0
  | byte :: rest => byte.toNat + 256 * wordOf rest

theorem wordOf_range (mem : Memory) (va width : Nat) :
    wordOf ((List.range width).map fun offset => mem (va + offset)) = mem.load va width := by
  induction width generalizing va with
  | zero => rfl
  | succ width ih =>
      rw [List.range_succ_eq_map, List.map_cons, List.map_map, wordOf, Memory.load, ← ih (va + 1),
        Nat.add_zero]
      congr 4
      funext offset
      rw [Function.comp_apply, Nat.succ_eq_add_one, Nat.add_right_comm, Nat.add_assoc]

/-- The kernel as a machine: a word is one access to the heap window, with its faults. -/
def kernelMachine : Machine System where
  load s va width value s' := ∃ bytes, bytes.length = width ∧
    DemandStep s (.access (.read va bytes)) s' ∧ value = wordOf bytes
  store s va width value s' := DemandStep s (.access (.write va (wordBytes width value))) s'

/-- The heap window shows a memory: the pages of `base` are touched, and the pool has four
frames for each page of `pages` that is not. -/
def WindowShows (image : Image) (reserved : Set Nat) (base pages : Finset Nat) (s : System)
    (mem : Memory) : Prop :=
  ∃ touched, base ⊆ touched ∧ Demand image reserved s ⟨mem, touched⟩ ∧
    4 * (pages \ touched).card ≤ s.kernel.pmm.freeFrames

/-- The accesses to the heap window that touch only pages of `pages`, if there are any. -/
def Within (pages : Finset Nat) (va width : Nat) : Prop :=
  InArena vmHeapBase (vmHeapBase + vmHeapSize) va width ∧ (pages = ∅ ∨ pagesOf va width ⊆ pages)

instance (pages : Finset Nat) (va width : Nat) : Decidable (Within pages va width) :=
  inferInstanceAs (Decidable (_ ∧ _))

/-- An access finds too few frames in the pool. -/
def OutOfFrames (s : System) (va width : Nat) : Prop :=
  ∃ errorCode, RunsOut errorCode va width s.kernel

section Machine

variable {image : Image} {reserved : Set Nat} {base pages : Finset Nat} {s s' : System}
  {mem : Memory} {touched : Finset Nat} {va width : Nat} {bytes : List UInt8}

theorem InArena.inHeap (inside : InArena vmHeapBase (vmHeapBase + vmHeapSize) va width) :
    ∀ offset < width, InHeap (va + offset) := by
  intro offset within
  unfold InArena at inside
  exact ⟨by omega, by omega⟩

/-- A read returns the word of the memory, and takes at most four frames for a new page. -/
theorem Demand.read_word (demand : Demand image reserved s ⟨mem, touched⟩)
    (step : DemandStep s (.access (.read va bytes)) s') :
    wordOf bytes = mem.load va bytes.length ∧
      Demand image reserved s' ⟨mem, touched ∪ pagesOf va bytes.length⟩ ∧
      s.kernel.pmm.freeFrames ≤
        s'.kernel.pmm.freeFrames + 4 * (pagesOf va bytes.length \ touched).card := by
  obtain ⟨array, demand', visible⟩ := demand.step step (fun _ same => nomatch same) nofun
  have visible : FlatStep ⟨mem, touched⟩ (.read va bytes) array := visible
  have seen := @FlatStep.read_back _ _ va [] bytes (Steps.single visible)
  obtain rfl := FlatStep.eq_apply visible
  refine ⟨?_, demand', ?_⟩
  · rw [← wordOf_range mem va]
    exact congrArg wordOf seen
  · cases step with
    | read inHeap served =>
        rw [List.length_map, List.length_range]
        exact demand.served_spent served inHeap

/-- A write stores its bytes, and takes at most four frames for a new page. -/
theorem Demand.write_word (demand : Demand image reserved s ⟨mem, touched⟩) {value : Nat}
    (step : DemandStep s (.access (.write va (wordBytes width value))) s') :
    Demand image reserved s' ⟨mem.store va width value, touched ∪ pagesOf va width⟩ ∧
      s.kernel.pmm.freeFrames ≤ s'.kernel.pmm.freeFrames + 4 * (pagesOf va width \ touched).card := by
  obtain ⟨array, demand', visible⟩ := demand.step step (fun _ same => nomatch same) nofun
  have visible : FlatStep ⟨mem, touched⟩ (.write va (wordBytes width value)) array := visible
  obtain rfl := FlatStep.eq_apply visible
  rw [FlatArray.apply, writeBytes_wordBytes, wordBytes_length] at demand'
  refine ⟨demand', ?_⟩
  cases step with
  | write inHeap served =>
      have spent := demand.served_spent served inHeap
      rw [wordBytes_length] at spent
      simp only [Kernel.storeBytes_pmm]
      exact spent

/-- Pages that were touched need no frames any more. -/
theorem frames_left {new : Finset Nat} {free free' : Nat} (inside : pages = ∅ ∨ new ⊆ pages)
    (enough : 4 * (pages \ touched).card ≤ free) (spent : free ≤ free' + 4 * (new \ touched).card) :
    4 * (pages \ (touched ∪ new)).card ≤ free' := by
  rcases inside with rfl | inside
  · simp
  · have whole : pages \ touched = pages \ (touched ∪ new) ∪ new \ touched := by
      ext page
      have member := @inside page
      simp only [Finset.mem_sdiff, Finset.mem_union]
      tauto
    have disjoint : Disjoint (pages \ (touched ∪ new)) (new \ touched) := by
      rw [Finset.disjoint_left]
      intro page one other
      simp only [Finset.mem_sdiff, Finset.mem_union] at one other
      exact one.2 (.inr other.1)
    rw [whole, Finset.card_union_of_disjoint disjoint] at enough
    omega

/-- The kernel answers as the memory that its window shows. -/
theorem kernelMachine_simulates :
    Simulates kernelMachine (WindowShows image reserved base pages) (Within pages) where
  load := by
    rintro s mem va width value s' ⟨touched, known, demand, enough⟩ ⟨_, inside⟩
      ⟨bytes, rfl, step, rfl⟩
    obtain ⟨word, demand', spent⟩ := demand.read_word step
    exact ⟨word, _, known.trans Finset.subset_union_left, demand', frames_left inside enough spent⟩
  store := by
    rintro s mem va width value s' ⟨touched, known, demand, enough⟩ ⟨_, inside⟩ step
    obtain ⟨demand', spent⟩ := demand.write_word step
    exact ⟨_, known.trans Finset.subset_union_left, demand', frames_left inside enough spent⟩

/-- With four frames for each page that a program may touch, it does not run out. -/
theorem WindowShows.enough {errorCode : Nat} (shows : WindowShows image reserved base pages s mem)
    (within : Within pages va width) (runsOut : RunsOut errorCode va width s.kernel) : pages = ∅ := by
  obtain ⟨touched, _, demand, enough⟩ := shows
  have few := runsOut.few demand within.1.inHeap
  rcases within.2 with none' | inside
  · exact none'
  · have fewer := Finset.card_le_card (Finset.sdiff_subset_sdiff inside (Finset.Subset.refl touched))
    omega

/-- The kernel carries out each access to the window, unless it runs out of frames. -/
theorem kernelMachine_serves :
    Serves kernelMachine (WindowShows image reserved base pages) (Within pages)
      fun s va width => pages = ∅ ∧ OutOfFrames s va width where
  load := by
    intro s mem va width shows within
    obtain ⟨touched, known, demand, enough⟩ := id shows
    have inHeap := within.1.inHeap
    rcases demand.served_or_runsOut inHeap (.inl rfl) with ⟨k', served⟩ | runsOut
    · exact .inl ⟨_, _, _, by simp, .read inHeap served, rfl⟩
    · exact .inr ⟨shows.enough within runsOut, _, runsOut⟩
  store := by
    intro s mem va width shows within value
    obtain ⟨touched, known, demand, enough⟩ := id shows
    have inHeap := within.1.inHeap
    rcases demand.served_or_runsOut inHeap (.inr rfl) with ⟨k', served⟩ | runsOut
    · refine .inl ⟨{ s with kernel := k'.storeBytes va (wordBytes width value) }, ?_⟩
      rw [← wordBytes_length width value] at inHeap served
      exact .write inHeap served
    · exact .inr ⟨shows.enough within runsOut, _, runsOut⟩

end Machine

/-- What a client of the heap does, with what it is told. -/
inductive ClientEvent where
  | heap (event : HeapEvent)
  | freeBytes (total : Nat)
  | read (address : Nat) (byte : UInt8)

/-- The clients on flat memory. They read what they hold. -/
inductive ClientStep : HeapSystem → ClientEvent → HeapSystem → Prop where
  | heap {system next : HeapSystem} {event : HeapEvent} (step : HeapStep system event next) :
      ClientStep system (.heap event) next
  | freeBytes {system : HeapSystem} {total : Nat} (call : heapFreeBytes system.heap = .done total) :
      ClientStep system (.freeBytes total) system
  | read {system : HeapSystem} {p n address : Nat} (held : (p, n) ∈ system.live) (lower : p ≤ address)
      (upper : address < p + n) : ClientStep system (.read address (system.heap.mem address)) system

/-- The system with the static pointers of `heap.c` and the live allocations. -/
structure PagedHeap where
  system : System
  start : Nat
  finish : Nat
  live : List (Nat × Nat)

/-- A call of the memory layer, or a step of a client of the heap. -/
inductive PagedEvent where
  | call (event : Event)
  | client (event : ClientEvent)

def PagedEvent.client? : PagedEvent → Option ClientEvent
  | .call _ => none
  | .client event => some event

/-- One step over demand paging. A call of the heap is the run of its accesses with their
page faults, to the end; no other call comes between them. -/
inductive PagedStep : PagedHeap → PagedEvent → PagedHeap → Prop where
  | call {paged : PagedHeap} {event : Event} (allowed : paged.system.Disciplined event)
      (noFault : ∀ cr2 errorCode, event ≠ .fault cr2 errorCode) :
      PagedStep paged (.call event) { paged with system := paged.system.apply event }
  | malloc {paged : PagedHeap} {s' : System} {n p : Nat}
      (run : Carried kernelMachine (kmallocAccesses paged.start paged.finish n) paged.system
        (.ret (.done p)) s') :
      PagedStep paged (.client (.heap (.malloc n p)))
        { paged with system := s', live := if p = 0 then paged.live else (p, n) :: paged.live }
  | freeNull {paged : PagedHeap} {s' : System}
      (run : Carried kernelMachine (kfreeAccesses paged.start paged.finish 0) paged.system
        (.ret (.done ())) s') :
      PagedStep paged (.client (.heap .freeNull)) { paged with system := s' }
  | free {paged : PagedHeap} {s' : System} {p n : Nat} (held : (p, n) ∈ paged.live)
      (run : Carried kernelMachine (kfreeAccesses paged.start paged.finish p) paged.system
        (.ret (.done ())) s') :
      PagedStep paged (.client (.heap (.free p)))
        { paged with system := s', live := paged.live.erase (p, n) }
  | freeBytes {paged : PagedHeap} {s' : System} {total : Nat}
      (run : Carried kernelMachine (heapFreeBytesAccesses paged.start paged.finish) paged.system
        (.ret (.done total)) s') :
      PagedStep paged (.client (.freeBytes total)) { paged with system := s' }
  | write {paged : PagedHeap} {s' : System} {p n address : Nat} (byte : UInt8)
      (held : (p, n) ∈ paged.live) (lower : p ≤ address) (upper : address < p + n)
      (step : DemandStep paged.system (.access (.write address [byte])) s') :
      PagedStep paged (.client (.heap (.write address byte))) { paged with system := s' }
  | read {paged : PagedHeap} {s' : System} {p n address : Nat} {byte : UInt8}
      (held : (p, n) ∈ paged.live) (lower : p ≤ address) (upper : address < p + n)
      (step : DemandStep paged.system (.access (.read address [byte])) s') :
      PagedStep paged (.client (.read address byte)) { paged with system := s' }

/-- The paged heap is a flat heap that is well-formed. -/
structure PagedHeap.Refines (image : Image) (reserved : Set Nat) (paged : PagedHeap)
    (flat : HeapSystem) : Prop where
  start : paged.start = flat.heap.start
  finish : paged.finish = flat.heap.finish
  live : paged.live = flat.live
  wellFormed : flat.WellFormed
  shows : WindowShows image reserved {pageNumber vmHeapBase} ∅ paged.system flat.heap.mem

/-- On this memory the program runs inside the window, to a value. -/
def Runs {α : Type} (program : Access α) (mem : Memory) : Prop :=
  program.Stays (Within ∅) mem ∧ ∃ run, program.flat mem = .done run

section Clients

variable {α : Type} {system next : HeapSystem} {event : ClientEvent} {blocks : List Block} {p n : Nat}
  {h : Heap} {program : Access α}

theorem ClientStep.preserves (step : ClientStep system event next) (wellFormed : system.WellFormed) :
    next.WellFormed := by
  cases step with
  | heap step => exact step.preserves wellFormed
  | freeBytes | read => exact wellFormed

/-- A step keeps an allocation that it does not free, and each of its bytes that it does
not write. -/
theorem ClientStep.keeps {address : Nat} (step : ClientStep system event next)
    (wellFormed : system.WellFormed) (held : (p, n) ∈ system.live) (lower : p ≤ address)
    (upper : address < p + n) (notFreed : event ≠ .heap (.free p))
    (notWritten : ∀ byte, event ≠ .heap (.write address byte)) :
    (p, n) ∈ next.live ∧ next.heap.mem address = system.heap.mem address := by
  obtain ⟨blocks, inv⟩ := wellFormed
  cases step with
  | freeBytes | read => exact ⟨held, rfl⟩
  | heap step =>
      cases step with
      | malloc call =>
          rename_i n' p'
          refine ⟨?_, ?_⟩
          · split
            · exact held
            · exact List.mem_cons_of_mem _ held
          · rcases inv.kmalloc_spec n' with result | ⟨before, size, after, rfl, _, fits, result⟩
            · obtain rfl := (Prod.mk.inj (Outcome.done.inj (result.symm.trans call))).1
              rfl
            · obtain rfl := (Prod.mk.inj (Outcome.done.inj (result.symm.trans call))).1
              exact inv.heap.take_frame fits (inv.covered held lower upper)
      | freeNull call =>
          obtain rfl := Outcome.done.inj call
          exact ⟨held, rfl⟩
      | free isHeld call =>
          rename_i heap' q m
          have different : p ≠ q := by
            rintro rfl
            exact notFreed rfl
          obtain ⟨_, _, result, _, kept⟩ := inv.release isHeld
          obtain rfl := Outcome.done.inj (result.symm.trans call)
          refine ⟨(List.mem_erase_of_ne ?_).mpr held, kept (p, n) held different address lower upper⟩
          rintro same
          exact different (Prod.mk.inj same).1
      | write byte _ _ _ =>
          refine ⟨held, Function.update_of_ne ?_ _ _⟩
          rintro rfl
          exact notWritten byte rfl

/-- Accesses in the arena of a well-formed heap lie in the window. -/
theorem HeapInv.runs (inv : HeapInv h blocks) {result : Heap × α}
    (stays : program.Stays (InArena h.start h.finish) h.mem) (total : h.flat program = .done result) :
    Runs program h.mem := by
  refine ⟨stays.mono fun inside => ?_, ?_⟩
  · rw [inv.start, inv.finish] at inside
    exact ⟨inside, .inl rfl⟩
  · obtain ⟨run, flat, _⟩ := Outcome.bind_eq_done.mp total
    exact ⟨run, flat⟩

theorem HeapSystem.Inv.kmalloc_runs (inv : system.Inv blocks) (n : Nat) :
    Runs (kmallocAccesses system.heap.start system.heap.finish n) system.heap.mem := by
  obtain ⟨result, call⟩ : ∃ result, kmalloc system.heap n = .done result := by
    rcases HeapSystem.Inv.kmalloc_spec inv n with call | ⟨_, _, _, _, _, _, call⟩
    · exact ⟨_, call⟩
    · exact ⟨_, call⟩
  exact inv.heap.runs (inv.heap.kmallocAccesses_stays n) ((kmallocAccesses_flat system.heap n).trans call)

theorem HeapSystem.Inv.kfree_runs (inv : system.Inv blocks) (held : (p, n) ∈ system.live) :
    Runs (kfreeAccesses system.heap.start system.heap.finish p) system.heap.mem := by
  obtain ⟨size, before, after, rfl, place, _⟩ := inv.block held
  obtain ⟨heap', _, call, _⟩ := HeapSystem.Inv.release inv held
  simp only at place
  refine inv.heap.runs ?_ ((kfreeAccesses_flat system.heap p).trans (by rw [call, Outcome.bind_done]))
  rw [place]
  exact inv.heap.kfreeAccesses_stays

theorem HeapSystem.Inv.kfreeNull_runs (system : HeapSystem) :
    Runs (kfreeAccesses system.heap.start system.heap.finish 0) system.heap.mem := by
  unfold kfreeAccesses
  rw [if_pos rfl]
  exact ⟨trivial, _, rfl⟩

theorem HeapSystem.Inv.freeBytes_runs (inv : system.Inv blocks) :
    Runs (heapFreeBytesAccesses system.heap.start system.heap.finish) system.heap.mem :=
  inv.heap.runs inv.heap.heapFreeBytesAccesses_stays
    ((heapFreeBytesAccesses_flat system.heap).trans (by
      rw [inv.heap.heapFreeBytes_eq, Outcome.bind_done]))

end Clients

section Simulation

variable {α : Type} {image : Image} {reserved : Set Nat} {base pages : Finset Nat} {s : System}
  {mem mem' : Memory} {paged next : PagedHeap} {flat : HeapSystem} {event : PagedEvent}
  {program : Access α} {value : α}

/-- A call that comes to its end over paging is the call on flat memory. -/
theorem PagedHeap.Refines.ends {s' : System} {value : α} (refines : paged.Refines image reserved flat)
    (runs : Runs program flat.heap.mem)
    (run : Carried kernelMachine program paged.system (.ret (.done value)) s') :
    ∃ mem, flat.heap.flat program = .done ({ flat.heap with mem := mem }, value) ∧
      WindowShows image reserved {pageNumber vmHeapBase} ∅ s' mem := by
  obtain ⟨mem, shows, same⟩ := kernelMachine_simulates.ends run refines.shows runs.1
  exact ⟨mem, by rw [Heap.flat, same]; rfl, shows⟩

/-- A step on flat memory with the state over paging that goes with it. -/
theorem PagedHeap.Refines.after {visible : ClientEvent} {mem : Memory} {s' : System}
    {live' : List (Nat × Nat)} (refines : paged.Refines image reserved flat)
    (step : ClientStep flat visible ⟨{ flat.heap with mem := mem }, live'⟩)
    (shows : WindowShows image reserved {pageNumber vmHeapBase} ∅ s' mem) :
    ∃ flat', ({ paged with system := s', live := live' } : PagedHeap).Refines image reserved flat' ∧
      ClientStep flat visible flat' :=
  ⟨⟨{ flat.heap with mem := mem }, live'⟩,
    ⟨refines.start, refines.finish, rfl, step.preserves refines.wellFormed, shows⟩, step⟩

/-- Each step over paging is a step on flat memory, or none. -/
theorem PagedHeap.Refines.step (refines : paged.Refines image reserved flat)
    (step : PagedStep paged event next)
    (canonical : ∀ call, event = .call call → CanonicalEvent call) :
    ∃ flat', next.Refines image reserved flat' ∧ Labelled ClientStep flat event.client? flat' := by
  obtain ⟨blocks, inv⟩ := id refines.wellFormed
  cases step with
  | call allowed noFault =>
      obtain ⟨touched, known, demand, _⟩ := refines.shows
      have demand' := demand.call allowed (canonical _ rfl) noFault fun _ =>
        ⟨_, known (Finset.mem_singleton_self _)⟩
      exact ⟨flat, ⟨refines.start, refines.finish, refines.live, refines.wellFormed,
        touched, known, demand', by simp⟩, rfl⟩
  | @malloc s' n p run =>
      rw [refines.start, refines.finish] at run
      obtain ⟨mem, call, shows⟩ := refines.ends (inv.kmalloc_runs n) run
      rw [kmallocAccesses_flat] at call
      rw [refines.live]
      exact refines.after (.heap (.malloc call)) shows
  | freeNull run =>
      rw [refines.start, refines.finish] at run
      obtain ⟨mem, call, shows⟩ := refines.ends (HeapSystem.Inv.kfreeNull_runs flat) run
      rw [kfreeAccesses_flat] at call
      obtain ⟨heap', called, same⟩ := Outcome.bind_eq_done.mp call
      obtain rfl := (Prod.mk.inj (Outcome.done.inj same)).1
      have step : ClientStep flat (.heap .freeNull) ⟨{ flat.heap with mem := mem }, paged.live⟩ := by
        rw [refines.live]
        exact .heap (.freeNull called)
      exact refines.after step shows
  | @free s' p n held run =>
      rw [refines.live] at held ⊢
      rw [refines.start, refines.finish] at run
      obtain ⟨mem, call, shows⟩ := refines.ends (inv.kfree_runs held) run
      rw [kfreeAccesses_flat] at call
      obtain ⟨heap', called, same⟩ := Outcome.bind_eq_done.mp call
      obtain rfl := (Prod.mk.inj (Outcome.done.inj same)).1
      exact refines.after (.heap (.free held called)) shows
  | freeBytes run =>
      rw [refines.start, refines.finish] at run
      obtain ⟨mem, call, shows⟩ := refines.ends inv.freeBytes_runs run
      rw [heapFreeBytesAccesses_flat] at call
      obtain ⟨total, called, same⟩ := Outcome.bind_eq_done.mp call
      obtain ⟨unchanged, rfl⟩ := Prod.mk.inj (Outcome.done.inj same)
      have step : ClientStep flat (.freeBytes total) ⟨{ flat.heap with mem := mem }, paged.live⟩ := by
        rw [← unchanged, refines.live]
        exact .freeBytes called
      exact refines.after step shows
  | @write s' p n address byte held lower upper step =>
      obtain ⟨touched, known, demand, _⟩ := refines.shows
      have whole : [byte] = wordBytes 1 byte.toNat := by simp [wordBytes]
      rw [whole] at step
      obtain ⟨demand', _⟩ := demand.write_word step
      rw [← writeBytes_wordBytes, ← whole] at demand'
      rw [refines.live] at held
      have step : ClientStep flat (.heap (.write address byte))
          ⟨{ flat.heap with mem := Function.update flat.heap.mem address byte }, paged.live⟩ := by
        rw [refines.live]
        exact .heap (.write byte held lower upper)
      exact refines.after step ⟨_, known.trans Finset.subset_union_left, demand', by simp⟩
  | @read s' p n address byte held lower upper step =>
      obtain ⟨touched, known, demand, _⟩ := refines.shows
      obtain ⟨word, demand', _⟩ := demand.read_word step
      rw [refines.live] at held
      obtain rfl : byte = flat.heap.mem address :=
        UInt8.toNat_inj.mp (by simpa [wordOf, Memory.load] using word)
      have step : ClientStep flat (.read address (flat.heap.mem address))
          ⟨{ flat.heap with mem := flat.heap.mem }, paged.live⟩ := by
        rw [refines.live]
        exact .read held lower upper
      exact refines.after step ⟨_, known.trans Finset.subset_union_left, demand', by simp⟩

/-- A run over paging is a run on flat memory. -/
theorem PagedHeap.Refines.run {events : List PagedEvent} (refines : paged.Refines image reserved flat)
    (run : Steps PagedStep paged events next)
    (canonical : ∀ call, .call call ∈ events → CanonicalEvent call) :
    ∃ flat', next.Refines image reserved flat' ∧
      Steps ClientStep flat (events.filterMap PagedEvent.client?) flat' :=
  run.simulate (fun paged flat => paged.Refines image reserved flat)
    (fun event => ∀ call, event = .call call → CanonicalEvent call)
    (fun refines allowed step => refines.step step allowed)
    (fun _ member call same => canonical call (same ▸ member)) refines

/-- The pages of the heap window. -/
def windowPages : Finset Nat :=
  Finset.Ico (vmHeapBase / vmPageSize) ((vmHeapBase + vmHeapSize) / vmPageSize)

theorem windowPages_card : windowPages.card = vmHeapSize / vmPageSize := by
  rw [windowPages, Nat.card_Ico]
  decide

theorem pagesOf_window {va width : Nat}
    (inside : InArena vmHeapBase (vmHeapBase + vmHeapSize) va width) : pagesOf va width ⊆ windowPages := by
  intro page isPage
  obtain ⟨offset, within, rfl⟩ := Finset.mem_image.mp isPage
  rw [Finset.mem_range] at within
  simp only [InArena, vmHeapBase, vmHeapSize] at inside
  simp only [windowPages, Finset.mem_Ico, pageNumber, vmPageSize, vmHeapBase, vmHeapSize]
  omega

theorem Demand.touched_window {s : System} {array : FlatArray} (demand : Demand image reserved s array) :
    array.touched ⊆ windowPages := by
  intro page isTouched
  obtain ⟨va, inHeap, rfl⟩ := demand.window page isTouched
  simp only [InHeap, vmHeapBase, vmHeapSize] at inHeap
  simp only [windowPages, Finset.mem_Ico, pageNumber, vmPageSize, vmHeapBase, vmHeapSize]
  omega

/-- A program advances: from wherever it stands it is carried to a value, or to an access
that runs out of frames. -/
def Advances (s : System) (program : Access α) : Prop :=
  ∀ {rest s'}, Carried kernelMachine program s rest s' →
    (∃ value s'', Carried kernelMachine rest s' (.ret (.done value)) s'') ∨
      ∃ rest' s'' va width, Carried kernelMachine rest s' rest' s'' ∧
        rest'.first = some (va, width) ∧ OutOfFrames s'' va width

/-- A program answers: it advances, and it is carried to a value if the pool has four
frames for each page of the window that has not faulted yet. -/
def Answers (s : System) (program : Access α) : Prop :=
  Advances s program ∧
  (4 * (vmHeapSize / vmPageSize - s.kernel.faults) ≤ s.kernel.pmm.freeFrames →
    ∃ value s', Carried kernelMachine program s (.ret (.done value)) s')

/-- What runs to a value on the memory of the window advances. -/
theorem WindowShows.advances (shows : WindowShows image reserved base ∅ s mem) (runs : Runs program mem) :
    Advances s program := by
  obtain ⟨stays, ⟨after, value⟩, total⟩ := runs
  intro rest s' run
  obtain ⟨mem', shows', same, stays'⟩ := kernelMachine_simulates.carried run shows stays
  rcases kernelMachine_simulates.finishes kernelMachine_serves shows' stays' (same.trans total) with
    ⟨s'', finishes, _⟩ | ⟨rest', s'', va, width, stuck, first, _, out⟩
  · exact .inl ⟨value, s'', finishes⟩
  · exact .inr ⟨rest', s'', va, width, stuck, first, out⟩

/-- With four frames for each page it may touch, it comes to its value. -/
theorem WindowShows.completes (shows : WindowShows image reserved base pages s mem) (some : pages ≠ ∅)
    (stays : program.Stays (Within pages) mem) (total : program.flat mem = .done (mem', value)) :
    ∃ s', Carried kernelMachine program s (.ret (.done value)) s' := by
  rcases kernelMachine_simulates.finishes kernelMachine_serves shows stays total with
    ⟨s', finishes, _⟩ | ⟨_, _, _, _, _, _, none', _⟩
  · exact ⟨s', finishes⟩
  · exact absurd none' some

/-- What runs to a value on flat memory answers over paging. -/
theorem PagedHeap.Refines.answers (refines : paged.Refines image reserved flat)
    (runs : Runs program flat.heap.mem) : Answers paged.system program := by
  refine ⟨refines.shows.advances runs, fun enough => ?_⟩
  obtain ⟨stays, ⟨after, value⟩, total⟩ := runs
  obtain ⟨touched, known, demand, _⟩ := refines.shows
  have faults : paged.system.kernel.faults = touched.card := demand.faults
  have count : (windowPages \ touched).card = windowPages.card - touched.card :=
    Finset.card_sdiff_of_subset demand.touched_window
  rw [windowPages_card, ← faults] at count
  have shows : WindowShows image reserved {pageNumber vmHeapBase} windowPages paged.system flat.heap.mem :=
    ⟨touched, known, demand, by omega⟩
  refine ⟨value, shows.completes ?_ (stays.mono fun inside => ⟨inside.1, .inr (pagesOf_window inside.1)⟩)
    total⟩
  exact Finset.card_pos.mp (by rw [windowPages_card]; decide) |>.ne_empty

end Simulation

section Boot

variable {image : Image} {mbInfo : Nat} {start booted : System} {base finish : Nat}
  {events : List PagedEvent} {paged : PagedHeap}

/-- After boot the heap window shows zeros. -/
theorem Started.window (started : Started image mbInfo start) {pages : Finset Nat}
    (enough : 4 * pages.card ≤ start.kernel.pmm.freeFrames) :
    WindowShows image (reservedFrames image mbInfo start.kernel.pmm.infoEnd) ∅ pages start fun _ => 0 :=
  ⟨∅, Finset.Subset.refl _, started.demand, by simpa using enough⟩

theorem heapInit_runs : Runs heapInitAccesses fun _ => 0 :=
  ⟨(heapInitAccesses_stays _).mono fun inside => ⟨inside, .inl rfl⟩, _, heapInitAccesses_flat _⟩

/-- `heap_init` touches one page, so four frames are enough for it. -/
theorem Started.heapInit_completes (started : Started image mbInfo start)
    (frames : 4 ≤ start.kernel.pmm.freeFrames) : ∃ booted, Carried kernelMachine heapInitAccesses start
      (.ret (.done (vmHeapBase, vmHeapBase + vmHeapSize))) booted := by
  have shows := @Started.window image mbInfo start started {pageNumber vmHeapBase} (by simpa using frames)
  exact shows.completes (Finset.singleton_ne_empty _) (by decide) (heapInitAccesses_flat _)

/-- After boot, `heap_init` over paging leaves the initial heap. -/
theorem Started.heapInit_refines (started : Started image mbInfo start)
    (init : Carried kernelMachine heapInitAccesses start (.ret (.done (base, finish))) booted) :
    PagedHeap.Refines image (reservedFrames image mbInfo start.kernel.pmm.infoEnd)
      ⟨booted, base, finish, []⟩ (HeapSystem.initial fun _ => 0) := by
  obtain ⟨mem, ⟨touched, _, demand, enough⟩, same⟩ := kernelMachine_simulates.ends init
    (started.window (Nat.zero_le _)) heapInit_runs.1
  rw [heapInitAccesses_flat] at same
  obtain ⟨rfl, pointers⟩ := Prod.mk.inj (Outcome.done.inj same)
  obtain ⟨rfl, rfl⟩ := Prod.mk.inj pointers
  -- the magic number in the first page is not zero, so the page was touched
  have first : pageNumber vmHeapBase ∈ touched := by
    by_contra untouched
    have inHeap : InHeap vmHeapBase := by decide
    have zero : (heapInit fun _ => 0).mem vmHeapBase = 0 := (demand.absent inHeap untouched).2
    revert zero
    decide
  exact ⟨rfl, rfl, rfl, ⟨_, HeapSystem.Inv.initial _⟩, touched, Finset.singleton_subset_iff.mpr first,
    demand, enough⟩

/-- **The heap works over demand paging.** After boot `heap_init` ends or runs out of
frames, and it ends if four frames are free. Run from there any calls of the memory layer
with canonical addresses, in any space, that free only frames that are held, write only to
such frames and leave the heap window alone; between them calls of `kmalloc`, `kfree` of
live pointers and `heap_free_bytes`, and reads and writes of clients inside what they
hold. Their accesses raise the only page faults. All that the clients are told is a run on
flat memory; and each call made next answers. -/
theorem paged_heap_refines (started : Started image mbInfo start) :
    Advances start heapInitAccesses ∧
    (4 ≤ start.kernel.pmm.freeFrames → ∃ booted, Carried kernelMachine heapInitAccesses start
      (.ret (.done (vmHeapBase, vmHeapBase + vmHeapSize))) booted) ∧
    ∀ {booted : System} {base finish : Nat} {events : List PagedEvent} {paged : PagedHeap},
      Carried kernelMachine heapInitAccesses start (.ret (.done (base, finish))) booted →
      Steps PagedStep ⟨booted, base, finish, []⟩ events paged →
      (∀ call, .call call ∈ events → CanonicalEvent call) →
      ∃ flat, Steps ClientStep (HeapSystem.initial fun _ => 0)
          (events.filterMap PagedEvent.client?) flat ∧
        flat.live = paged.live ∧
        (∀ n, Answers paged.system (kmallocAccesses paged.start paged.finish n)) ∧
        Answers paged.system (kfreeAccesses paged.start paged.finish 0) ∧
        (∀ p n, (p, n) ∈ paged.live → Answers paged.system (kfreeAccesses paged.start paged.finish p)) ∧
        Answers paged.system (heapFreeBytesAccesses paged.start paged.finish) := by
  refine ⟨(started.window (Nat.zero_le _)).advances heapInit_runs, started.heapInit_completes, ?_⟩
  intro booted base finish events paged init run canonical
  obtain ⟨flat, refines, seen⟩ := started.heapInit_refines init |>.run run canonical
  obtain ⟨blocks, inv⟩ := id refines.wellFormed
  rw [refines.start, refines.finish]
  refine ⟨flat, seen, refines.live.symm, fun n => refines.answers (inv.kmalloc_runs n),
    refines.answers (HeapSystem.Inv.kfreeNull_runs flat), fun p n held => ?_,
    refines.answers inv.freeBytes_runs⟩
  rw [refines.live] at held
  exact refines.answers (inv.kfree_runs held)

/-- **Live data stays.** A byte that a client writes inside an allocation is read back as
it was written, whatever is allocated, freed, mapped, created and switched in between, as
long as the allocation is not freed and the byte is not written again. The calls of the
memory layer are those of `paged_heap_refines`: with canonical addresses, on frames that
are held, and never on the heap window, so the page of the byte is not unmapped. -/
theorem live_byte_persists {before between : List PagedEvent} {one two three four : PagedHeap}
    {p n address : Nat} {byte seen : UInt8} (started : Started image mbInfo start)
    (init : Carried kernelMachine heapInitAccesses start (.ret (.done (base, finish))) booted)
    (run : Steps PagedStep ⟨booted, base, finish, []⟩ before one)
    (wrote : PagedStep one (.client (.heap (.write address byte))) two)
    (later : Steps PagedStep two between three)
    (read : PagedStep three (.client (.read address seen)) four)
    (canonical : ∀ call, .call call ∈ before ++ between → CanonicalEvent call)
    (held : (p, n) ∈ one.live) (lower : p ≤ address) (upper : address < p + n)
    (notFreed : .client (.heap (.free p)) ∉ between)
    (notWritten : ∀ other, .client (.heap (.write address other)) ∉ between) : seen = byte := by
  obtain ⟨flat₁, refines₁, _⟩ := (started.heapInit_refines init).run run fun call member =>
    canonical call (List.mem_append_left _ member)
  obtain ⟨flat₂, refines₂, written⟩ := refines₁.step wrote fun _ same => nomatch same
  have written : ClientStep flat₁ (.heap (.write address byte)) flat₂ := written
  rw [refines₁.live] at held
  have stored : (p, n) ∈ flat₂.live ∧ flat₂.heap.mem address = byte := by
    cases written with
    | heap step =>
        cases step
        exact ⟨held, Function.update_self _ _ _⟩
  obtain ⟨flat₃, refines₃, seenRun⟩ := refines₂.run later fun call member =>
    canonical call (List.mem_append_right _ member)
  have kept : flat₃.WellFormed ∧ (p, n) ∈ flat₃.live ∧ flat₃.heap.mem address = byte := by
    refine seenRun.invariant_of_forall
      (fun flat => flat.WellFormed ∧ (p, n) ∈ flat.live ∧ flat.heap.mem address = byte)
      (fun event => event ≠ .heap (.free p) ∧ ∀ other, event ≠ .heap (.write address other)) ?_ ?_
      ⟨refines₂.wellFormed, stored⟩
    · rintro flat event flat' ⟨wellFormed, live, same⟩ ⟨free, write⟩ step
      obtain ⟨live', same'⟩ := step.keeps wellFormed live lower upper free write
      exact ⟨step.preserves wellFormed, live', same'.trans same⟩
    · intro event member
      obtain ⟨paged, pagedMember, visible⟩ := List.mem_filterMap.mp member
      cases paged with
      | call => cases visible
      | client event =>
          cases visible
          exact ⟨fun same => notFreed (same ▸ pagedMember),
            fun other same => notWritten other (same ▸ pagedMember)⟩
  obtain ⟨flat₄, _, answered⟩ := refines₃.step read fun _ same => nomatch same
  have answered : ClientStep flat₃ (.read address seen) flat₄ := answered
  cases answered
  exact kept.2.2

end Boot

section Sample

variable {image : Image} {reserved : Set Nat} {base : Finset Nat} {s : System} {mem : Memory}

/-- Touched pages need no frames. -/
theorem WindowShows.touched (shows : WindowShows image reserved base ∅ s mem) :
    WindowShows image reserved base base s mem := by
  obtain ⟨touched, known, demand, _⟩ := shows
  exact ⟨touched, known, demand, by simp [Finset.sdiff_eq_empty_iff_subset.mpr known]⟩

/-- A held byte of a touched page is written, or read. -/
theorem PagedHeap.Refines.writes {paged : PagedHeap} {flat : HeapSystem} {p n va : Nat}
    (refines : paged.Refines image reserved flat) (held : (p, n) ∈ paged.live) (lower : p ≤ va)
    (upper : va < p + n) (within : Within {pageNumber vmHeapBase} va 1) (byte : UInt8) :
    ∃ two, PagedStep paged (.client (.heap (.write va byte))) two ∧ two.live = paged.live := by
  have whole : [byte] = wordBytes 1 byte.toNat := by simp [wordBytes]
  rcases kernelMachine_serves.store refines.shows.touched within byte.toNat with ⟨s', step⟩ | ⟨none', _⟩
  · have step : DemandStep paged.system (.access (.write va (wordBytes 1 byte.toNat))) s' := step
    rw [← whole] at step
    exact ⟨_, .write byte held lower upper step, rfl⟩
  · exact absurd none' (Finset.singleton_ne_empty _)

theorem PagedHeap.Refines.reads {paged : PagedHeap} {flat : HeapSystem} {p n va : Nat}
    (refines : paged.Refines image reserved flat) (held : (p, n) ∈ paged.live) (lower : p ≤ va)
    (upper : va < p + n) (within : Within {pageNumber vmHeapBase} va 1) :
    ∃ byte two, PagedStep paged (.client (.read va byte)) two := by
  rcases kernelMachine_serves.load refines.shows.touched within with
    ⟨_, s', bytes, length, step, _⟩ | ⟨none', _⟩
  · obtain ⟨byte, rfl⟩ := List.length_eq_one_iff.mp length
    exact ⟨byte, _, .read held lower upper step⟩
  · exact absurd none' (Finset.singleton_ne_empty _)

/-- The sample runs `heap_init` and allocates 100 bytes. -/
theorem sample_paged : ∃ booted one, Carried kernelMachine heapInitAccesses sampleSystem
      (.ret (.done (vmHeapBase, vmHeapBase + vmHeapSize))) booted ∧
    Steps PagedStep ⟨booted, vmHeapBase, vmHeapBase + vmHeapSize, []⟩
      [.client (.heap (.malloc 100 0xFFFF800000000010))] one ∧
    one.live = [(0xFFFF800000000010, 100)] := by
  have frames := sample_frames
  obtain ⟨booted, init⟩ := sample_started.heapInit_completes (by omega)
  have refines := sample_started.heapInit_refines init
  have call : (heapInit fun _ => 0).flat (kmallocAccesses vmHeapBase (vmHeapBase + vmHeapSize) 100) =
      kmalloc (heapInit fun _ => 0) 100 := kmallocAccesses_flat _ 100
  obtain ⟨heap, called⟩ : ∃ heap, kmalloc (heapInit fun _ => 0) 100 =
      .done (heap, 0xFFFF800000000010) := ⟨_, rfl⟩
  rw [called] at call
  obtain ⟨⟨mem, p⟩, flat, same⟩ := Outcome.bind_eq_done.mp call
  obtain ⟨_, rfl⟩ := Prod.mk.inj (Outcome.done.inj same)
  obtain ⟨s', allocated⟩ := refines.shows.touched.completes (Finset.singleton_ne_empty _)
    (show (kmallocAccesses vmHeapBase (vmHeapBase + vmHeapSize) 100).Stays
      (Within {pageNumber vmHeapBase}) (heapInit fun _ => 0).mem by decide) flat
  exact ⟨booted, _, init, .single (.malloc allocated), rfl⟩

theorem paged_heap_refines_sample : ∃ (paged : PagedHeap) (flat : HeapSystem),
    Steps ClientStep (HeapSystem.initial fun _ => 0) [.heap (.malloc 100 0xFFFF800000000010)] flat ∧
      flat.live = [(0xFFFF800000000010, 100)] ∧
      Answers paged.system (kfreeAccesses paged.start paged.finish 0xFFFF800000000010) := by
  obtain ⟨booted, paged, init, run, live⟩ := sample_paged
  obtain ⟨_, _, refines⟩ := paged_heap_refines sample_started
  obtain ⟨flat, seen, same, _, _, frees, _⟩ := refines init run (by simp)
  exact ⟨paged, flat, seen, same.trans live, frees _ 100 (by rw [live]; exact List.mem_cons_self)⟩

theorem live_byte_persists_sample : ∃ one two three four seen,
    PagedStep one (.client (.heap (.write 0xFFFF800000000011 7))) two ∧
      PagedStep two (.call .alloc) three ∧
      PagedStep three (.client (.read 0xFFFF800000000011 seen)) four ∧ seen = 7 := by
  obtain ⟨booted, one, init, run, live⟩ := sample_paged
  have held : (0xFFFF800000000010, 100) ∈ one.live := by
    rw [live]
    exact List.mem_cons_self
  have lower : 0xFFFF800000000010 ≤ 0xFFFF800000000011 := by decide
  have upper : 0xFFFF800000000011 < 0xFFFF800000000010 + 100 := by decide
  have within : Within {pageNumber vmHeapBase} 0xFFFF800000000011 1 := by decide
  obtain ⟨_, refines, _⟩ := (sample_started.heapInit_refines init).run run (by simp)
  obtain ⟨two, wrote, live₂⟩ := refines.writes held lower upper within 7
  obtain ⟨_, refines₂, _⟩ := refines.step wrote fun _ same => nomatch same
  have called : PagedStep two (.call .alloc) _ := .call trivial nofun
  obtain ⟨_, refines₃, _⟩ := refines₂.step called fun _ same => by
    cases same
    trivial
  have held₃ : (0xFFFF800000000010, 100) ∈ two.live := by
    rw [live₂]
    exact held
  obtain ⟨seen, four, read⟩ := refines₃.reads held₃ lower upper within
  exact ⟨one, two, _, four, seen, wrote, called, read,
    live_byte_persists sample_started init run wrote (.single called) read
      (by simp [CanonicalEvent]) held lower upper (by simp) (by simp)⟩

end Sample

end GodOs
