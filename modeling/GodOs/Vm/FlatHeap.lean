import GodOs.Heap.Alloc
import GodOs.Lib.Bytes
import GodOs.Vm.Refusal

/-!
# Runs of the demand-paged heap

After `heap_init` every run of a system that uses its heap is a run of the flat array
with the same accesses, and the fault counter counts the pages touched. An access that
is not served has run out of frames.
-/

namespace GodOs

open Lib Lib.Forest

/-- What an access does to the array, whatever it reads. -/
def FlatArray.apply (array : FlatArray) : HeapAccess → FlatArray
  | .read va bytes => { array with touched := array.touched ∪ pagesOf va bytes.length }
  | .write va bytes => ⟨writeBytes array.bytes va bytes, array.touched ∪ pagesOf va bytes.length⟩

/-- The writes of `heap_init`: magic number, free mark and size of the first block. -/
def heapInitWrites : List HeapAccess :=
  [.write vmHeapBase (wordBytes 4 heapMagic), .write (vmHeapBase + 4) (wordBytes 4 1),
    .write (vmHeapBase + 8) (wordBytes 8 (vmHeapSize - blockHeader))]

/-- The pool has not a frame for the page of a fault and each table missing on its path. -/
def FaultExhausted (k : Kernel) (cr2 : Nat) : Prop :=
  ∃ missing, missingLevels k.mem k.cr3 (upperPath cr2) = some missing ∧
    k.pmm.freeFrames < 1 + missing

/-- An access runs out of frames at one of its page faults. -/
inductive RunsOut (errorCode va width : Nat) : Kernel → Prop where
  | now {k : Kernel} {offset : Nat} (within : offset < width) (absent : k.access (va + offset) = none)
      (exhausted : FaultExhausted k (va + offset)) : RunsOut errorCode va width k
  | later {k k' : Kernel} {offset : Nat} (within : offset < width)
      (absent : k.access (va + offset) = none)
      (handled : vmHandlePageFault k (va + offset) errorCode = (k', 1))
      (retried : RunsOut errorCode va width k') : RunsOut errorCode va width k

section Flat

variable {array array' : FlatArray} {va : Nat} {accesses : List HeapAccess}

/-- The array is determined by the accesses. -/
theorem FlatStep.eq_apply {access : HeapAccess} (step : FlatStep array access array') :
    array' = array.apply access := by
  cases step with
  | read va width => rw [FlatArray.apply, List.length_map, List.length_range]
  | write => rfl

/-- A page stays touched. -/
theorem FlatStep.touched_subset {access : Option HeapAccess} (step : Labelled FlatStep array access array') :
    array.touched ⊆ array'.touched := by
  cases access with
  | none =>
      obtain rfl : array' = array := step
      exact Finset.Subset.refl _
  | some access =>
      rw [FlatStep.eq_apply step]
      cases access <;> exact Finset.subset_union_left

theorem FlatStep.run_eq (run : Steps FlatStep array accesses array') :
    array' = accesses.foldl FlatArray.apply array := by
  induction run with
  | refl => rfl
  | snoc _ last ih => rw [List.foldl_append, ← ih, List.foldl_cons, List.foldl_nil, last.eq_apply]

/-- Writing the bytes of a word stores the word. -/
theorem writeBytes_wordBytes (mem : Memory) (va width value : Nat) :
    writeBytes mem va (wordBytes width value) = mem.store va width value := by
  induction width generalizing mem va value with
  | zero =>
      funext address
      rw [wordBytes, writeBytes, Memory.store_outside (by omega)]
  | succ width ih =>
      funext address
      rw [wordBytes, writeBytes, ih]
      by_cases inside : va + 1 ≤ address ∧ address < va + 1 + width
      · obtain ⟨offset, rfl⟩ : ∃ offset, address = va + 1 + offset := ⟨address - (va + 1), by omega⟩
        rw [Memory.store_inside (by omega), Nat.add_assoc, Memory.store_inside (by omega),
          Nat.add_comm 1, pow_succ', Nat.div_div_eq_div_mul]
      · rw [Memory.store_outside (by omega)]
        by_cases first : address = va
        · rw [first, Function.update_self, Memory.store, if_pos (by omega), Nat.sub_self, pow_zero,
            Nat.div_one]
        · rw [Function.update_of_ne first, Memory.store_outside (by omega)]

/-- The writes are those of `heap_init`. -/
theorem heapInitWrites_eq (array : FlatArray) :
    (heapInitWrites.foldl FlatArray.apply array).bytes = (heapInit array.bytes).mem := by
  simp only [heapInitWrites, List.foldl_cons, List.foldl_nil, FlatArray.apply, writeBytes_wordBytes]
  rfl

/-- The first bytes of the window lie in its first page. -/
theorem pagesOf_first {offset width : Nat} (positive : 0 < width) (short : offset + width ≤ 16) :
    pagesOf (vmHeapBase + offset) width = {pageNumber vmHeapBase} := by
  ext page
  simp only [pagesOf, Finset.mem_image, Finset.mem_range, Finset.mem_singleton, pageNumber,
    vmPageSize, vmHeapBase]
  constructor
  · rintro ⟨inner, within, rfl⟩
    omega
  · rintro rfl
    exact ⟨0, positive, by omega⟩

/-- `heap_init` touches the first page of the window. -/
theorem heapInitWrites_touched (array : FlatArray) :
    (heapInitWrites.foldl FlatArray.apply array).touched =
      array.touched ∪ {pageNumber vmHeapBase} := by
  have first : pagesOf vmHeapBase 4 = {pageNumber vmHeapBase} :=
    @pagesOf_first 0 4 (by decide) (by decide)
  simp only [heapInitWrites, List.foldl_cons, List.foldl_nil, FlatArray.apply, wordBytes_length,
    first, pagesOf_first (show 0 < 4 by decide) (show 4 + 4 ≤ 16 by decide),
    pagesOf_first (show 0 < 8 by decide) (show 8 + 8 ≤ 16 by decide), Finset.union_assoc,
    Finset.union_idempotent]

/-- A read at the end of a run returns the bytes of the array. -/
theorem FlatStep.read_back {bytes : List UInt8}
    (run : Steps FlatStep array (accesses ++ [.read va bytes]) array') :
    bytes = (List.range bytes.length).map fun offset =>
      (accesses.foldl FlatArray.apply array).bytes (va + offset) := by
  generalize total : accesses ++ [.read va bytes] = emitted at run
  cases run with
  | refl => simp at total
  | snoc prior last =>
      obtain ⟨rfl, same⟩ := List.append_inj' total rfl
      obtain rfl := List.singleton_inj.mp same
      rw [← FlatStep.run_eq prior]
      cases last
      rw [List.length_map, List.length_range]

end Flat

section Progress

variable {image : Image} {reserved : Set Nat} {k : Kernel} {spaces : List Nat} {held : Finset Nat}
  {bytes : Nat → UInt8} {touched : Finset Nat} {va width errorCode : Nat}

/-- Addresses of the window have no path through the identity directory. -/
theorem InHeap.outside {va : Nat} (inHeap : InHeap va) : pml4Index va ≠ 0 ∨ pdptIndex va ≠ 0 := by
  rw [inHeap.slot]
  exact .inl (by decide)

/-- A missing page is touched by the fault that serves it, and untouched before. -/
theorem Demand.shrinks (demand : Demand image reserved ⟨k, spaces, held⟩ ⟨bytes, touched⟩)
    (inHeap : ∀ offset < width, InHeap (va + offset)) {offset : Nat} (within : offset < width)
    (absent : k.access (va + offset) = none) :
    (pagesOf va width \ insert (pageNumber (va + offset)) touched).card + 1 =
      (pagesOf va width \ touched).card := by
  have untouched := (demand.access_none (inHeap offset within)).mp absent
  have member : pageNumber (va + offset) ∈ pagesOf va width \ touched :=
    Finset.mem_sdiff.mpr ⟨mem_pagesOf within, untouched⟩
  rw [Finset.sdiff_insert, Finset.card_erase_add_one member]

/-- An access is served unless it runs out of frames. -/
theorem Demand.served_or_runsOut
    (demand : Demand image reserved ⟨k, spaces, held⟩ ⟨bytes, touched⟩)
    (inHeap : ∀ offset < width, InHeap (va + offset)) (kind : errorCode = 0 ∨ errorCode = 2) :
    (∃ k', Served errorCode va width k k') ∨ RunsOut errorCode va width k := by
  generalize missing : (pagesOf va width \ touched).card = count
  induction count using Nat.strong_induction_on generalizing k touched with
  | _ count ih =>
      by_cases present : ∀ offset < width, k.access (va + offset) ≠ none
      · exact .inl ⟨k, .hit present⟩
      simp only [not_forall, not_not, exists_prop] at present
      obtain ⟨offset, within, absent⟩ := present
      obtain ⟨level, owned⟩ := demand.owned
      have here := inHeap offset within
      have known : k.cr3 ∈ spaces := owned.paging.current
      rcases handled : vmHandlePageFault k (va + offset) errorCode with ⟨k', result⟩
      have filter : FaultFilter k (va + offset) errorCode := by
        rcases kind with rfl | rfl
        · exact ⟨demand.idle, rfl, rfl, rfl, here⟩
        · exact ⟨demand.idle, rfl, rfl, rfl, here⟩
      rcases (owned.paging.vmHandlePageFault_exact demand.coherent.sound.valid handled).2 with
        ⟨rfl, _, _⟩ | ⟨_, uncovered, _⟩
      · have fewer := demand.shrinks inHeap within absent
        have smaller : (pagesOf va width \ insert (pageNumber (va + offset)) touched).card < count := by
          omega
        rcases ih _ smaller (demand.fault here absent handled) rfl with
          ⟨k'', served⟩ | runsOut
        · exact .inl ⟨k'', .miss within absent handled served⟩
        · exact .inr (.later within absent handled runsOut)
      · obtain ⟨levels, _, path⟩ := owned.paging.missingLevels_some known here.outside
        refine .inr (.now within absent ⟨levels, path, ?_⟩)
        by_contra enough
        refine uncovered ⟨filter, levels, ?_, path, Nat.le_of_not_lt enough⟩
        rw [← demand.coherent.tlb.access here.canonical]
        exact absent

/-- An access that runs out of frames found less than four for each page it had to touch. -/
theorem RunsOut.few (runsOut : RunsOut errorCode va width k)
    (demand : Demand image reserved ⟨k, spaces, held⟩ ⟨bytes, touched⟩)
    (inHeap : ∀ offset < width, InHeap (va + offset)) :
    k.pmm.freeFrames < 4 * (pagesOf va width \ touched).card := by
  induction runsOut generalizing touched with
  | @now k offset within absent exhausted =>
      obtain ⟨missing, path, few⟩ := exhausted
      obtain ⟨level, owned⟩ := demand.owned
      have fewer := demand.shrinks inHeap within absent
      obtain ⟨levels, small, path'⟩ :=
        owned.paging.missingLevels_some owned.paging.current (inHeap offset within).outside
      obtain rfl : missing = levels := Option.some.inj (path.symm.trans path')
      omega
  | @later k k' offset within absent handled _ ih =>
      obtain ⟨level, owned⟩ := demand.owned
      have fewer := demand.shrinks inHeap within absent
      have few := ih (demand.fault (inHeap offset within) absent handled)
      obtain ⟨frame, backed⟩ :=
        owned.paging.vmHandlePageFault_backed (inHeap offset within) handled
      have spent : k.pmm.freeFrames ≤ k'.pmm.freeFrames + 4 := backed.spent
      simp only at few
      omega

/-- The faults of an access take at most four frames for each page. -/
theorem Demand.served_spent {k' : Kernel} (served : Served errorCode va width k k')
    (demand : Demand image reserved ⟨k, spaces, held⟩ ⟨bytes, touched⟩)
    (inHeap : ∀ offset < width, InHeap (va + offset)) :
    k.pmm.freeFrames ≤ k'.pmm.freeFrames + 4 * (pagesOf va width \ touched).card := by
  induction served generalizing touched with
  | hit => omega
  | @miss k k' k'' offset within absent handled _ ih =>
      obtain ⟨level, owned⟩ := demand.owned
      have fewer := demand.shrinks inHeap within absent
      have later := ih (demand.fault (inHeap _ within) absent handled)
      obtain ⟨frame, backed⟩ := owned.paging.vmHandlePageFault_backed (inHeap _ within) handled
      have spent : k.pmm.freeFrames ≤ k'.pmm.freeFrames + 4 := backed.spent
      simp only at later
      omega

theorem Kernel.storeBytes_pmm (k : Kernel) (va : Nat) (bytes : List UInt8) :
    (k.storeBytes va bytes).pmm = k.pmm := by
  induction bytes generalizing k va with
  | nil => rfl
  | cons value rest ih =>
      rw [Kernel.storeBytes, ih, Kernel.storeByte]
      split <;> rfl

/-- With four frames for each untouched page a write goes through. -/
theorem Demand.write_step {s : System} {array : FlatArray} {values : List UInt8}
    (demand : Demand image reserved s array) (inHeap : ∀ offset < values.length, InHeap (va + offset))
    (enough : 4 * (pagesOf va values.length \ array.touched).card ≤ s.kernel.pmm.freeFrames) :
    ∃ s', DemandStep s (.access (.write va values)) s' ∧
      Demand image reserved s' (array.apply (.write va values)) ∧ s'.spaces = s.spaces ∧
      s.kernel.pmm.freeFrames ≤
        s'.kernel.pmm.freeFrames + 4 * (pagesOf va values.length \ array.touched).card := by
  have progress := demand.served_or_runsOut inHeap (.inr rfl)
  obtain ⟨k', served⟩ := progress.resolve_right fun runsOut => by
    have few := runsOut.few demand inHeap
    omega
  have step : DemandStep s (.access (.write va values)) { s with kernel := k'.storeBytes va values } :=
    .write inHeap served
  obtain ⟨array', demand', visible⟩ := demand.step step (fun _ same => nomatch same) nofun
  have same : array' = array.apply (.write va values) := FlatStep.eq_apply visible
  refine ⟨_, step, same ▸ demand', rfl, ?_⟩
  rw [show ({ s with kernel := k'.storeBytes va values } : System).kernel.pmm = k'.pmm from
    k'.storeBytes_pmm va values]
  exact demand.served_spent served inHeap

/-- With four frames in the pool `heap_init` goes through. -/
theorem Demand.heapInit_steps {s : System}
    (demand : Demand image reserved s FlatArray.zero) (enough : 4 ≤ s.kernel.pmm.freeFrames) :
    ∃ s', Steps DemandStep s (heapInitWrites.map .access) s' ∧
      Demand image reserved s' (heapInitWrites.foldl FlatArray.apply FlatArray.zero) ∧
      s'.spaces = s.spaces ∧ s.kernel.pmm.freeFrames ≤ s'.kernel.pmm.freeFrames + 4 := by
  have inHeap : ∀ {start width : Nat}, start + width ≤ 16 → ∀ offset < width,
      InHeap (vmHeapBase + start + offset) := by
    intro start width short offset within
    simp only [InHeap, vmHeapBase, vmHeapSize]
    omega
  have spare : ∀ {start width : Nat} {touched : Finset Nat}, 0 < width → start + width ≤ 16 →
      pageNumber vmHeapBase ∈ touched →
      (pagesOf (vmHeapBase + start) width \ touched).card = 0 := by
    intro start width touched positive short known
    rw [pagesOf_first positive short, Finset.card_eq_zero, Finset.sdiff_eq_empty_iff_subset,
      Finset.singleton_subset_iff]
    exact known
  have first : pagesOf vmHeapBase 4 = {pageNumber vmHeapBase} :=
    @pagesOf_first 0 4 (by decide) (by decide)
  obtain ⟨s₁, step₁, demand₁, spaces₁, spent₁⟩ := @Demand.write_step image reserved vmHeapBase s
    FlatArray.zero (wordBytes 4 heapMagic) demand (@inHeap 0 4 (by decide))
    (by rw [wordBytes_length, first]; exact enough)
  have known₁ : pageNumber vmHeapBase ∈
      (FlatArray.zero.apply (.write vmHeapBase (wordBytes 4 heapMagic))).touched := by
    refine Finset.mem_union_right _ ?_
    rw [wordBytes_length, first]
    exact Finset.mem_singleton_self _
  have spare₂ := spare (show 0 < 4 by decide) (show 4 + 4 ≤ 16 by decide) known₁
  obtain ⟨s₂, step₂, demand₂, spaces₂, spent₂⟩ := @Demand.write_step image reserved (vmHeapBase + 4) s₁
    _ (wordBytes 4 1) demand₁ (@inHeap 4 4 (by decide)) (by rw [wordBytes_length, spare₂]; omega)
  have spare₃ := spare (show 0 < 8 by decide) (show 8 + 8 ≤ 16 by decide)
    (Finset.mem_union_left (pagesOf (vmHeapBase + 4) (wordBytes 4 1).length) known₁)
  obtain ⟨s₃, step₃, demand₃, spaces₃, spent₃⟩ := @Demand.write_step image reserved (vmHeapBase + 8) s₂
    _ (wordBytes 8 (vmHeapSize - blockHeader)) demand₂ (@inHeap 8 8 (by decide))
    (by rw [wordBytes_length, FlatArray.apply, spare₃]; omega)
  rw [wordBytes_length, first] at spent₁
  rw [wordBytes_length, spare₂] at spent₂
  rw [wordBytes_length, FlatArray.apply, spare₃] at spent₃
  have run := ((Steps.single step₁).trans (Steps.single step₂)).trans (Steps.single step₃)
  refine ⟨s₃, run, demand₃, spaces₃.trans (spaces₂.trans spaces₁), ?_⟩
  have one : 4 * (({pageNumber vmHeapBase} : Finset Nat) \ FlatArray.zero.touched).card = 4 := rfl
  omega

end Progress

section Run

variable {image : Image} {mbInfo : Nat} {start s s' : System} {reserved : Set Nat}
  {array : FlatArray} {events : List DemandEvent}

/-- A run of the system is a run of the array, if its spaces are created after its first
access. -/
theorem Demand.run (run : Steps DemandStep s events s') (demand : Demand image reserved s array)
    (canonical : ∀ call, .call call ∈ events → CanonicalEvent call)
    (ready : array.touched.Nonempty ∨ .call .create ∉ events) :
    ∃ array', Demand image reserved s' array' ∧
      Steps FlatStep array (events.filterMap DemandEvent.access?) array' ∧
      array.touched ⊆ array'.touched := by
  -- the touched pages only grow, so that a space is created after an access throughout
  obtain ⟨array', ⟨demand', grows⟩, flat⟩ := run.simulate
    (fun s' array' => Demand image reserved s' array' ∧ array.touched ⊆ array'.touched)
    (fun event => (∀ call, event = .call call → CanonicalEvent call) ∧
      (array.touched.Nonempty ∨ event ≠ .call .create))
    (fun related allowed step => by
      obtain ⟨array', demand', visible⟩ := related.1.step step allowed.1 fun isCreate =>
        (allowed.2.resolve_right fun other => other isCreate).mono related.2
      exact ⟨array', ⟨demand', related.2.trans (FlatStep.touched_subset visible)⟩, visible⟩)
    (fun event member => ⟨fun call same => canonical call (same ▸ member),
      ready.imp_right fun absent same => absent (same ▸ member)⟩)
    ⟨demand, Finset.Subset.refl _⟩
  exact ⟨array', demand', flat, grows⟩

/-- **The demand-paged heap is a flat array.** After boot and `heap_init`, along every run
of disciplined calls with canonical addresses and of accesses to the heap window, in
whatever spaces: the accesses are a run of the zeroed array, so each read returns its
bytes; the fault counter is the number of pages touched; and an access that cannot be
served has run out of frames. -/
theorem heap_refines_array (started : Started image mbInfo start)
    (run : Steps DemandStep start (heapInitWrites.map .access ++ events) s)
    (canonical : ∀ call, .call call ∈ events → CanonicalEvent call) :
    ∃ array, Steps FlatStep FlatArray.zero
        (heapInitWrites ++ events.filterMap DemandEvent.access?) array ∧
      s.kernel.faults = array.touched.card ∧
      ∀ {va width errorCode}, (∀ offset < width, InHeap (va + offset)) →
        errorCode = 0 ∨ errorCode = 2 →
        (∃ k', Served errorCode va width s.kernel k') ∨ RunsOut errorCode va width s.kernel := by
  obtain ⟨middle, init, later⟩ := run.split
  obtain ⟨array₁, demand₁, flat₁, _⟩ := started.demand.run init (by simp) (.inr (by simp))
  have visible : (heapInitWrites.map .access).filterMap DemandEvent.access? = heapInitWrites := rfl
  rw [visible] at flat₁
  have used : array₁.touched.Nonempty := by
    rw [FlatStep.run_eq flat₁, heapInitWrites_touched]
    exact ⟨_, Finset.mem_union_right _ (Finset.mem_singleton_self _)⟩
  obtain ⟨array, demand, flat, _⟩ := demand₁.run later canonical (.inl used)
  exact ⟨array, flat₁.trans flat, demand.faults, fun inHeap kind =>
    demand.served_or_runsOut inHeap kind⟩

end Run

section Alias

variable {identity va errorCode : Nat} {s : System} {level : Nat → Nat} {k : Kernel}
  {spaces : List Nat}

/-- An absent page of the window comes back as zeros, whatever it held before. -/
theorem Coherent.refaults (coherent : Coherent identity s) (idle : s.kernel.inFault = false)
    (inHeap : InHeap va) (absent : s.kernel.access va = none) (enough : 4 ≤ s.kernel.pmm.freeFrames) :
    ∃ k', Served 0 va 1 s.kernel k' ∧ k'.loadByte va = 0 := by
  obtain ⟨level, paging⟩ := coherent.sound.paging
  obtain ⟨missing, small, path⟩ := paging.missingLevels_some paging.current inHeap.outside
  have undefined : translate s.kernel.mem s.kernel.cr3 va = none := by
    rw [← coherent.tlb.access inHeap.canonical]
    exact absent
  rcases handled : vmHandlePageFault s.kernel va 0 with ⟨k', result⟩
  rcases (paging.vmHandlePageFault_exact coherent.sound.valid handled).2 with
    ⟨rfl, _, _⟩ | ⟨_, uncovered, _⟩
  · obtain ⟨frame, backed⟩ := paging.vmHandlePageFault_backed inHeap handled
    have step : Step s (.fault va 0) { s with kernel := k' } := by
      refine ⟨?_, by rw [System.apply, handled]⟩
      simp only [System.Enabled, InHeap, vmHeapBase, vmHeapSize] at inHeap ⊢
      omega
    have hit : k'.access va = some (frame * pmmFrameSize + va % vmPageSize) := by
      rw [(coherent.step step trivial).tlb.access inHeap.canonical, translate, backed.mapped]
      rfl
    refine ⟨k', .miss (Nat.zero_lt_one) absent handled (.hit fun offset within => ?_), ?_⟩
    · obtain rfl : offset = 0 := by omega
      rw [Nat.add_zero, hit]
      exact Option.some_ne_none _
    · rw [Kernel.loadByte, hit]
      exact backed.zero (Nat.mod_lt _ (by decide))
  · exact absurd ⟨⟨idle, rfl, rfl, rfl, inHeap⟩, missing, undefined, path, by omega⟩ uncovered

/-- `vm_unmap` takes no frame and gives none back. -/
theorem Paging.vmUnmap_pmm (paging : Paging k spaces level identity) {space : Nat}
    (known : space ∈ spaces) (va : Nat) : (vmUnmap k space va).1.pmm = k.pmm := by
  rcases paging.vmUnmap_cases known va with ⟨_, run⟩ | ⟨_, _, _, _, _, run⟩ <;> rw [run]
  rfl

/-- A number that is no canonical address, with the path of the first page of the window. -/
def heapAlias : Nat := 0x0000800000000000

/-- Unmapping the alias unmaps the first page of the window. -/
theorem Demand.alias_unmaps {image : Image} {reserved : Set Nat} {array : FlatArray} {space : Nat}
    (demand : Demand image reserved s array) (known : space ∈ s.spaces) (notNull : space ≠ 0)
    (isTouched : pageNumber vmHeapBase ∈ array.touched) :
    Coherent image.pd ((s.apply (.unmap space heapAlias)).apply (.switch space)) ∧
      ((s.apply (.unmap space heapAlias)).apply (.switch space)).kernel.access vmHeapBase = none ∧
      ((s.apply (.unmap space heapAlias)).apply (.switch space)).kernel.inFault = false ∧
      ((s.apply (.unmap space heapAlias)).apply (.switch space)).kernel.pmm = s.kernel.pmm := by
  obtain ⟨level, owned⟩ := demand.owned
  have inHeap : InHeap vmHeapBase := by decide
  have samePath : path heapAlias = path vmHeapBase := path_eq_iff.mpr (by decide)
  obtain ⟨frame, mapped, _⟩ := demand.present inHeap isTouched
  obtain ⟨entry, found, _⟩ := (owned.paging.smallPage_iff known inHeap.canonical).mp (mapped _ known)
  rw [← samePath] at found
  obtain ⟨_, paging, removed, _⟩ := owned.paging.vmUnmap_page known found
  have unmaps : s.Disciplined (.unmap space heapAlias) := ⟨known, by decide, by decide⟩
  have first : Step s (.unmap space heapAlias) (s.apply (.unmap space heapAlias)) :=
    ⟨owned.enabled unmaps, rfl⟩
  have second : Step (s.apply (.unmap space heapAlias)) (.switch space)
      ((s.apply (.unmap space heapAlias)).apply (.switch space)) := ⟨known, rfl⟩
  have flushed : ((s.apply (.unmap space heapAlias)).apply (.switch space)).kernel =
      vmWriteCr3 (vmUnmap s.kernel space heapAlias).1 space := if_neg notNull
  have coherent : Coherent image.pd ((s.apply (.unmap space heapAlias)).apply (.switch space)) := by
    refine ⟨(demand.coherent.sound.step first).step second, ?_⟩
    rw [flushed]
    exact fun _ _ _ cached => by cases cached
  refine ⟨coherent, ?_, ?_, ?_⟩
  · rw [coherent.tlb.access inHeap.canonical, flushed, translate_eq_none]
    refine (paging.translatePage_eq_lookup known inHeap.canonical).trans ?_
    rw [← samePath, removed]
    rfl
  · rw [flushed]
    exact (owned.paging.call_registers unmaps nofun).2.trans demand.idle
  · rw [flushed]
    exact owned.paging.vmUnmap_pmm known heapAlias

end Alias

section Sample

/-- The sample has run `heap_init`. -/
theorem sample_heapInit : ∃ s, Steps DemandStep sampleSystem (heapInitWrites.map .access) s ∧
    Demand sampleImage (reservedFrames sampleImage 0x9000 sampleSystem.kernel.pmm.infoEnd) s
      (heapInitWrites.foldl FlatArray.apply FlatArray.zero) ∧
    s.spaces = [0x110000] ∧ 96 ≤ s.kernel.pmm.freeFrames := by
  have frames := sample_frames
  obtain ⟨s, run, demand, spaces, spent⟩ := sample_started.demand.heapInit_steps (by omega)
  exact ⟨s, run, demand, spaces, by omega⟩

/-- A new space reads the magic number that the kernel space has written. -/
theorem heap_refines_array_sample : ∃ s space, space ≠ 0x110000 ∧
    Steps DemandStep sampleSystem (heapInitWrites.map .access ++
      [.call .create, .call (.switch space), .access (.read vmHeapBase (wordBytes 4 heapMagic))]) s ∧
    s.kernel.faults = 1 := by
  obtain ⟨s, init, demand, spaces, frames⟩ := sample_heapInit
  obtain ⟨level, owned⟩ := demand.owned
  obtain ⟨space, _, _, fresh, spaces', left⟩ :=
    System.create_succeeds owned.paging demand.coherent.sound.valid (by omega)
  have different : space ≠ 0x110000 := by
    rintro rfl
    exact fresh (by rw [spaces]; exact List.mem_singleton_self _)
  have creates : DemandStep s (.call .create) _ := .call trivial (by simp)
  have switches : DemandStep (s.apply .create) (.call (.switch space)) _ :=
    .call (show space ∈ (s.apply .create).spaces by rw [spaces']; exact List.mem_cons_self) (by simp)
  have before := init.trans ((Steps.single creates).trans (Steps.single switches))
  -- the page is touched, so the read needs no frame
  have touched : (heapInitWrites.foldl FlatArray.apply FlatArray.zero).touched =
      {pageNumber vmHeapBase} := by
    rw [heapInitWrites_touched]
    exact Finset.empty_union _
  have inHeap : ∀ offset < 4, InHeap (vmHeapBase + offset) := by
    intro offset within
    simp only [InHeap, vmHeapBase, vmHeapSize]
    omega
  have demand₁ := @Demand.call _ _ _ _ .create demand trivial trivial (by simp) fun _ => by
    rw [touched]
    exact Finset.singleton_nonempty _
  have demand₂ := @Demand.call _ _ _ _ (.switch space) demand₁ (by
    show space ∈ _
    rw [spaces']
    exact List.mem_cons_self) trivial (by simp) (by simp)
  obtain ⟨_, _, _, serves⟩ := heap_refines_array sample_started before (by simp [CanonicalEvent])
  obtain ⟨k', served⟩ : ∃ k',
      Served 0 vmHeapBase 4 ((s.apply .create).apply (.switch space)).kernel k' := by
    refine (serves inHeap (.inl rfl)).resolve_right fun runsOut => ?_
    have few : _ < 4 * (pagesOf vmHeapBase 4 \
        (heapInitWrites.foldl FlatArray.apply FlatArray.zero).touched).card :=
      runsOut.few demand₂ inHeap
    rw [touched, show pagesOf vmHeapBase 4 = {pageNumber vmHeapBase} from
      @pagesOf_first 0 4 (by decide) (by decide), Finset.sdiff_self] at few
    exact absurd few (Nat.not_lt_zero _)
  have run := before.trans (Steps.single (.read inHeap served))
  rw [List.append_assoc] at run
  obtain ⟨array, flat, faults, _⟩ := heap_refines_array sample_started run (by simp [CanonicalEvent])
  have bytes := @FlatStep.read_back _ _ _ heapInitWrites _ flat
  rw [heapInitWrites_eq, List.length_map, List.length_range] at bytes
  rw [bytes] at run flat
  refine ⟨_, space, different, run, ?_⟩
  rw [faults, FlatStep.run_eq flat]
  rfl

theorem alias_unmaps_heap :
    ∃ s, Steps DemandStep sampleSystem (heapInitWrites.map .access ++
      [.call (.unmap 0x110000 heapAlias), .call (.switch 0x110000),
        .access (.read vmHeapBase [0])]) s ∧
      ∀ array, ¬ Steps FlatStep FlatArray.zero (heapInitWrites ++ [.read vmHeapBase [0]]) array := by
  obtain ⟨s, init, demand, spaces, frames⟩ := sample_heapInit
  have known : 0x110000 ∈ s.spaces := by
    rw [spaces]
    exact List.mem_singleton_self _
  have isTouched : pageNumber vmHeapBase ∈
      (heapInitWrites.foldl FlatArray.apply FlatArray.zero).touched := by
    rw [heapInitWrites_touched]
    exact Finset.mem_union_right _ (Finset.mem_singleton_self _)
  obtain ⟨coherent, absent, idle, pool⟩ := demand.alias_unmaps known (by decide) isTouched
  obtain ⟨k', served, zero⟩ := coherent.refaults idle (by decide) absent (by rw [pool]; omega)
  have unmaps : DemandStep s (.call (.unmap 0x110000 heapAlias)) _ :=
    .call ⟨known, by decide, by decide⟩ nofun
  have switches : DemandStep (s.apply (.unmap 0x110000 heapAlias)) (.call (.switch 0x110000)) _ :=
    .call known nofun
  have reads : DemandStep _ (.access (.read vmHeapBase [k'.loadByte (vmHeapBase + 0)])) _ :=
    @DemandStep.read _ k' vmHeapBase 1 (fun offset within => by
      obtain rfl : offset = 0 := by omega
      decide) served
  rw [Nat.add_zero, zero] at reads
  refine ⟨_, init.trans (((Steps.single unmaps).trans (Steps.single switches)).trans
    (Steps.single reads)), fun array run => ?_⟩
  have bytes := FlatStep.read_back run
  rw [heapInitWrites_eq] at bytes
  revert bytes
  decide

end Sample

end GodOs
