import GodOs.Vm.Exact
import GodOs.Vm.Demand

/-!
# Refused mappings and served faults

A `vm_map` that fails has mapped nothing, and the frames it took are tables that
the next attempt walks through. The page-fault handler serves a fault exactly
when the pool has its data frame and the missing tables, and otherwise gives the
data frame back.
-/

namespace GodOs

open Lib Lib.Forest

section Later

variable {image : Image} {mbInfo identity : Nat} {start s s' : System} {events later : List Event}
  {k' : Kernel} {space va pa flags missing : Nat}

/-- Canonical addresses above the identity window have no path through its directory. -/
theorem Canonical.outside (canonical : Canonical va) (above : 2 ^ 30 ≤ va) :
    pml4Index va ≠ 0 ∨ pdptIndex va ≠ 0 := by
  rw [pml4Index_eq, pdptIndex_eq]
  unfold Canonical at canonical
  omega

/-- No step leaves more levels missing on a path outside the identity window. -/
theorem Sound.missingLevels_step (sound : Sound identity s) {event : Event}
    (step : Step s event s') (known : space ∈ s.spaces)
    (outside : pml4Index va ≠ 0 ∨ pdptIndex va ≠ 0)
    (levels : missingLevels s.kernel.mem space (upperPath va) = some missing) :
    space ∈ s'.spaces ∧ ∃ missing' ≤ missing,
      missingLevels s'.kernel.mem space (upperPath va) = some missing' := by
  obtain ⟨level, paging⟩ := sound.paging
  obtain ⟨level', next⟩ := System.step_next paging step
  have known' := next.change.known known
  exact ⟨known', paging.missingLevels_le next.paging known known' outside next.change.keeps levels⟩

/-- No run leaves more levels missing on a path outside the identity window. -/
theorem Sound.missingLevels_run (sound : Sound identity s) (run : Steps Step s events s')
    (known : space ∈ s.spaces) (outside : pml4Index va ≠ 0 ∨ pdptIndex va ≠ 0)
    (levels : missingLevels s.kernel.mem space (upperPath va) = some missing) :
    Sound identity s' ∧ space ∈ s'.spaces ∧ ∃ missing' ≤ missing,
      missingLevels s'.kernel.mem space (upperPath va) = some missing' := by
  induction run with
  | refl => exact ⟨sound, known, missing, Nat.le_refl _, levels⟩
  | snoc _ last ih =>
      obtain ⟨soundMiddle, knownMiddle, left, fewer, levelsMiddle⟩ := ih
      obtain ⟨known', left', fewer', levels'⟩ :=
        soundMiddle.missingLevels_step last knownMiddle outside levelsMiddle
      exact ⟨soundMiddle.step last, known', left', by omega, levels'⟩

/-- The state after a refused mapping is sound. -/
theorem Sound.refused (sound : Sound identity s) (known : space ∈ s.spaces)
    (refused : vmMap s.kernel space va pa flags = (k', -1)) :
    Sound identity { s with kernel := k' } := by
  obtain ⟨level, paging⟩ := sound.paging
  obtain ⟨level', next⟩ := System.map_next paging known va pa flags
  have after : s.apply (.map space va pa flags) = { s with kernel := k' } := by
    rw [System.apply, refused]
  rw [after] at next
  exact ⟨⟨level', next.paging⟩, next.valid sound.valid⟩

/-- **A failed `vm_map` changes no translation and loses no frame.** In every
reachable state, for every space and canonical address, the frames that a refused
mapping took from the pool are tables on the path of the address, all zero or
with a single child, and it changed no translation in any space. In every later
state no more levels are missing than it left, and where the page is untranslated
and the pool has a frame for each of them, the same mapping succeeds and takes
just those. -/
theorem failed_map_inert (started : Started image mbInfo start) (run : Steps Step start events s)
    (known : space ∈ s.spaces) (canonical : Canonical va)
    (refused : vmMap s.kernel space va pa flags = (k', -1)) :
    Refusal s.kernel k' s.spaces space (upperPath va) ∧
      ∀ {later s'}, Steps Step { s with kernel := k' } later s' → MapGuards va pa →
        (∃ left missing, missing ≤ left ∧
          missingLevels k'.mem space (upperPath va) = some left ∧
          missingLevels s'.kernel.mem space (upperPath va) = some missing) ∧
        ∀ {missing}, translatePage s'.kernel.mem space va = none →
          missingLevels s'.kernel.mem space (upperPath va) = some missing →
          missing ≤ s'.kernel.pmm.freeFrames →
            ∃ k'', vmMap s'.kernel space va pa flags = (k'', 0) ∧
              k''.pmm.freeFrames + missing = s'.kernel.pmm.freeFrames := by
  have sound := started.run run
  obtain ⟨level, paging⟩ := sound.paging
  refine ⟨paging.vmMap_refusal sound.valid known canonical refused, ?_⟩
  intro later s' continued guards
  have outside := canonical.outside guards.vaAbove
  have soundRefused := sound.refused known refused
  obtain ⟨level₁, paging₁⟩ := soundRefused.paging
  obtain ⟨left, _, levels⟩ := paging₁.missingLevels_some known outside
  obtain ⟨sound', known', missing, fewer, levels'⟩ :=
    soundRefused.missingLevels_run continued known outside levels
  obtain ⟨level', paging'⟩ := sound'.paging
  refine ⟨⟨left, missing, fewer, levels, levels'⟩, fun undefined isMissing enough => ?_⟩
  exact paging'.vmMap_mappable sound'.valid known' canonical guards ⟨undefined, isMissing, enough⟩

end Later

section Sample

/-- The sample translates nothing outside the identity window. -/
theorem sample_untranslated {space va : Nat} (known : space ∈ sampleSystem.spaces)
    (canonical : Canonical va) (outside : pml4Index va ≠ 0 ∨ pdptIndex va ≠ 0) :
    translatePage sampleSystem.kernel.mem space va = none := by
  have paging : Paging sampleSystem.kernel sampleSystem.spaces sampleImage.level sampleImage.pd :=
    sample_booted.state.paging
  rw [paging.translatePage_eq_lookup known canonical]
  rw [show sampleSystem.spaces = [sampleImage.pml4] from rfl, List.mem_singleton] at known
  rw [known, show sampleSystem.kernel = sampleKernel from rfl,
    sample_booted.state.lookup_outside outside]
  rfl

/-- Allocations leave as many frames free as wanted. -/
theorem Sound.drains {identity left : Nat} {s : System} (sound : Sound identity s)
    (enough : left ≤ s.kernel.pmm.freeFrames) : ∃ count s',
    Steps (fun s event s' => Step s event s' ∧ OwnStep s event s') s (List.replicate count .alloc) s' ∧
      Sound identity s' ∧ s'.kernel.mem = s.kernel.mem ∧ s'.spaces = s.spaces ∧
      s'.kernel.pmm.freeFrames = left ∧ s.held ⊆ s'.held ∧
      (left < s.kernel.pmm.freeFrames → ∃ frame ∈ freeSet s.kernel.pmm.bitmap, frame ∈ s'.held) := by
  induction more : s.kernel.pmm.freeFrames - left generalizing s with
  | zero => exact ⟨0, s, .refl, sound, rfl, rfl, by omega, Finset.Subset.refl _, fun _ => by omega⟩
  | succ more' ih =>
      have found : (pmmAllocFrame s.kernel.pmm).2 ≠ 0 := by
        rw [Ne, sound.valid.alloc_zero_iff]
        omega
      obtain ⟨frame, isFree, _, place, taken⟩ := pmmAllocFrame_ne_zero Prod.mk.eta.symm found
      have next : s.apply .alloc = ⟨{ s.kernel with pmm := pmmTake s.kernel.pmm frame }, s.spaces,
          insert ((pmmAllocFrame s.kernel.pmm).2 / pmmFrameSize) s.held⟩ := by
        simp only [System.apply, Kernel.allocFrame, taken, if_neg found]
      have step : Step s .alloc (s.apply .alloc) := ⟨trivial, rfl⟩
      have fewer : (s.apply .alloc).kernel.pmm.freeFrames = s.kernel.pmm.freeFrames - 1 := by
        rw [next, pmmTake]
      obtain ⟨count, s', run, sound', mem, spaces, free, held, _⟩ :=
        ih (sound.step step) (by omega) (by omega)
      have inserted : frame ∈ s'.held := by
        rw [next, place, Nat.mul_div_cancel _ (by decide)] at held
        exact held (Finset.mem_insert_self _ _)
      refine ⟨count + 1, s', ?_, sound', mem.trans (by rw [next]), spaces.trans (by rw [next]), free,
        fun other isHeld => held (next ▸ Finset.mem_insert_of_mem isHeld),
        fun _ => ⟨frame, isFree, inserted⟩⟩
      rw [Nat.add_comm, List.replicate_add]
      exact (Steps.single ⟨step, trivial, rfl⟩).trans run

/-- The sample with two free frames left: a mapping that needs three tables is refused
and has linked two of them; when a client frees a frame, the same mapping succeeds. -/
theorem failed_map_inert_sample : ∃ (s : System) (k₁ : Kernel) (pa : Nat) (k₂ : Kernel),
    s.kernel.pmm.freeFrames = 2 ∧
      vmMap s.kernel 0x110000 0x400000000000 0x200000 3 = (k₁, -1) ∧ k₁.pmm.freeFrames = 0 ∧
      translate k₁.mem 0x110000 0x400000000000 = none ∧
      vmMap (k₁.freeFrame pa) 0x110000 0x400000000000 0x200000 3 = (k₂, 0) := by
  have frames := sample_frames
  have canonical : Canonical 0x400000000000 := by decide
  have outside : pml4Index 0x400000000000 ≠ 0 ∨ pdptIndex 0x400000000000 ≠ 0 := by decide
  have guards : MapGuards 0x400000000000 0x200000 := ⟨by decide, by decide, by decide, by decide⟩
  obtain ⟨count, s, run, sound, mem, spaces, free, _, isHeld⟩ :=
    @Sound.drains sampleImage.pd 2 sampleSystem sample_started.sound (by omega)
  obtain ⟨frame, wasFree, isHeld⟩ := isHeld (by omega)
  have steps : Steps Step sampleSystem (List.replicate count .alloc) s :=
    @Steps.weaken _ _ _ _ _ _ _ (fun _ => True) (fun _ _ => trivial) (fun _ step => step.1) run trivial
  have owns : Steps OwnStep sampleSystem (List.replicate count .alloc) s :=
    @Steps.weaken _ _ _ _ _ _ _ (fun _ => True) (fun _ _ => trivial) (fun _ step => step.2) run trivial
  obtain ⟨level, owned⟩ := sample_started.owned_run owns
  have known : 0x110000 ∈ s.spaces := by
    rw [spaces]
    exact List.mem_singleton_self _
  have root := owned.paging.rootLevel known
  -- slot 128 of the PML4 is absent, so three tables are missing
  have levels : missingLevels s.kernel.mem 0x110000 (upperPath 0x400000000000) = some 3 := by
    obtain ⟨start, boot, filled⟩ := sample_booted.state.directory
    rw [mem]
    exact missingLevels_absent (boot.slots filled 128).1
  have undefined : translatePage s.kernel.mem 0x110000 0x400000000000 = none := by
    rw [mem]
    exact sample_untranslated (List.mem_singleton_self _) canonical outside
  -- two frames are not enough, and both of them become tables
  rcases @Paging.vmMap_exact s.kernel s.spaces level sampleImage.pd 0x110000 0x400000000000 0x200000 3
    owned.paging sound.valid known canonical guards with
    ⟨missing, ⟨_, levels', enough⟩, _⟩ | ⟨_, refused⟩
  · obtain rfl := Option.some.inj (levels.symm.trans levels')
    omega
  have cost := owned.paging.walkTables_count sound.valid (upperPath 0x400000000000) (by
    rw [root]
    decide)
  rcases walked : walkTables s.kernel 0x110000 (upperPath 0x400000000000) true with ⟨k₁, result⟩
  rw [walked] at cost refused
  have short : k₁.pmm.freeFrames = 0 ∧
      missingLevels k₁.mem 0x110000 (upperPath 0x400000000000) = some 1 := by
    cases cost with
    | large missing =>
        rw [levels] at missing
        cases missing
    | done levels' count =>
        obtain rfl := Option.some.inj (levels.symm.trans levels')
        omega
    | short levels' empty few left =>
        obtain rfl := Option.some.inj (levels.symm.trans levels')
        exact ⟨empty, by rw [left, free]⟩
  obtain ⟨inert, later⟩ := failed_map_inert sample_started steps known canonical refused
  have unmapped := (inert.translations known).trans undefined
  -- a client frees a frame that it holds
  obtain ⟨level', owned'⟩ := @Owned.map_step _ _ _ _ owned 0x110000 0x400000000000 0x200000 3 known
    canonical (by decide)
  rw [System.apply, refused] at owned'
  have frees : Step { s with kernel := k₁ } (.free (frame * pmmFrameSize)) _ :=
    ⟨owned'.enabled ⟨Nat.mul_mod_left _ _, by rwa [Nat.mul_div_cancel _ (by decide)]⟩, rfl⟩
  obtain ⟨_, succeeds⟩ := later (Steps.single frees) guards
  have small := (mem_freeSet.mp wasFree).1
  have notZero : frame ≠ 0 := fun zero => sample_started.sound.valid.zero (zero ▸ wasFree)
  have back : frame ∈ freeSet (pmmFreeFrame k₁.pmm (frame * pmmFrameSize)).bitmap := by
    refine mem_freeSet_pmmFreeFrame.mpr
      (.inr ⟨Nat.mul_ne_zero notZero (by decide), Nat.mul_mod_left _ _, ?_, ?_⟩)
    · simp only [pmmFrameCount, pmmMaxPhys, pmmFrameSize] at small ⊢
      omega
    · rw [Nat.mul_div_cancel _ (by decide)]
  have valid := ((sound.refused known refused).valid.free (frame * pmmFrameSize)).count
  have some := Finset.card_pos.mpr ⟨frame, back⟩
  obtain ⟨k₂, done, _⟩ := succeeds unmapped short.2 (valid ▸ some)
  exact ⟨s, k₁, _, k₂, free, refused, short.1, translate_eq_none.mpr unmapped, done⟩

end Sample

/-- A fault that was served: its page is translated to a frame that was free and is
now all zero, no other translation of the current space changed, and the pool paid
one frame and the missing levels. -/
structure FaultServed (k k' : Kernel) (cr2 missing : Nat) : Prop where
  page : ∃ frame ∈ freeSet k.pmm.bitmap,
    (∀ {va}, pageNumber va = pageNumber cr2 →
      translate k'.mem k.cr3 va = some (frame * pmmFrameSize + va % vmPageSize)) ∧
    ∀ {offset}, offset < pmmFrameSize → k'.mem (frame * pmmFrameSize + offset) = 0
  others : ∀ {va}, pageNumber va ≠ pageNumber cr2 →
    translate k'.mem k.cr3 va = translate k.mem k.cr3 va
  faults : k'.faults = u64 (k.faults + 1)
  count : k'.pmm.freeFrames + (1 + missing) = k.pmm.freeFrames

/-- A fault that was not served: no translation changed, the frames that left the pool
are tables on the path of its page, and it is not counted. -/
structure FaultRefused (k k' : Kernel) (spaces : List Nat) (cr2 : Nat) : Prop where
  inert : Refusal k k' spaces k.cr3 (upperPath cr2)
  faults : k'.faults = k.faults

/-- The page of a fault is unmapped without a large page on its path, and the pool has
a frame for it and one for every missing level. -/
def FaultCovered (k : Kernel) (cr2 missing : Nat) : Prop :=
  translate k.mem k.cr3 cr2 = none ∧
    missingLevels k.mem k.cr3 (upperPath cr2) = some missing ∧ 1 + missing ≤ k.pmm.freeFrames

section Fault

variable {k k' : Kernel} {spaces : List Nat} {level : Nat → Nat}
  {identity frame cr2 errorCode result : Nat}

/-- Clearing the data frame spares the slots of the tables. -/
theorem Paging.faultStart_tables (paging : Paging k spaces level identity)
    (free : frame ∈ freeSet k.pmm.bitmap) {node : Nat} {index : Fin 512}
    (isTable : level node ≠ 0) :
    tables (faultStart k frame).mem level node index = tables k.mem level node index :=
  paging.tables_congr (fun _ used => paging.faultStart_bytes free used) isTable

/-- Clearing the data frame changes no translation. -/
theorem Paging.faultStart_translatePage (paging : Paging k spaces level identity)
    (free : frame ∈ freeSet k.pmm.bitmap) {space va : Nat} (known : space ∈ spaces) :
    translatePage (faultStart k frame).mem space va = translatePage k.mem space va := by
  have root := paging.rootLevel known
  exact paging.translatePage_congr (paging.atFault free) known known
    (paging.shape.lookup_congr (fun isTable => paging.faultStart_tables free isTable) _ (by omega))

/-- The page of a fault has the path of its address. -/
theorem upperPath_faultPage (inHeap : InHeap cr2) : upperPath (faultPage cr2) = upperPath cr2 := by
  obtain ⟨canonical, same⟩ := faultPage_canonical inHeap.1 inHeap.2
  have paths := (path_eq_iff_of_canonical canonical inHeap.canonical).mpr same
  rw [path_eq, path_eq] at paths
  exact List.append_inj_left' paths rfl

/-- With its data frame taken, the pool has a frame less. -/
theorem faultStart_count (valid : k.pmm.Valid) (free : frame ∈ freeSet k.pmm.bitmap) :
    (faultStart k frame).pmm.freeFrames + 1 = k.pmm.freeFrames := by
  have nonempty := Finset.card_pos.mpr ⟨_, free⟩
  have count := valid.count
  simp only [faultStart, pmmTake]
  omega

/-- A page is mappable behind its data frame when the pool has a frame more. -/
theorem Paging.faultStart_mappable (paging : Paging k spaces level identity) (valid : k.pmm.Valid)
    (free : frame ∈ freeSet k.pmm.bitmap) (inHeap : InHeap cr2) {missing : Nat} :
    Mappable (faultStart k frame) k.cr3 (faultPage cr2) missing ↔ FaultCovered k cr2 missing := by
  obtain ⟨_, same⟩ := faultPage_canonical inHeap.1 inHeap.2
  have root := paging.rootLevel paging.current
  have count := faultStart_count valid free
  unfold Mappable FaultCovered
  rw [paging.faultStart_translatePage free paging.current,
    paging.translatePage_page paging.current same, upperPath_faultPage inHeap,
    paging.missingLevels_congr (fun isTable => paging.faultStart_tables free isTable) (upperPath cr2)
      (by rw [root, upperPath_length]; decide), translate_eq_none]
  refine and_congr_right fun _ => and_congr_right fun _ => ?_
  omega

/-- A refusal behind the data frame is one before it, when the frame goes back. -/
theorem Paging.fault_refusal {k₁ : Kernel} (paging : Paging k spaces level identity)
    (valid : k.pmm.Valid) (valid₁ : k₁.pmm.Valid) (free : frame ∈ freeSet k.pmm.bitmap)
    (guards : MapGuards (faultPage cr2) (frame * pmmFrameSize)) (inHeap : InHeap cr2)
    (refusal : Refusal (faultStart k frame) k₁ spaces k.cr3 (upperPath (faultPage cr2))) :
    Refusal k (k₁.freeFrame (frame * pmmFrameSize)) spaces k.cr3 (upperPath cr2) := by
  have root := paging.rootLevel paging.current
  have notNull : frame * pmmFrameSize ≠ 0 := by
    have : frame ≠ 0 := by
      rintro rfl
      exact paging.reserved free
    simpa [pmmFrameSize] using this
  have pool : ∀ {other}, other ∈ freeSet (k₁.freeFrame (frame * pmmFrameSize)).pmm.bitmap ↔
      other ∈ freeSet k₁.pmm.bitmap ∨ other = frame := by
    intro other
    have back : frame * pmmFrameSize / pmmFrameSize = frame := Nat.mul_div_cancel _ (by decide)
    rw [Kernel.freeFrame, mem_freeSet_pmmFreeFrame, back]
    exact or_congr_right ⟨fun freed => freed.2.2.2,
      fun same => ⟨notNull, guards.paAligned, guards.paBelow, same⟩⟩
  have start : ∀ {other}, other ∈ freeSet (faultStart k frame).pmm.bitmap ↔
      other ≠ frame ∧ other ∈ freeSet k.pmm.bitmap := by
    intro other
    simp only [faultStart, pmmTake, freeSet_set, Finset.mem_erase]
  have shrunk : freeSet (k₁.freeFrame (frame * pmmFrameSize)).pmm.bitmap ⊆
      freeSet k.pmm.bitmap := by
    intro other still
    rcases pool.mp still with old | rfl
    · exact (start.mp (refusal.pool old)).2
    · exact free
  have gone : freeSet k.pmm.bitmap \ freeSet (k₁.freeFrame (frame * pmmFrameSize)).pmm.bitmap =
      freeSet (faultStart k frame).pmm.bitmap \ freeSet k₁.pmm.bitmap := by
    ext other
    rw [Finset.mem_sdiff, Finset.mem_sdiff, pool, start, not_or]
    constructor
    · rintro ⟨wasFree, taken, different⟩
      exact ⟨⟨different, wasFree⟩, taken⟩
    · rintro ⟨⟨different, wasFree⟩, taken⟩
      exact ⟨wasFree, taken, different⟩
  rw [upperPath_faultPage inHeap] at refusal
  refine
    { translations := ?_, pool := shrunk, left := ?_, count := ?_, levels := ?_ }
  · intro other va known
    exact (refusal.translations known).trans (paging.faultStart_translatePage free known)
  · intro other
    rw [gone, refusal.left]
    -- the two starting memories lead along the same tables
    refine exists_congr fun init => exists_congr fun index => exists_congr fun rest =>
      and_congr_right fun split => and_congr_left fun _ => ?_
    have lengths : init.length + (index :: rest).length = 3 := by
      rw [← List.length_append, ← split, upperPath_length]
    rw [paging.tableOn_congr (fun isTable => paging.faultStart_tables free isTable)
      (init ++ [index]) ?_]
    rw [root, List.length_append]
    simp only [List.length_cons, List.length_nil] at lengths ⊢
    omega
  · exact valid.count_left (valid₁.free _) shrunk
  · intro missing levels
    rw [gone]
    refine refusal.levels ?_
    rwa [paging.missingLevels_congr (fun isTable => paging.faultStart_tables free isTable)
      (upperPath cr2) (by rw [root, upperPath_length]; decide)]

/-- A served fault maps the page of its address and nothing else of the current space. -/
theorem Paging.vmHandlePageFault_served (paging : Paging k spaces level identity)
    (inHeap : InHeap cr2) (handled : vmHandlePageFault k cr2 errorCode = (k', 1)) {missing : Nat}
    (count : k'.pmm.freeFrames + (1 + missing) = k.pmm.freeFrames) :
    FaultServed k k' cr2 missing := by
  obtain ⟨canonical, same⟩ := faultPage_canonical inHeap.1 inHeap.2
  obtain ⟨frame, backed⟩ := paging.vmHandlePageFault_backed inHeap handled
  obtain ⟨level', next⟩ := @System.fault_next ⟨k, spaces, ∅⟩ level identity paging cr2 errorCode
  have after : (⟨k, spaces, ∅⟩ : System).apply (.fault cr2 errorCode) = ⟨k', spaces, ∅⟩ := by
    simp only [System.apply, handled]
  rw [after] at next
  have paging' : Paging k' spaces level' identity := next.paging
  have current : k.cr3 ∈ spaces := paging.current
  refine
    { page := ⟨frame, backed.free, ?_, fun within => backed.zero within⟩, others := ?_,
      faults := backed.faults, count := count }
  · intro va samePage
    have mapped := backed.mapped
    rw [backed.cr3] at mapped
    rw [translate, paging'.translatePage_page current samePage, mapped]
    rfl
  · intro va different
    rw [← same] at different
    refine paging.translate_others paging' current canonical (fun {va'} otherPath => ?_) different
    have apart : ∀ aim, Event.target? ⟨k, spaces, ∅⟩ (.fault cr2 errorCode) = some aim →
        path va' ≠ path aim.va := by
      intro aim isTarget
      simp only [Event.target?] at isTarget
      split at isTarget <;> cases isTarget
      exact otherPath
    exact @Change.lookup_other ⟨k, spaces, ∅⟩ ⟨k', spaces, ∅⟩ level level' identity _ k.cr3 va' paging
      next.change current apart

/-- The handler serves exactly the covered faults that pass its filter. -/
theorem Paging.vmHandlePageFault_exact (paging : Paging k spaces level identity)
    (valid : k.pmm.Valid) (run : vmHandlePageFault k cr2 errorCode = (k', result)) :
    k'.inFault = k.inFault ∧
    ((result = 1 ∧ FaultFilter k cr2 errorCode ∧
        ∃ missing, FaultCovered k cr2 missing ∧ FaultServed k k' cr2 missing) ∨
      (result = 0 ∧ ¬ (FaultFilter k cr2 errorCode ∧ ∃ missing, FaultCovered k cr2 missing) ∧
        FaultRefused k k' spaces cr2)) := by
  by_cases filter : FaultFilter k cr2 errorCode
  swap
  · rw [vmHandlePageFault_filtered filter] at run
    obtain ⟨rfl, rfl⟩ := Prod.mk.inj run
    exact ⟨rfl, .inr ⟨rfl, fun served => filter served.1, .refl _ _ _ _, rfl⟩⟩
  have inHeap : InHeap cr2 := filter.2.2.2.2
  rcases paging.vmHandlePageFault_map filter with ⟨exhausted, done⟩ | ⟨frame, free, taken, guards, done⟩
  · have empty := valid.alloc_zero_iff.mp exhausted
    rw [done] at run
    obtain ⟨rfl, rfl⟩ := Prod.mk.inj run
    refine ⟨rfl, .inr ⟨rfl, ?_, .refl _ _ _ _, rfl⟩⟩
    rintro ⟨_, missing, _, _, enough⟩
    omega
  have valid₀ : (faultStart k frame).pmm.Valid := by
    have next := valid.alloc
    rwa [taken] at next
  have paid := faultStart_count valid free
  have canonical := (faultPage_canonical inHeap.1 inHeap.2).1
  have known : k.cr3 ∈ spaces := paging.current
  rcases @Paging.vmMap_exact (faultStart k frame) spaces level identity k.cr3 (faultPage cr2)
    (frame * pmmFrameSize) (vmPtePresent ||| vmPteWrite) (paging.atFault free) valid₀ known canonical
    guards with ⟨missing, mappable, status, count⟩ | ⟨unmappable, refused⟩
  · generalize vmMap (faultStart k frame) k.cr3 (faultPage cr2) (frame * pmmFrameSize)
      (vmPtePresent ||| vmPteWrite) = mapped at done status count
    obtain ⟨k₁, status⟩ := mapped
    simp only at status count
    subst status
    simp only [ne_eq, not_true_eq_false, if_false] at done
    have handled := done
    rw [run] at done
    obtain ⟨rfl, rfl⟩ := Prod.mk.inj done
    refine ⟨filter.1.symm, .inl ⟨rfl, filter, missing,
      (paging.faultStart_mappable valid free inHeap).mp mappable, ?_⟩⟩
    exact paging.vmHandlePageFault_served inHeap handled (by simp only; omega)
  · have refusal := (paging.atFault free).walk_refusal valid₀ known (faultPage cr2)
    obtain ⟨level', _, grown, _, _⟩ := (paging.atFault free).walkTables_spec true
      (upperPath (faultPage cr2)) (show _ < level k.cr3 by
        rw [paging.rootLevel known, upperPath_length]; decide)
    have faults := congrArg Kernel.faults grown.rest
    have valid₁ := grown.valid valid₀
    rw [refused] at done
    generalize (walkTables (faultStart k frame) k.cr3 (upperPath (faultPage cr2)) true).1 = k₁ at *
    simp only [ne_eq, Int.reduceNeg, Int.neg_eq_zero, one_ne_zero, not_false_eq_true, if_true] at done
    rw [run] at done
    obtain ⟨rfl, rfl⟩ := Prod.mk.inj done
    refine ⟨filter.1.symm, .inr ⟨rfl, ?_, ?_, faults⟩⟩
    · rintro ⟨_, missing, covered⟩
      exact unmappable missing ((paging.faultStart_mappable valid free inHeap).mpr covered)
    · have inert := paging.fault_refusal valid valid₁ free guards inHeap refusal
      exact { inert with }

end Fault

section Run

variable {image : Image} {mbInfo : Nat} {start s : System} {events : List Event} {k k' : Kernel}
  {cr2 errorCode result : Nat}

/-- **The page-fault handler is all or nothing.** In every reachable state, inside or
outside a run of the handler, a fault is served exactly when it passes the filter,
its page is unmapped without a large page on its path, and the pool has a frame for
it and one for every missing level. A served fault maps that page and nothing else;
any other changes no translation, and takes from the pool only tables it linked. The
guard flag is in both cases what it was. -/
theorem fault_all_or_nothing (started : Started image mbInfo start)
    (run : Steps Step start events s) {busy : Bool} (entered : k = { s.kernel with inFault := busy })
    (handled : vmHandlePageFault k cr2 errorCode = (k', result)) :
    (result = 1 ↔ FaultFilter k cr2 errorCode ∧ ∃ missing, FaultCovered k cr2 missing) ∧
      (result = 1 → ∃ missing, FaultCovered k cr2 missing ∧ FaultServed k k' cr2 missing) ∧
      (result ≠ 1 → result = 0 ∧ FaultRefused k k' s.spaces cr2) ∧
      k'.inFault = k.inFault := by
  have sound := started.run run
  obtain ⟨level, paging⟩ := sound.paging
  have paging₀ : Paging k s.spaces level image.pd := by
    rw [entered]
    exact { paging with }
  have valid : k.pmm.Valid := by
    rw [entered]
    exact sound.valid
  obtain ⟨flag, ⟨rfl, filter, missing, covered, served⟩ | ⟨rfl, uncovered, refused⟩⟩ :=
    paging₀.vmHandlePageFault_exact valid handled
  · exact ⟨⟨fun _ => ⟨filter, missing, covered⟩, fun _ => rfl⟩,
      fun _ => ⟨missing, covered, served⟩, fun other => absurd rfl other, flag⟩
  · exact ⟨⟨fun one => absurd one (by decide), fun filtered => absurd filtered uncovered⟩,
      fun one => absurd one (by decide), fun _ => ⟨rfl, refused⟩, flag⟩

end Run

section Sample

theorem fault_all_or_nothing_sample : ∃ k' missing,
    vmHandlePageFault sampleSystem.kernel vmHeapBase 2 = (k', 1) ∧
      FaultServed sampleSystem.kernel k' vmHeapBase missing := by
  obtain ⟨level, paging⟩ := sample_started.sound.paging
  have frames := sample_frames
  have inHeap : InHeap vmHeapBase := by decide
  have outside : pml4Index vmHeapBase ≠ 0 ∨ pdptIndex vmHeapBase ≠ 0 := .inl (by decide)
  obtain ⟨missing, few, levels⟩ := paging.missingLevels_some paging.current outside
  have filter : FaultFilter sampleSystem.kernel vmHeapBase 2 :=
    ⟨sample_booted.state.idle, rfl, rfl, rfl, inHeap⟩
  have covered : FaultCovered sampleSystem.kernel vmHeapBase missing :=
    ⟨translate_eq_none.mpr (sample_untranslated paging.current inHeap.canonical outside), levels,
      by omega⟩
  rcases run : vmHandlePageFault sampleSystem.kernel vmHeapBase 2 with ⟨k', result⟩
  obtain ⟨exactly, effect, _⟩ := @fault_all_or_nothing sampleImage 0x9000 sampleSystem sampleSystem []
    sampleSystem.kernel k' vmHeapBase 2 result sample_started .refl sampleSystem.kernel.inFault rfl run
  obtain rfl := exactly.mpr ⟨filter, missing, covered⟩
  obtain ⟨missing', _, served⟩ := effect rfl
  exact ⟨k', missing', rfl, served⟩

end Sample

end GodOs
