import GodOs.Pmm.Ensure
import GodOs.Vm.Paging

/-!
# From the boot loader to the first page tables

`boot.asm` maps the first 2 MB through three tables inside the kernel image and
calls `kmain`, which runs `vm_init` and `pmm_init`. `Booted` is the state after
both, and `Booted.paging` is the paging invariant for the kernel space alone.
-/

namespace GodOs

open Lib Lib.Forest

/-- Where the linker places the boot tables and the end of the kernel image. -/
structure Image where
  pml4 : Nat
  bssEnd : Nat
  aligned : pml4 % 4096 = 0
  loaded : 0x100000 ≤ pml4
  inside : pml4 + 0x3000 ≤ bssEnd
  below : bssEnd ≤ pmmMaxPhys

def Image.pdpt (image : Image) : Nat := image.pml4 + 0x1000

def Image.pd (image : Image) : Nat := image.pml4 + 0x2000

/-- The tables that `boot.asm` builds. -/
structure BootTables (image : Image) (mem : Memory) : Prop where
  pml4 : ∀ {i}, i < 512 → entryAt mem image.pml4 i = if i = 0 then image.pdpt + 3 else 0
  pdpt : ∀ {i}, i < 512 → entryAt mem image.pdpt i = if i = 0 then image.pd + 3 else 0
  pd : ∀ {i}, i < 512 → entryAt mem image.pd i = if i = 0 then 0x83 else 0

/-- The state after `vm_init` and a successful `pmm_init`, called with the
multiboot2 structure at `mbInfo`. -/
def Booted (image : Image) (mbInfo : Nat) (k : Kernel) : Prop :=
  ∃ boot : Kernel, BootTables image boot.mem ∧ boot.cr3 = image.pml4 ∧
    pmmInit image.bssEnd (vmInit boot) mbInfo = .done (k, 0)

section Boot

variable {image : Image} {mbInfo : Nat} {start mem : Memory} {k : Kernel}

/-- The tables above the directory do not change while the directory is filled. -/
theorem BootTables.upper (tables : BootTables image start) (filled : Filled image.pd start mem)
    {i : Nat} (small : i < 512) :
    entryAt mem image.pml4 i = (if i = 0 then image.pdpt + 3 else 0) ∧
      entryAt mem image.pdpt i = (if i = 0 then image.pd + 3 else 0) := by
  have kept : ∀ {table}, table + 4096 ≤ image.pd → entryAt mem table i = entryAt start table i :=
    fun before => Memory.load_congr fun address lower upper => filled.outside (by omega)
  constructor
  · rw [← tables.pml4 small, kept (by simp [Image.pd])]
  · rw [← tables.pdpt small, kept (by simp [Image.pd, Image.pdpt])]

/-- The hardware path to the directory, as both mapping functions read it. -/
theorem BootTables.path (tables : BootTables image start) (filled : Filled image.pd start mem) :
    mem.load (image.pml4 &&& vmAddrMask) 8 = image.pdpt + 3 ∧
      image.pdpt + 3 &&& vmPtePresent ≠ 0 ∧ image.pdpt + 3 &&& vmAddrMask = image.pdpt ∧
      mem.load image.pdpt 8 = image.pd + 3 ∧ image.pd + 3 &&& vmPtePresent ≠ 0 ∧
      image.pd + 3 &&& vmPteHuge = 0 ∧ image.pd + 3 &&& vmAddrMask = image.pd := by
  have aligned := image.aligned
  have inside := image.inside
  have below := image.below
  have upper := tables.upper filled (show 0 < 512 by decide)
  simp only [entryAt, Nat.mul_zero, Nat.add_zero, if_true, pmmMaxPhys] at *
  rw [addrMask_of_aligned aligned (by omega)]
  simp only [Ne, present_eq_zero, huge_eq_zero, addrMask_eq, Image.pdpt, Image.pd] at *
  exact ⟨upper.1, by omega, by omega, upper.2, by omega, by omega, by omega⟩

/-- A present entry of the filled directory is the large page of its own 2 MB. -/
theorem BootTables.large (tables : BootTables image start) (filled : Filled image.pd start mem)
    {i : Nat} (small : i < 512) (present : entryAt mem image.pd i &&& vmPtePresent ≠ 0) :
    entryAt mem image.pd i = largeEntry i := by
  rcases filled.entries small with kept | ⟨_, large⟩
  · rw [kept, tables.pd small] at present ⊢
    by_cases first : i = 0
    · rw [if_pos first, largeEntry, first, Nat.zero_mul, Nat.zero_add]
    · rw [if_neg first] at present
      exact absurd rfl present
  · exact large

/-- The hardware reaches the directory of the boot tables. -/
theorem BootTables.directory (tables : BootTables image start)
    (filled : Filled image.pd start mem) : Directory mem image.pml4 image.pd := by
  obtain ⟨pml4e, present, pdptMask, pdpte, present', small, pdMask⟩ := tables.path filled
  have root : firstPml4e mem image.pml4 = image.pdpt + 3 := pml4e
  have upper : firstPdpte mem image.pml4 = image.pd + 3 := by
    rw [firstPdpte, root, pdptMask]
    exact pdpte
  have aligned := image.aligned
  refine
    { root := by rw [root]; exact present, reserved := ?_, upper := by rw [upper]; exact present',
      small := by rw [upper]; exact small, place := by rw [upper]; exact pdMask,
      own := fun small present _ => ?_ }
  · rw [root, huge_eq_zero]
    simp only [Image.pdpt]
    omega
  · rw [tables.large filled small present]
    exact (largeEntry_own small).2

/-- What `ensure_2mb_mapped` does to the boot tables. -/
theorem BootTables.ensure (tables : BootTables image start)
    (filled : Filled image.pd start k.mem) (cr3 : k.cr3 = image.pml4) {addr len : Nat}
    {k' : Kernel} (run : ensure2mbMapped k addr len = (k', 0)) (nonempty : 0 < len) :
    Filled image.pd k.mem k'.mem ∧ k' = { k with mem := k'.mem, tlb := Tlb.empty } ∧
      ∀ {i}, addr / 2 ^ 21 ≤ i → i ≤ (addr + len - 1) / 2 ^ 21 →
        entryAt k'.mem image.pd i &&& vmPtePresent ≠ 0 := by
  have directory := tables.directory filled
  rw [← cr3] at directory
  have inRange := ensure2mbMapped_below run nonempty
  have limit : pmmMaxPhys = 2 ^ 30 := rfl
  have edited := ensureEntries_filled k.mem image.pd
    ((addr + len - 1) &&& 0xFFFFFFFFFFE00000) (addr &&& 0xFFFFFFFFFFE00000)
  rcases walked : ensureEntries k.mem image.pd ((addr + len - 1) &&& 0xFFFFFFFFFFE00000)
    (addr &&& 0xFFFFFFFFFFE00000) with ⟨mem, status⟩
  rw [directory.ensure_eq nonempty (by omega) walked] at run
  rw [walked] at edited
  split at run
  next failed =>
    obtain ⟨_, zero⟩ := Prod.mk.inj run
    exact absurd zero failed
  next succeeded =>
    obtain rfl : status = 0 := not_not.mp succeeded
    obtain ⟨rfl, _⟩ := Prod.mk.inj run
    refine ⟨edited, rfl, fun lower upper => ensureEntries_present walked ?_ ?_⟩
    · rw [regionMask_eq (by omega), Nat.mul_div_cancel _ (by decide)]
      exact lower
    · rw [regionMask_eq (by omega), Nat.mul_div_cancel _ (by decide)]
      exact upper

/-- What `pmm_extend_identity` does to the boot tables. -/
theorem BootTables.extend (tables : BootTables image start)
    (filled : Filled image.pd start k.mem) (cr3 : k.cr3 = image.pml4) (flushed : k.tlb = Tlb.empty)
    (maxEnd : Nat) :
    ∃ mem, Filled image.pd k.mem mem ∧ pmmExtendIdentity k maxEnd = ({ k with mem := mem }, 0) ∧
      ∀ {i}, 1 ≤ i → i * 2 ^ 21 < min maxEnd pmmMaxPhys →
        entryAt mem image.pd i &&& vmPtePresent ≠ 0 := by
  obtain ⟨pml4e, present, pdptMask, pdpte, present', small, pdMask⟩ := tables.path filled
  unfold pmmExtendIdentity
  split
  next empty =>
    refine ⟨k.mem, .refl _ _, rfl, fun _ below => ?_⟩
    rw [empty] at below
    omega
  next nonempty =>
    simp only [cr3, pml4e, if_neg present, pdptMask, pdpte, if_neg present', small, pdMask,
      ne_eq, not_true_eq_false, if_false]
    have cut : (if maxEnd > pmmMaxPhys then pmmMaxPhys else maxEnd) = min maxEnd pmmMaxPhys := by
      split_ifs <;> omega
    have limit : pmmMaxPhys = 2 ^ 30 := rfl
    have size : pmm2mb = 2 ^ 21 := rfl
    have within : ¬ (min maxEnd pmmMaxPhys + 2 ^ 21 - 1) / 2 ^ 21 > 512 := by omega
    rw [cut, size, if_neg within]
    have count : (min maxEnd pmmMaxPhys + 2 ^ 21 - 1) / 2 ^ 21 - 1 < 512 := by omega
    refine ⟨_, extendEntries_filled k.mem image.pd count, by rw [vmWriteCr3, flushed], ?_⟩
    exact fun positive below => extendEntries_present _ _ count positive (by omega)

/-- The states that `vm_init` and `pmm_init` leave behind. -/
structure BootState (image : Image) (mbInfo : Nat) (k : Kernel) : Prop where
  directory : ∃ start, BootTables image start ∧ Filled image.pd start k.mem
  cr3 : k.cr3 = image.pml4
  kernelSpace : k.kernelSpace = image.pml4
  faults : k.faults = 0
  idle : k.inFault = false
  tlb : k.tlb = Tlb.empty
  valid : k.pmm.Valid
  info : k.pmm.mbInfo = mbInfo
  reserved : ∀ {frame}, Reserved image.bssEnd mbInfo k.pmm.infoEnd frame →
    frame ∉ freeSet k.pmm.bitmap

theorem Booted.state (booted : Booted image mbInfo k) : BootState image mbInfo k := by
  obtain ⟨boot, tables, cr3, run⟩ := booted
  have aligned := image.aligned
  have inside := image.inside
  have below := image.below
  simp only [pmmMaxPhys] at below
  have ownAddress : image.pml4 &&& vmAddrMask = image.pml4 := addrMask_of_aligned aligned (by omega)
  obtain ⟨k₁, k₂, ranges, infoEnd, first, second, parsed, positive, _, extended⟩ := pmmInit_done run
  have inRange := ensure2mbMapped_below first (by decide)
  obtain ⟨filled₁, rest₁, _⟩ :=
    @BootTables.ensure image boot.mem (vmInit boot) tables (.refl _ _) cr3 _ _ _ first (by decide)
  obtain ⟨filled₂, rest₂, _⟩ :=
    tables.ensure filled₁ (by rw [rest₁]; exact cr3) second positive
  obtain ⟨infoEndEq, _, short, _⟩ := mb2Init_done parsed
  simp only [pmmMaxPhys] at inRange
  rw [u64_of_lt (by omega)] at infoEndEq
  let info : Pmm := { k₂.pmm with mbInfo := mbInfo, infoEnd := infoEnd, maxEnd := rangesEnd ranges }
  obtain ⟨mem, filled₃, extended', _⟩ := @BootTables.extend image boot.mem
    { k₂ with pmm := pmmBitmapInit image.bssEnd info ranges } tables (filled₁.trans filled₂)
    (by rw [rest₂, rest₁]; exact cr3) (by rw [rest₂]) (rangesEnd ranges)
  obtain ⟨rfl, _⟩ := Prod.mk.inj (extended'.symm.trans extended)
  have fits : info.infoEnd < 2 ^ 64 := show infoEnd < 2 ^ 64 by omega
  have rest : k₂ = { vmInit boot with mem := k₂.mem, tlb := Tlb.empty } := by
    rw [rest₂, rest₁]
  refine
    { directory := ⟨boot.mem, tables, (filled₁.trans filled₂).trans filled₃⟩, cr3 := ?_,
      kernelSpace := ?_, faults := ?_, idle := ?_, tlb := ?_, valid := pmmBitmapInit_valid _ _ _,
      info := rfl, reserved := pmmBitmapInit_reserved image.below fits }
  · rw [rest]
    exact cr3
  · rw [rest]
    simp only [vmInit, cr3, ownAddress]
  · rw [rest]
    rfl
  · rw [rest]
    rfl
  · rw [rest]

/-- The levels of the three boot tables. -/
def Image.level (image : Image) (table : Nat) : Nat :=
  if table = image.pml4 then 4
  else if table = image.pdpt then 3
  else if table = image.pd then 2
  else 0

theorem Image.level_cases (image : Image) {table : Nat} (isTable : image.level table ≠ 0) :
    (table = image.pml4 ∧ image.level table = 4) ∨ (table = image.pdpt ∧ image.level table = 3) ∨
      (table = image.pd ∧ image.level table = 2) := by
  unfold Image.level at isTable ⊢
  split_ifs at isTable ⊢ <;> simp_all

theorem Image.level_pml4 (image : Image) : image.level image.pml4 = 4 := by simp [Image.level]

theorem Image.level_pdpt (image : Image) : image.level image.pdpt = 3 := by
  simp [Image.level, Image.pdpt]

theorem Image.level_pd (image : Image) : image.level image.pd = 2 := by
  simp [Image.level, Image.pd, Image.pdpt]

/-- The slots of the boot tables: one table in each upper table, and large
pages or nothing in the directory. -/
theorem BootTables.slots (boot : BootTables image start) (filled : Filled image.pd start mem)
    (i : Fin 512) :
    tables mem image.level image.pml4 i = (if i.val = 0 then .table image.pdpt else .absent) ∧
      tables mem image.level image.pdpt i = (if i.val = 0 then .table image.pd else .absent) ∧
      (tables mem image.level image.pd i = .absent ∧ entryAt mem image.pd i = 0 ∨
        tables mem image.level image.pd i = .page (largeEntry i) ∧
          entryAt mem image.pd i = largeEntry i) := by
  have aligned := image.aligned
  have inside := image.inside
  have below := image.below
  have bound := i.isLt
  simp only [pmmMaxPhys] at below
  have empty : ∀ level, decode level 0 = .absent := fun level => decode_eq_absent.mpr rfl
  have toTable : ∀ {level table}, level ≠ 1 → table % 4096 = 0 → table < 2 ^ 30 →
      decode level (table + 3) = .table table := by
    intro level table upper tableAligned small
    refine decode_eq_table.mpr ⟨?_, upper, huge_eq_zero.mpr (by omega), ?_⟩
    · rw [Ne, present_eq_zero]
      omega
    · rw [addrMask_eq]
      omega
  have toPage : ∀ {level}, decode level (largeEntry i) = .page (largeEntry i) := by
    intro level
    simp only [largeEntry]
    refine decode_eq_page.mpr ⟨?_, .inr ?_, rfl⟩
    · rw [Ne, present_eq_zero]
      omega
    · rw [Ne, huge_eq_zero]
      omega
  have upper := boot.upper filled bound
  refine ⟨?_, ?_, ?_⟩
  · rw [tables, upper.1, image.level_pml4]
    split
    · exact toTable (by decide) (by simp only [Image.pdpt]; omega) (by simp only [Image.pdpt]; omega)
    · exact empty 4
  · rw [tables, upper.2, image.level_pdpt]
    split
    · exact toTable (by decide) (by simp only [Image.pd]; omega) (by simp only [Image.pd]; omega)
    · exact empty 3
  · rw [tables]
    have old := boot.pd bound
    rcases filled.entries bound with kept | ⟨_, large⟩
    · rw [kept, old]
      by_cases first : i.val = 0
      · have isLarge : (0x83 : Nat) = largeEntry i := by simp [largeEntry, first]
        rw [if_pos first, isLarge]
        exact .inr ⟨toPage, rfl⟩
      · rw [if_neg first]
        exact .inl ⟨empty _, rfl⟩
    · rw [large]
      exact .inr ⟨toPage, rfl⟩

/-- The paging invariant holds when the first space is the only one. -/
theorem BootState.paging (state : BootState image mbInfo k) :
    Paging k [image.pml4] image.level image.pd := by
  obtain ⟨start, boot, filled⟩ := state.directory
  have slots := boot.slots filled
  have aligned := image.aligned
  have loaded := image.loaded
  have inside := image.inside
  have below := image.below
  simp only [pmmMaxPhys] at below
  have rootSlot : tables k.mem image.level image.pml4 0 = .table image.pdpt := by
    rw [(slots 0).1]
    rfl
  have pdptSlot : tables k.mem image.level image.pdpt 0 = .table image.pd := by
    rw [(slots 0).2.1]
    rfl
  have toPdpt : (tables k.mem image.level).descend image.pml4 [0] = some image.pdpt := by
    rw [Store.descend_table rootSlot, Store.descend]
  have toPd : (tables k.mem image.level).descend image.pml4 [0, 0] = some image.pd := by
    rw [Store.descend_table rootSlot, Store.descend_table pdptSlot, Store.descend]
  -- the only table slots are the two entries with index 0
  have links : ∀ {table index child}, image.level table ≠ 0 →
      tables k.mem image.level table index = .table child →
      index.val = 0 ∧ (table = image.pml4 ∧ child = image.pdpt ∨
        table = image.pdpt ∧ child = image.pd) := by
    intro table index child isTable slot
    rcases image.level_cases isTable with ⟨rfl, _⟩ | ⟨rfl, _⟩ | ⟨rfl, _⟩
    · rw [(slots index).1] at slot
      split at slot
      next first => exact ⟨first, .inl ⟨rfl, by injection slot with same; exact same.symm⟩⟩
      next => cases slot
    · rw [(slots index).2.1] at slot
      split at slot
      next first => exact ⟨first, .inr ⟨rfl, by injection slot with same; exact same.symm⟩⟩
      next => cases slot
    · rcases (slots index).2.2 with ⟨absent, _⟩ | ⟨page, _⟩
      · rw [absent] at slot
        cases slot
      · rw [page] at slot
        cases slot
  refine
    { shape := { child := ?_, parent := ?_ }, root := ?_, bounded := ?_, rooted := ?_, frame := ?_,
      kernel := by simp [state.kernelSpace], current := by simp [state.cr3],
      reserved := state.valid.zero, window := ?_, huge := ?_ }
  · intro table index child isTable slot
    rcases links isTable slot with ⟨_, ⟨rfl, rfl⟩ | ⟨rfl, rfl⟩⟩
    · rw [image.level_pdpt, image.level_pml4]
      decide
    · rw [image.level_pd, image.level_pdpt]
      decide
  · intro table other index index' child isTable isTable' slot slot'
    obtain ⟨first, found⟩ := links isTable slot
    obtain ⟨first', found'⟩ := links isTable' slot'
    refine ⟨Fin.ext (first.trans first'.symm), .inl ?_⟩
    simp only [Image.pdpt, Image.pd] at found found'
    omega
  · intro table
    rw [List.mem_singleton]
    constructor
    · intro top
      rcases image.level_cases (show image.level table ≠ 0 by omega) with
        ⟨same, _⟩ | ⟨_, other⟩ | ⟨_, other⟩
      · exact same
      · omega
      · omega
    · rintro rfl
      exact image.level_pml4
  · intro table
    unfold Image.level
    split_ifs <;> omega
  · intro table isTable
    refine ⟨image.pml4, by simp, ?_⟩
    rcases image.level_cases isTable with ⟨rfl, _⟩ | ⟨rfl, _⟩ | ⟨rfl, _⟩
    · exact ⟨[], rfl⟩
    · exact ⟨_, toPdpt⟩
    · exact ⟨_, toPd⟩
  · intro table isTable
    have place : image.pml4 ≤ table ∧ table + 4096 ≤ image.bssEnd ∧ table % 4096 = 0 := by
      have places : image.pdpt = image.pml4 + 0x1000 ∧ image.pd = image.pml4 + 0x2000 := ⟨rfl, rfl⟩
      rcases image.level_cases isTable with ⟨rfl, _⟩ | ⟨rfl, _⟩ | ⟨rfl, _⟩ <;> omega
    refine ⟨table / 4096, by omega, ?_, ?_, state.reserved (.inl ?_)⟩
    · simp only [pmmFrameCount, pmmMaxPhys, pmmFrameSize]
      omega
    · simp only [pmmFrameSize]
      omega
    · simp only [pmmFrameSize]
      omega
  · intro space known
    rw [List.mem_singleton.mp known]
    exact toPd
  · intro table index entry isTable upper slot
    rcases image.level_cases isTable with ⟨rfl, _⟩ | ⟨rfl, _⟩ | ⟨rfl, _⟩
    · rw [(slots index).1] at slot
      split at slot <;> cases slot
    · rw [(slots index).2.1] at slot
      split at slot <;> cases slot
    · rfl

/-- At boot nothing is mapped outside the identity window. -/
theorem BootState.lookup_outside (state : BootState image mbInfo k) {va : Nat}
    (outside : pml4Index va ≠ 0 ∨ pdptIndex va ≠ 0) :
    (tables k.mem image.level).lookup image.pml4 (path va) = none := by
  obtain ⟨start, boot, filled⟩ := state.directory
  have slots := boot.slots filled
  rw [path, Store.lookup, (slots _).1]
  by_cases root : pml4Index va = 0
  · rw [if_pos root]
    simp only
    rw [Store.lookup, (slots _).2.1, if_neg (outside.resolve_left (not_not_intro root))]
  · rw [if_neg root]

end Boot

/-- A small kernel image, 1 MB into memory. -/
def sampleImage : Image where
  pml4 := 0x110000
  bssEnd := 0x120000
  aligned := by decide
  loaded := by decide
  inside := by decide
  below := by decide

/-- The memory that a boot loader may leave for `sampleImage`: the boot tables, and at `0x9000`
a multiboot2 structure whose memory map is one usable range of 128 MB. -/
def sampleMemory : Memory :=
  [(0x110000, 8, 0x111003), (0x111000, 8, 0x112003), (0x112000, 8, 0x83),
    (0x9000, 4, 56), (0x9008, 4, 6), (0x900C, 4, 40), (0x9010, 4, 24), (0x9020, 8, 0x8000000),
    (0x9028, 4, 1), (0x9034, 4, 8)].foldl
      (fun mem (word : Nat × Nat × Nat) => mem.store word.1 word.2.1 word.2.2) fun _ => 0

/-- The kernel after `vm_init` and `pmm_init` on `sampleMemory`. -/
@[irreducible] def sampleKernel : Kernel where
  mem := extendEntries sampleMemory 0x112000 63
  pmm := pmmBitmapInit 0x120000
    { bitmap := fun _ => 0, freeFrames := 0, hint := 0, mbInfo := 0x9000, infoEnd := 0x9038,
      maxEnd := 0x8000000 } [⟨0, 0x8000000⟩]
  kernelSpace := 0x110000
  faults := 0
  inFault := false
  cr3 := 0x110000
  tlb := Tlb.empty

section Sample

/-- Away from its words the sample memory is zero. -/
theorem sampleMemory_zero {address : Nat}
    (tables : address < 0x110000 ∨ 0x113000 ≤ address ∨ 8 ≤ address % 4096)
    (info : address < 0x9000 ∨ 0x9038 ≤ address) : sampleMemory address = 0 := by
  unfold sampleMemory
  simp only [List.foldl_cons, List.foldl_nil]
  iterate 10 rw [Memory.store_outside (by omega)]

theorem sampleMemory_tables : BootTables sampleImage sampleMemory := by
  have later : ∀ {table i}, (table = 0x110000 ∨ table = 0x111000 ∨ table = 0x112000) → i < 512 →
      i ≠ 0 → entryAt sampleMemory table i = 0 := by
    intro table i isTable small positive
    exact Memory.load_zero fun offset within => sampleMemory_zero (by omega) (by omega)
  refine ⟨?_, ?_, ?_⟩ <;> intro i small <;> split
  next first => subst first; decide
  next positive => exact later (.inl rfl) small positive
  next first => subst first; decide
  next positive => exact later (.inr (.inl rfl)) small positive
  next first => subst first; decide
  next positive => exact later (.inr (.inr rfl)) small positive

theorem sample_parse : mb2Init sampleMemory 0x9000 mb2MaxRanges 0 =
    .done (0x9038, some [⟨0, 0x8000000⟩]) := by
  unfold mb2Init
  decide

variable {k : Kernel}

/-- The entries that both mapping functions follow. -/
private theorem sample_entries : sampleMemory.load (0x110000 &&& vmAddrMask) 8 = 0x111003 ∧
    sampleMemory.load (0x111003 &&& vmAddrMask) 8 = 0x112003 ∧
    sampleMemory.load 0x112000 8 = 0x83 ∧ 0x112003 &&& vmAddrMask = 0x112000 := by
  decide

private theorem sample_ensure (mem : k.mem = sampleMemory) (cr3 : k.cr3 = 0x110000)
    (tlb : k.tlb = Tlb.empty) {len : Nat} (positive : 0 < len) (short : len ≤ 64) :
    ensure2mbMapped k 0x9000 len = (k, 0) := by
  obtain ⟨pml4e, pdpte, pde, pdMask⟩ := sample_entries
  have last : (0x9000 + len - 1) &&& 0xFFFFFFFFFFE00000 = 0 := by
    rw [show 0xFFFFFFFFFFE00000 = (2 ^ 43 - 1) * 2 ^ 21 from rfl, Bits.and_field]
    omega
  have directory : ensureEntries sampleMemory 0x112000 0 0 = (sampleMemory, 0) := by
    rw [ensureEntries, dif_neg (by decide)]
    simp only [Nat.zero_shiftRight, Nat.mul_zero, Nat.add_zero, pde]
    rw [if_pos (by decide), if_neg (by decide), if_true]
  unfold ensure2mbMapped
  rw [if_neg (by omega), if_neg (by simp only [pmmMaxPhys]; omega), mem, cr3]
  simp only [pml4e, pdpte, last, pdMask]
  rw [if_neg (by decide), if_neg (by decide), if_neg (by decide),
    show 0x9000 &&& 0xFFFFFFFFFFE00000 = 0 by decide, directory]
  simp only [ne_eq, not_true_eq_false, if_false, vmWriteCr3]
  rw [← mem, ← cr3, ← tlb]

private theorem sample_extend (mem : k.mem = sampleMemory) (cr3 : k.cr3 = 0x110000)
    (tlb : k.tlb = Tlb.empty) : pmmExtendIdentity k 0x8000000 =
      ({ k with mem := extendEntries sampleMemory 0x112000 63 }, 0) := by
  obtain ⟨pml4e, pdpte, pde, pdMask⟩ := sample_entries
  unfold pmmExtendIdentity
  rw [if_neg (by decide), mem, cr3]
  simp only [pml4e, pdpte, pdMask]
  rw [if_neg (by decide), if_neg (by decide), if_neg (by decide),
    show (if (0x8000000 : Nat) > pmmMaxPhys then pmmMaxPhys else 0x8000000) = 0x8000000 by decide,
    show (if (0x8000000 + pmm2mb - 1) / pmm2mb > 512 then 512
      else (0x8000000 + pmm2mb - 1) / pmm2mb) - 1 = 63 by decide, vmWriteCr3, ← cr3, ← tlb]

/-- The kernel that finds `sampleMemory` when it starts. -/
def sampleBoot : Kernel where
  mem := sampleMemory
  pmm := { bitmap := fun _ => 0, freeFrames := 0, hint := 0, mbInfo := 0, infoEnd := 0, maxEnd := 0 }
  kernelSpace := 0
  faults := 0
  inFault := false
  cr3 := 0x110000
  tlb := Tlb.empty

theorem sample_init : pmmInit sampleImage.bssEnd (vmInit sampleBoot) 0x9000 =
    .done (sampleKernel, 0) := by
  unfold sampleKernel
  have sized : (vmInit sampleBoot).mem.load 0x9000 4 = 56 := by decide
  have parsed : mb2Init (vmInit sampleBoot).mem 0x9000 mb2MaxRanges 0 = _ := sample_parse
  unfold pmmInit
  rw [if_neg (by decide), sample_ensure rfl rfl rfl (by decide) (by decide)]
  simp only [ne_eq, not_true_eq_false, if_false, sized]
  rw [if_neg (by decide), sample_ensure rfl rfl rfl (by decide) (by decide)]
  simp only [not_true_eq_false, if_false, parsed, Outcome.bind_done]
  rw [show rangesEnd [⟨0, 0x8000000⟩] = 0x8000000 by decide, sample_extend rfl rfl rfl]
  have root : 0x110000 &&& vmAddrMask = 0x110000 := by decide
  simp only [not_true_eq_false, if_false, sampleImage, sampleBoot, vmInit, root]

/-- The sample boots. -/
theorem sample_booted : Booted sampleImage 0x9000 sampleKernel :=
  ⟨sampleBoot, sampleMemory_tables, rfl, sample_init⟩

/-- In the sample every frame between the image and 128 MB is free. -/
theorem sample_free {frame : Nat} (above : 288 ≤ frame) (below : frame < 32768) :
    frame ∈ freeSet sampleKernel.pmm.bitmap := by
  unfold sampleKernel
  refine (mem_freeSet_pmmBitmapInit (by decide) (by decide) ?_).mpr
    ⟨⟨⟨0, 0x8000000⟩, by simp, ?_⟩, ?_⟩
  · intro range member
    rw [List.mem_singleton.mp member]
    decide
  · simp only [Offers, pmmFrameSize, pmmMaxPhys]
    omega
  · simp only [Reserved, pmmFrameSize, pmmLowReserved, not_or]
    omega

/-- In the sample the identity directory ends at 128 MB. -/
theorem sample_absent : entryAt sampleKernel.mem sampleImage.pd 64 = 0 := by
  have entry : entryAt sampleMemory sampleImage.pd 64 = 0 := @sampleMemory_tables.pd 64 (by decide)
  rw [show sampleImage.pd = 0x112000 from rfl] at entry ⊢
  unfold sampleKernel
  rw [extendEntries_above _ _ (by decide), entry]

end Sample

end GodOs
