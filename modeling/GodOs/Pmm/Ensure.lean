import GodOs.Lib.Transition
import GodOs.Pmm.Init

/-!
# The postcondition of `ensure_2mb_mapped`

The directory loop has no upper bound in its header: it ends when its address equals
the last region of the interval. For every directory that maps its regions to themselves
the loop meets the last region in time, refuses exactly the intervals that run into a
table of 4 KB pages, and fills in nothing but absent entries of the interval.
-/

namespace GodOs

open Lib

/-- The entry of the top table that covers the low 1 GB. -/
def firstPml4e (mem : Memory) (cr3 : Nat) : Nat := entryAt mem (cr3 &&& vmAddrMask) 0

/-- The entry of the second level that covers the low 1 GB. -/
def firstPdpte (mem : Memory) (cr3 : Nat) : Nat := entryAt mem (firstPml4e mem cr3 &&& vmAddrMask) 0

/-- The directory that the hardware reaches for the low 1 GB. The page-size bit is
reserved in the top level, and the present large pages map their own regions. -/
structure Directory (mem : Memory) (cr3 pd : Nat) : Prop where
  root : firstPml4e mem cr3 &&& vmPtePresent ≠ 0
  reserved : firstPml4e mem cr3 &&& vmPteHuge = 0
  upper : firstPdpte mem cr3 &&& vmPtePresent ≠ 0
  small : firstPdpte mem cr3 &&& vmPteHuge = 0
  place : firstPdpte mem cr3 &&& vmAddrMask = pd
  own : ∀ {i}, i < 512 → entryAt mem pd i &&& vmPtePresent ≠ 0 → entryAt mem pd i &&& vmPteHuge ≠ 0 →
    entryAt mem pd i &&& 0x000FFFFFFFE00000 = i <<< 21

/-- A directory entry that refers to a table of 4 KB pages. -/
def Split (entry : Nat) : Prop := entry &&& vmPtePresent ≠ 0 ∧ entry &&& vmPteHuge = 0

/-- A directory index covers a byte of the interval. -/
def Covers (addr len i : Nat) : Prop := ∃ va, addr ≤ va ∧ va < addr + len ∧ va / 2 ^ 21 = i

/-- A round of the directory loop that does not leave it, at the index it reads: from
memory and address at the head of the loop to those at its next head. -/
inductive EnsureRound (pd last : Nat) : Memory × Nat → Nat → Memory × Nat → Prop where
  | skip {mem : Memory} {a : Nat} (within : a >>> 21 < 512)
      (present : entryAt mem pd (a >>> 21) &&& vmPtePresent ≠ 0)
      (large : entryAt mem pd (a >>> 21) &&& vmPteHuge ≠ 0) (more : a ≠ last) :
      EnsureRound pd last (mem, a) (a >>> 21) (mem, a + pmm2mb)
  | fill {mem : Memory} {a : Nat} (within : a >>> 21 < 512)
      (absent : entryAt mem pd (a >>> 21) &&& vmPtePresent = 0) (more : a ≠ last) :
      EnsureRound pd last (mem, a) (a >>> 21)
        (mem.store (pd + 8 * (a >>> 21)) 8 (((a >>> 21) <<< 21) ||| pmmPteKernel), a + pmm2mb)

section Loop

variable {mem : Memory} {pd last a i : Nat} {head after : Memory × Nat}

/-- The rounds are those of the loop. -/
theorem EnsureRound.loop (round : EnsureRound pd last head i after) :
    ensureEntries head.1 pd last head.2 = ensureEntries after.1 pd last after.2 := by
  cases round with
  | skip within present large more =>
      rw [ensureEntries, dif_neg (by omega)]
      exact (if_pos present).trans ((if_neg large).trans (if_neg more))
  | fill within absent more =>
      rw [ensureEntries, dif_neg (by omega)]
      exact (if_neg (not_not.mpr absent)).trans (if_neg more)

/-- The address of the loop moves from region to region up to the last one. -/
structure Approaches (last a : Nat) : Prop where
  aligned : a % 2 ^ 21 = 0
  target : last % 2 ^ 21 = 0
  before : a ≤ last
  below : last < 2 ^ 30

theorem Approaches.next (approaches : Approaches last a) (more : a ≠ last) :
    Approaches last (a + pmm2mb) := by
  obtain ⟨aligned, target, before, below⟩ := approaches
  refine ⟨?_, target, ?_, below⟩ <;> simp only [pmm2mb] <;> omega

theorem Approaches.index_lt (approaches : Approaches last a) : a >>> 21 < 512 := by
  have before := approaches.before
  have below := approaches.below
  rw [Nat.shiftRight_eq_div_pow]
  omega

theorem EnsureRound.approaches (approaches : Approaches last head.2)
    (round : EnsureRound pd last head i after) : Approaches last after.2 := by
  cases round with
  | skip _ _ _ more => exact approaches.next more
  | fill _ _ more => exact approaches.next more

/-- What holds of the regions from an address on holds of its own and of the later ones. -/
theorem Approaches.regions (approaches : Approaches last a) {P : Nat → Prop} :
    (∀ i, a / 2 ^ 21 ≤ i → i ≤ last / 2 ^ 21 → P i) ↔
      P (a / 2 ^ 21) ∧ ∀ i, (a + pmm2mb) / 2 ^ 21 ≤ i → i ≤ last / 2 ^ 21 → P i := by
  have before := Nat.div_le_div_right (c := 2 ^ 21) approaches.before
  have step : (a + pmm2mb) / 2 ^ 21 = a / 2 ^ 21 + 1 := by simp only [pmm2mb]; omega
  rw [step]
  constructor
  · exact fun all => ⟨all _ (Nat.le_refl _) before, fun i lower => all i (by omega)⟩
  · rintro ⟨first, later⟩ i lower upper
    rcases Nat.eq_or_lt_of_le lower with rfl | above
    · exact first
    · exact later i above upper

/-- Filling one entry leaves the others alone. -/
theorem entryAt_fill {j : Nat} (other : i ≠ j) (value : Nat) :
    entryAt (mem.store (pd + 8 * j) 8 value) pd i = entryAt mem pd i :=
  Memory.load_store_disjoint (by omega)

/-- The loop succeeds exactly when none of its regions is split. -/
theorem ensureEntries_status (approaches : Approaches last a) :
    (ensureEntries mem pd last a).2 = 0 ↔
      ∀ i, a / 2 ^ 21 ≤ i → i ≤ last / 2 ^ 21 → ¬ Split (entryAt mem pd i) := by
  have region : ∀ a : Nat, a >>> 21 = a / 2 ^ 21 := fun a => Nat.shiftRight_eq_div_pow a 21
  fun_induction ensureEntries mem pd last a with
  | case1 mem a idx full => exact absurd approaches.index_lt (by omega)
  | case2 mem a idx inRange entry present small =>
      have idxEq : idx = a / 2 ^ 21 := region a
      have upper := Nat.div_le_div_right (c := 2 ^ 21) approaches.before
      constructor
      · exact fun failed => by cases failed
      · exact fun whole => absurd ⟨present, small⟩ (whole idx (by omega) (by omega))
  | case3 mem idx inRange entry present large =>
      have idxEq : idx = last / 2 ^ 21 := region last
      refine ⟨fun _ i lower upper split => ?_, fun _ => rfl⟩
      obtain rfl : i = idx := by omega
      exact large split.2
  | case4 mem a idx inRange entry present large more ih =>
      have idxEq : idx = a / 2 ^ 21 := region a
      have unsplit : ¬ Split (entryAt mem pd (a / 2 ^ 21)) := by
        rw [← idxEq]
        exact fun split => large split.2
      refine (ih (approaches.next more)).trans ?_
      rw [approaches.regions]
      exact ⟨fun later => ⟨unsplit, later⟩, And.right⟩
  | case5 mem idx inRange entry absent =>
      have idxEq : idx = last / 2 ^ 21 := region last
      refine ⟨fun _ i lower upper split => ?_, fun _ => rfl⟩
      obtain rfl : i = idx := by omega
      exact absent split.1
  | case6 mem a idx inRange entry absent written more ih =>
      have idxEq : idx = a / 2 ^ 21 := region a
      have unsplit : ¬ Split (entryAt mem pd (a / 2 ^ 21)) := by
        rw [← idxEq]
        exact fun split => absent split.1
      have step : (a + pmm2mb) / 2 ^ 21 = a / 2 ^ 21 + 1 := by simp only [pmm2mb]; omega
      have others : ∀ i, (a + pmm2mb) / 2 ^ 21 ≤ i → entryAt written pd i = entryAt mem pd i :=
        fun i lower => entryAt_fill (by omega) _
      refine (ih (approaches.next more)).trans ?_
      rw [approaches.regions]
      constructor
      · intro later
        refine ⟨unsplit, fun i lower upper => ?_⟩
        rw [← others i lower]
        exact later i lower upper
      · exact fun later i lower upper => by rw [others i lower]; exact later.2 i lower upper

/-- The loop leaves the entries outside its regions alone. -/
theorem ensureEntries_beyond (approaches : Approaches last a)
    (beyond : i < a / 2 ^ 21 ∨ last / 2 ^ 21 < i) :
    entryAt (ensureEntries mem pd last a).1 pd i = entryAt mem pd i := by
  have region : ∀ a : Nat, a >>> 21 = a / 2 ^ 21 := fun a => Nat.shiftRight_eq_div_pow a 21
  fun_induction ensureEntries mem pd last a with
  | case1 => rfl
  | case2 => rfl
  | case3 => rfl
  | case4 mem a idx inRange entry present large more ih =>
      exact ih (approaches.next more) (by simp only [pmm2mb]; omega)
  | case5 mem idx inRange entry absent =>
      have idxEq : idx = last / 2 ^ 21 := region last
      exact entryAt_fill (by omega) _
  | case6 mem a idx inRange entry absent written more ih =>
      have idxEq : idx = a / 2 ^ 21 := region a
      have upper := Nat.div_le_div_right (c := 2 ^ 21) approaches.before
      rw [ih (approaches.next more) (by simp only [pmm2mb]; omega)]
      exact entryAt_fill (by omega) _

end Loop

section Ensure

variable {mem mem' : Memory} {cr3 pd addr len : Nat} {k : Kernel}

/-- The indices that cover an interval are those from its first to its last region. -/
theorem covers_iff (nonempty : 0 < len) {i : Nat} :
    Covers addr len i ↔ addr / 2 ^ 21 ≤ i ∧ i ≤ (addr + len - 1) / 2 ^ 21 := by
  constructor
  · rintro ⟨va, lower, upper, rfl⟩
    exact ⟨Nat.div_le_div_right lower, Nat.div_le_div_right (by omega)⟩
  · rintro ⟨lower, upper⟩
    refine ⟨max addr (i * 2 ^ 21), ?_, ?_, ?_⟩ <;> omega

/-- Masking rounds an address below 1 GB down to its region. -/
theorem regionMask_eq {x : Nat} (below : x < 2 ^ 30) :
    x &&& 0xFFFFFFFFFFE00000 = x / 2 ^ 21 * 2 ^ 21 :=
  @Bits.align_down x 21 43 (by omega)

/-- The loop of a nonempty interval below 1 GB heads for its last region. -/
theorem approaches_interval (nonempty : 0 < len) (fits : addr + len ≤ 2 ^ 30) :
    Approaches ((addr + len - 1) &&& 0xFFFFFFFFFFE00000) (addr &&& 0xFFFFFFFFFFE00000) := by
  rw [regionMask_eq (show addr < 2 ^ 30 by omega), regionMask_eq (show addr + len - 1 < 2 ^ 30 by omega)]
  constructor <;> omega

/-- Filling a directory keeps the first entry of every table, if it is present. -/
theorem Filled.first_kept (filled : Filled pd mem mem') {table : Nat} (aligned : table % 4096 = 0)
    (aligned' : pd % 4096 = 0) (present : entryAt mem table 0 &&& vmPtePresent ≠ 0) :
    entryAt mem' table 0 = entryAt mem table 0 := by
  by_cases same : table = pd
  · subst same
    exact (filled.entries (by decide)).resolve_right fun ⟨absent, _⟩ => present absent
  · exact Memory.load_congr fun address lower upper => filled.outside (by omega)

/-- The large page that the loops write maps its own region. -/
theorem largeEntry_own {i : Nat} (small : i < 512) :
    largeEntry i &&& vmPteHuge ≠ 0 ∧ largeEntry i &&& 0x000FFFFFFFE00000 = i <<< 21 := by
  constructor
  · rw [Ne, huge_eq_zero, largeEntry]
    omega
  · rw [show 0x000FFFFFFFE00000 = (2 ^ 31 - 1) * 2 ^ 21 from rfl, Bits.and_field, largeEntry,
      Nat.shiftLeft_eq]
    omega

theorem Directory.aligned (directory : Directory mem cr3 pd) : pd % 4096 = 0 := by
  rw [← directory.place, addrMask_eq]
  omega

/-- Filling keeps the directory in place. -/
theorem Directory.filled (directory : Directory mem cr3 pd) (filled : Filled pd mem mem') :
    Directory mem' cr3 pd := by
  have aligned : ∀ entry : Nat, (entry &&& vmAddrMask) % 4096 = 0 := by
    intro entry
    rw [addrMask_eq]
    omega
  have root : firstPml4e mem' cr3 = firstPml4e mem cr3 :=
    filled.first_kept (aligned cr3) directory.aligned directory.root
  have upper : firstPdpte mem' cr3 = firstPdpte mem cr3 := by
    rw [firstPdpte, root]
    exact filled.first_kept (aligned _) directory.aligned directory.upper
  refine
    { root := by rw [root]; exact directory.root, reserved := by rw [root]; exact directory.reserved,
      upper := by rw [upper]; exact directory.upper, small := by rw [upper]; exact directory.small,
      place := by rw [upper]; exact directory.place, own := fun {i} small => ?_ }
  rcases filled.entries small with kept | ⟨_, large⟩
  · rw [kept]
    exact directory.own small
  · rw [large]
    exact fun _ _ => (largeEntry_own small).2

/-- An address below 1 GB with a present large page translates to itself. -/
theorem Directory.translate_low (directory : Directory mem cr3 pd) {va : Nat} (below : va < 2 ^ 30)
    (present : entryAt mem pd (va / 2 ^ 21) &&& vmPtePresent ≠ 0)
    (large : entryAt mem pd (va / 2 ^ 21) &&& vmPteHuge ≠ 0) : translate mem cr3 va = some va := by
  have root : pml4Index va = 0 := by rw [pml4Index_eq]; omega
  have second : pdptIndex va = 0 := by rw [pdptIndex_eq]; omega
  have third : pdIndex va = va / 2 ^ 21 := by rw [pdIndex_eq]; omega
  have canonical : Canonical va := .inl (by omega)
  have base := directory.own (show va / 2 ^ 21 < 512 by omega) present large
  unfold translate translatePage
  rw [if_neg (not_not.mpr canonical)]
  simp only [root, second, third]
  rw [← firstPml4e, ← firstPdpte, directory.place,
    if_neg (not_or.mpr ⟨directory.root, not_not.mpr directory.reserved⟩), if_neg directory.upper,
    if_neg (not_not.mpr directory.small), if_neg present, if_pos large, Option.map_some, base,
    Nat.shiftLeft_eq]
  exact congrArg some (Nat.div_add_mod' va (2 ^ 21))

/-- Inside its bounds `ensure_2mb_mapped` is its loop, followed by a flush after a success. -/
theorem Directory.ensure_eq (directory : Directory k.mem k.cr3 pd) (nonempty : 0 < len)
    (fits : addr + len ≤ 2 ^ 30) {status : Int}
    (walked : ensureEntries k.mem pd ((addr + len - 1) &&& 0xFFFFFFFFFFE00000)
      (addr &&& 0xFFFFFFFFFFE00000) = (mem', status)) :
    ensure2mbMapped k addr len = if status ≠ 0 then ({ k with mem := mem' }, status)
      else ({ k with mem := mem', tlb := Tlb.empty }, 0) := by
  have limit : pmmMaxPhys = 2 ^ 30 := rfl
  have root : k.mem.load (k.cr3 &&& vmAddrMask) 8 = firstPml4e k.mem k.cr3 := rfl
  have upper : k.mem.load (firstPml4e k.mem k.cr3 &&& vmAddrMask) 8 = firstPdpte k.mem k.cr3 := rfl
  unfold ensure2mbMapped
  rw [if_neg (by omega), if_neg (by omega)]
  simp only [root, upper, if_neg directory.root, if_neg directory.upper, directory.small,
    directory.place, walked, ne_eq, not_true_eq_false, if_false, vmWriteCr3]

/-- An interval that ends above 1 GB is refused. -/
theorem ensure2mbMapped_refused (beyond : ¬ addr + len ≤ 2 ^ 30) (nonempty : 0 < len) :
    ensure2mbMapped k addr len = (k, -1) := by
  have limit : pmmMaxPhys = 2 ^ 30 := rfl
  rw [ensure2mbMapped, if_neg (by omega), if_pos (by omega)]

/-- What `ensure_2mb_mapped` does to a directory: an interval without bytes does nothing,
one that ends above 1 GB is refused, and any other is left to the loop. -/
theorem Directory.ensure_cases (directory : Directory k.mem k.cr3 pd) (addr len : Nat) :
    len = 0 ∧ ensure2mbMapped k addr len = (k, 0) ∨
    0 < len ∧ ¬ addr + len ≤ 2 ^ 30 ∧ ensure2mbMapped k addr len = (k, -1) ∨
    0 < len ∧ addr + len ≤ 2 ^ 30 ∧ ∃ mem' status,
      ensureEntries k.mem pd ((addr + len - 1) &&& 0xFFFFFFFFFFE00000)
        (addr &&& 0xFFFFFFFFFFE00000) = (mem', status) ∧
      (ensure2mbMapped k addr len).2 = status ∧ (ensure2mbMapped k addr len).1.mem = mem' ∧
      (ensure2mbMapped k addr len).1.cr3 = k.cr3 ∧
      (status = 0 → (ensure2mbMapped k addr len).1.tlb = Tlb.empty) := by
  rcases Nat.eq_zero_or_pos len with empty | nonempty
  · exact .inl ⟨empty, if_pos empty⟩
  refine .inr ?_
  by_cases fits : addr + len ≤ 2 ^ 30
  · refine .inr ⟨nonempty, fits, _, _, Prod.mk.eta.symm, ?_⟩
    rw [directory.ensure_eq nonempty fits Prod.mk.eta.symm]
    split
    next failed => exact ⟨rfl, rfl, rfl, fun succeeded => absurd succeeded failed⟩
    next succeeded => exact ⟨(not_not.mp succeeded).symm, rfl, rfl, fun _ => rfl⟩
  · exact .inl ⟨nonempty, fits, ensure2mbMapped_refused fits nonempty⟩

/-- **`ensure_2mb_mapped` establishes its postcondition.** For every interval and every
directory that the hardware reaches for the low 1 GB: the loop reads no entry beyond
the directory; the call succeeds exactly when the interval is empty, or ends within 1 GB
and meets no table of 4 KB pages; after a success every byte of the interval
translates to itself, with the TLB flushed; and no present entry, no entry that does
not cover the interval and no byte outside the directory ever changes. -/
theorem ensure_maps_interval (directory : Directory k.mem k.cr3 pd) (addr len : Nat) :
    (0 < len → addr + len ≤ 2 ^ 30 → ∀ visited mem a,
      Steps (EnsureRound pd ((addr + len - 1) &&& 0xFFFFFFFFFFE00000))
        (k.mem, addr &&& 0xFFFFFFFFFFE00000) visited (mem, a) → a >>> 21 < 512) ∧
    ((ensure2mbMapped k addr len).2 = 0 ↔ len = 0 ∨
      addr + len ≤ 2 ^ 30 ∧ ∀ i, Covers addr len i → ¬ Split (entryAt k.mem pd i)) ∧
    ((ensure2mbMapped k addr len).2 = 0 → 0 < len →
      (ensure2mbMapped k addr len).1.tlb = Tlb.empty ∧ ∀ va ∈ Set.Ico addr (addr + len),
        translate (ensure2mbMapped k addr len).1.mem (ensure2mbMapped k addr len).1.cr3 va =
          some va) ∧
    (∀ i < 512, entryAt k.mem pd i &&& vmPtePresent ≠ 0 ∨ ¬ Covers addr len i →
      entryAt (ensure2mbMapped k addr len).1.mem pd i = entryAt k.mem pd i) ∧
    ∀ address, address < pd ∨ pd + 4096 ≤ address →
      (ensure2mbMapped k addr len).1.mem address = k.mem address := by
  refine ⟨fun nonempty fits visited mem a rounds => ?_, ?_⟩
  · have arrives := @Steps.invariant _ _ _ _ _ _ (fun head : Memory × Nat => Approaches _ head.2)
      (fun approaches round => round.approaches approaches) rounds
      (approaches_interval nonempty fits)
    exact arrives.index_lt
  rcases directory.ensure_cases addr len with
    ⟨empty, done⟩ | ⟨nonempty, beyond, refused⟩ | ⟨nonempty, fits, mem', status, walked, same⟩
  · rw [done]
    exact ⟨⟨fun _ => .inl empty, fun _ => rfl⟩, fun _ nonempty => absurd empty (by omega),
      fun _ _ _ => rfl, fun _ _ => rfl⟩
  · rw [refused]
    have fails : ((-1 : Int) = 0) → False := by decide
    refine ⟨⟨fun failed => (fails failed).elim, ?_⟩, fun failed => (fails failed).elim,
      fun _ _ _ => rfl, fun _ _ => rfl⟩
    rintro (empty | ⟨fits, _⟩)
    · omega
    · exact absurd fits beyond
  · obtain ⟨sameStatus, sameMem, sameCr3, flushed⟩ := same
    have approaches := approaches_interval nonempty fits
    have filled := ensureEntries_filled k.mem pd ((addr + len - 1) &&& 0xFFFFFFFFFFE00000)
      (addr &&& 0xFFFFFFFFFFE00000)
    have succeeds := @ensureEntries_status k.mem pd _ _ approaches
    have firstRegion : (addr &&& 0xFFFFFFFFFFE00000) / 2 ^ 21 = addr / 2 ^ 21 := by
      rw [regionMask_eq (by omega), Nat.mul_div_cancel _ (by decide)]
    have lastRegion : ((addr + len - 1) &&& 0xFFFFFFFFFFE00000) / 2 ^ 21 =
        (addr + len - 1) / 2 ^ 21 := by
      rw [regionMask_eq (by omega), Nat.mul_div_cancel _ (by decide)]
    have covers := fun {i} => @covers_iff addr len nonempty i
    rw [walked] at filled succeeds
    simp only [firstRegion, lastRegion] at succeeds
    rw [sameStatus, sameMem, sameCr3]
    refine ⟨?_, fun success _ => ⟨flushed success, fun va inside => ?_⟩, fun i small kept => ?_,
      fun address outside => filled.outside outside⟩
    · rw [succeeds]
      constructor
      · intro whole
        exact .inr ⟨fits, fun i cover => whole i (covers.mp cover).1 (covers.mp cover).2⟩
      · rintro (empty | ⟨_, whole⟩) i lower upper
        · omega
        · exact whole i (covers.mpr ⟨lower, upper⟩)
    · have cover : Covers addr len (va / 2 ^ 21) := ⟨va, inside.1, inside.2, rfl⟩
      have below : va < 2 ^ 30 := Nat.lt_of_lt_of_le inside.2 fits
      obtain ⟨lower, upper⟩ := covers.mp cover
      have present : entryAt mem' pd (va / 2 ^ 21) &&& vmPtePresent ≠ 0 := by
        rw [success] at walked
        exact ensureEntries_present walked (by omega) (by omega)
      refine (directory.filled filled).translate_low below present ?_
      rcases filled.entries (show va / 2 ^ 21 < 512 by omega) with kept | ⟨_, large⟩
      · have whole := succeeds.mp success _ lower upper
        rw [kept] at present ⊢
        exact fun small => whole ⟨present, small⟩
      · rw [large]
        exact (largeEntry_own (by omega)).1
    · rcases kept with present | beyond
      · exact (filled.entries small).resolve_right fun ⟨absent, _⟩ => present absent
      · have outside := @ensureEntries_beyond k.mem pd _ _ i approaches
          (by rw [firstRegion, lastRegion]; have := mt covers.mpr beyond; omega)
        rw [walked] at outside
        exact outside

/-- A memory with an empty directory at `0x3000`. -/
def lowTables : Memory :=
  Memory.store (Memory.store (fun _ => 0) 0x1000 8 0x2003) 0x2000 8 0x3003

/-- A kernel that runs on it. -/
def lowKernel : Kernel where
  mem := lowTables
  pmm := { bitmap := fun _ => 0, freeFrames := 0, hint := 0, mbInfo := 0, infoEnd := 0, maxEnd := 0 }
  kernelSpace := 0x1000
  faults := 0
  inFault := false
  cr3 := 0x1000
  tlb := Tlb.empty

theorem lowTables_absent {i : Nat} : entryAt lowTables 0x3000 i = 0 :=
  Memory.load_zero fun offset within => by
    rw [lowTables, Memory.store_outside (by omega), Memory.store_outside (by omega)]

theorem lowKernel_directory : Directory lowKernel.mem lowKernel.cr3 0x3000 where
  root := by decide
  reserved := by decide
  upper := by decide
  small := by decide
  place := by decide
  own := fun {i} _ present => absurd (show entryAt lowTables 0x3000 i &&& vmPtePresent = 0 by
    rw [lowTables_absent, Nat.zero_and]) present

/-- Two bytes on both sides of a 2 MB boundary. -/
theorem ensure_maps_interval_sample :
    translate (ensure2mbMapped lowKernel 0x1FFFFF 2).1.mem
      (ensure2mbMapped lowKernel 0x1FFFFF 2).1.cr3 0x200000 = some 0x200000 := by
  obtain ⟨_, succeeds, maps, _⟩ := ensure_maps_interval lowKernel_directory 0x1FFFFF 2
  have absent : ∀ i, Covers 0x1FFFFF 2 i → ¬ Split (entryAt lowKernel.mem 0x3000 i) := by
    rintro i _ ⟨present, _⟩
    rw [show lowKernel.mem = lowTables from rfl, lowTables_absent, Nat.zero_and] at present
    exact present rfl
  exact (maps (succeeds.mpr (.inr ⟨by decide, absent⟩)) (by decide)).2 _ ⟨by decide, by decide⟩

end Ensure

end GodOs
