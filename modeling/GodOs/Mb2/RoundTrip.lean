import GodOs.Lib.Bytes
import GodOs.Mb2.Parse

/-!
# The parser reads back what an encoder writes

`Mb2Tag` is a tag as a boot loader means it and `mb2Encode` lays a list of tags
out. The parser strides over entries inside a memory-map tag and over padded tags
inside the structure; each stride has one lemma, by induction on the list that it
follows.
-/

namespace GodOs

open Lib

/-- A memory-map entry of `entrySize` bytes: base, length, type, and bytes that
nobody interprets. -/
structure Mb2Entry (entrySize : Nat) where
  base : UInt64
  length : UInt64
  type : UInt32
  rest : List UInt8
  sized : 20 + rest.length = entrySize

/-- A tag. A memory map has entries of one size and fewer bytes than one more
entry behind them; any other tag has an uninterpreted payload. -/
inductive Mb2Tag where
  | mmap (entrySize version : UInt32) (wide : 24 ≤ entrySize.toNat)
      (entries : List (Mb2Entry entrySize.toNat)) (trailing : List UInt8)
      (short : trailing.length < entrySize.toNat)
  | other (type : UInt32) (proper : type.toNat ≠ mb2TagEnd ∧ type.toNat ≠ mb2TagMmap)
      (payload : List UInt8)

def Mb2Entry.bytes {entrySize : Nat} (entry : Mb2Entry entrySize) : List UInt8 :=
  wordBytes 8 entry.base.toNat ++ (wordBytes 8 entry.length.toNat ++
    (wordBytes 4 entry.type.toNat ++ entry.rest))

/-- The range that an entry makes usable. -/
def Mb2Entry.ranges {entrySize : Nat} (entry : Mb2Entry entrySize) : List Mb2Range :=
  if entry.type.toNat = mb2MmapTypeAvailable then [⟨entry.base.toNat, entry.length.toNat⟩] else []

def Mb2Tag.type : Mb2Tag → Nat
  | mmap .. => mb2TagMmap
  | other type .. => type.toNat

/-- What follows the type and the size of a tag. -/
def Mb2Tag.body : Mb2Tag → List UInt8
  | mmap entrySize version _ entries trailing _ =>
      wordBytes 4 entrySize.toNat ++ (wordBytes 4 version.toNat ++
        (entries.flatMap Mb2Entry.bytes ++ trailing))
  | other _ _ payload => payload

def Mb2Tag.ranges : Mb2Tag → List Mb2Range
  | mmap _ _ _ entries _ _ => entries.flatMap Mb2Entry.ranges
  | other .. => []

def Mb2Tag.size (tag : Mb2Tag) : Nat := 8 + tag.body.length

def Mb2Tag.bytes (tag : Mb2Tag) : List UInt8 :=
  wordBytes 4 tag.type ++ (wordBytes 4 tag.size ++ tag.body)

/-- A tag with the padding up to the next multiple of 8 bytes. -/
structure Mb2PaddedTag where
  tag : Mb2Tag
  padding : List UInt8
  short : padding.length < 8
  aligned : (tag.size + padding.length) % 8 = 0

def Mb2PaddedTag.bytes (padded : Mb2PaddedTag) : List UInt8 := padded.tag.bytes ++ padded.padding

/-- The tags one after the other, and the end tag. -/
def mb2EncodeTags (tags : List Mb2PaddedTag) : List UInt8 :=
  tags.flatMap Mb2PaddedTag.bytes ++ (wordBytes 4 mb2TagEnd ++ wordBytes 4 8)

/-- The whole structure: its size, a reserved word, and the tags. -/
def mb2Encode (reserved : UInt32) (tags : List Mb2PaddedTag) : List UInt8 :=
  wordBytes 4 (8 + (mb2EncodeTags tags).length) ++ (wordBytes 4 reserved.toNat ++ mb2EncodeTags tags)

/-- The usable ranges that the tags list, in order. -/
def mb2Usable (tags : List Mb2PaddedTag) : List Mb2Range := tags.flatMap fun padded => padded.tag.ranges

/-- A list of ranges, if an array of `maxRanges` holds it. -/
def withCapacity (maxRanges : Nat) (ranges : List Mb2Range) : Option (List Mb2Range) :=
  if ranges.length ≤ maxRanges then some ranges else none

section RoundTrip

variable {mem : Memory} {maxRanges : Nat} {ranges : List Mb2Range}

@[simp] theorem Mb2Entry.bytes_length {entrySize : Nat} (entry : Mb2Entry entrySize) :
    entry.bytes.length = entrySize := by
  have sized := entry.sized
  simp only [bytes, List.length_append, wordBytes_length]
  omega

@[simp] theorem Mb2Tag.bytes_length (tag : Mb2Tag) : tag.bytes.length = tag.size := by
  simp only [bytes, size, List.length_append, wordBytes_length]
  omega

theorem mb2Encode_length (reserved : UInt32) (tags : List Mb2PaddedTag) :
    (mb2Encode reserved tags).length = 8 + (mb2EncodeTags tags).length := by
  simp only [mb2Encode, List.length_append, wordBytes_length]
  omega

/-- Entries of one size fill a multiple of it. -/
theorem Mb2Entry.flatMap_length {entrySize : Nat} (entries : List (Mb2Entry entrySize)) :
    (entries.flatMap Mb2Entry.bytes).length = entries.length * entrySize := by
  induction entries with
  | nil => simp
  | cons entry entries ih =>
      rw [List.flatMap_cons, List.length_append, ih, bytes_length, List.length_cons, Nat.succ_mul,
        Nat.add_comm]

/-- What the parser reads of one entry. -/
theorem Mb2Entry.read {entrySize e : Nat} (entry : Mb2Entry entrySize)
    (holds : mem.Holds e entry.bytes) : mem.load e 8 = entry.base.toNat ∧
      mem.load (e + 8) 8 = entry.length.toNat ∧ mem.load (e + 16) 4 = entry.type.toNat := by
  simp only [bytes, Memory.holds_append, wordBytes_length, Nat.add_assoc] at holds
  obtain ⟨base, length, type, _⟩ := holds
  exact ⟨base.load_eq entry.base.toNat_lt, length.load_eq entry.length.toNat_lt,
    type.load_eq entry.type.toNat_lt⟩

/-- The entry loop appends the usable ranges of the entries it walks over, as long
as the array holds them. -/
theorem mb2Entries_encoded {entrySize p size i : Nat} (entries : List (Mb2Entry entrySize))
    (wide : 24 ≤ entrySize) (fits : p + size < 2 ^ 64)
    (inside : 16 + (i + entries.length) * entrySize ≤ size)
    (holds : mem.Holds (p + 16 + i * entrySize) (entries.flatMap Mb2Entry.bytes))
    (room : ranges.length ≤ maxRanges) :
    mb2Entries mem p size entrySize maxRanges entries.length i ranges =
      withCapacity maxRanges (ranges ++ entries.flatMap Mb2Entry.ranges) := by
  induction entries generalizing i ranges with
  | nil => simp [mb2Entries, withCapacity, room]
  | cons entry entries ih =>
      rw [List.flatMap_cons, Memory.holds_append, Mb2Entry.bytes_length] at holds
      obtain ⟨first, others⟩ := holds
      obtain ⟨base, length, type⟩ := entry.read first
      have stride : p + 16 + i * entrySize + entrySize = p + 16 + (i + 1) * entrySize := by ring
      have count : i + (entry :: entries).length = i + 1 + entries.length := by
        rw [List.length_cons]
        omega
      rw [count] at inside
      rw [stride] at others
      have next : (i + 1) * entrySize ≤ (i + 1 + entries.length) * entrySize :=
        Nat.mul_le_mul_right _ (by omega)
      rw [Nat.succ_mul] at next
      have place := u64_of_lt (show p + 16 + i * entrySize < 2 ^ 64 by omega)
      have lengthPlace := u64_of_lt (show p + 16 + i * entrySize + 8 < 2 ^ 64 by omega)
      have typePlace := u64_of_lt (show p + 16 + i * entrySize + 16 < 2 ^ 64 by omega)
      have entryEnd := u64_of_lt (show p + 16 + i * entrySize + 24 < 2 ^ 64 by omega)
      rw [List.length_cons, mb2Entries]
      simp only [place, lengthPlace, typePlace, entryEnd, u64_of_lt fits, type, base, length]
      rw [if_neg (by omega), List.flatMap_cons]
      by_cases available : entry.type.toNat = mb2MmapTypeAvailable
      · rw [if_neg (not_not.mpr available), Mb2Entry.ranges, if_pos available]
        by_cases full : ranges.length ≥ maxRanges
        · rw [if_pos full, withCapacity, if_neg]
          simp only [List.length_append, List.length_singleton]
          omega
        · rw [if_neg full, ih inside others (by simp; omega), List.append_assoc]
      · rw [if_pos available, Mb2Entry.ranges, if_neg available, List.nil_append]
        exact ih inside others room

theorem mb2AlignUp8_eq {x : Nat} (fits : x + 7 < 2 ^ 64) : mb2AlignUp8 x = (x + 7) / 8 * 8 := by
  have field := Bits.and_field (x + 7) 3 61
  rw [show (2 ^ 61 - 1) * 2 ^ 3 = 0xFFFFFFFFFFFFFFF8 from rfl] at field
  rw [mb2AlignUp8, u64_of_lt fits, field]
  omega

theorem Mb2Tag.type_lt (tag : Mb2Tag) : tag.type < 2 ^ 32 := by
  cases tag with
  | mmap => exact (by decide : mb2TagMmap < 2 ^ 32)
  | other type => exact type.toNat_lt

theorem Mb2Tag.type_ne_end (tag : Mb2Tag) : tag.type ≠ mb2TagEnd := by
  cases tag with
  | mmap => exact (by decide : mb2TagMmap ≠ mb2TagEnd)
  | other type proper => exact proper.1

/-- What the parser reads of the head of a tag. -/
theorem Mb2Tag.read {p : Nat} (tag : Mb2Tag) (small : tag.size < 2 ^ 32)
    (holds : mem.Holds p tag.bytes) :
    mem.load p 4 = tag.type ∧ mem.load (p + 4) 4 = tag.size ∧ mem.Holds (p + 8) tag.body := by
  simp only [bytes, Memory.holds_append, wordBytes_length, Nat.add_assoc] at holds
  obtain ⟨type, size, body⟩ := holds
  exact ⟨type.load_eq tag.type_lt, size.load_eq small, body⟩

/-- More ranges than fit do not fit with further ones. -/
theorem withCapacity_append_eq_none {more : List Mb2Range}
    (full : withCapacity maxRanges ranges = none) : withCapacity maxRanges (ranges ++ more) = none := by
  unfold withCapacity at full ⊢
  split at full
  · cases full
  · rw [if_neg]
    rw [List.length_append]
    omega

/-- One round of the tag loop appends the usable ranges of one tag and moves on to
the next multiple of 8. -/
theorem mb2Tags_step {p finish budget padding : Nat} (tag : Mb2Tag)
    (holds : mem.Holds p tag.bytes) (aligned : p % 8 = 0)
    (padded : (tag.size + padding) % 8 = 0) (short : padding < 8)
    (inside : p + tag.size + padding + 8 ≤ finish) (fits : finish < 2 ^ 64)
    (small : tag.size < 2 ^ 32) (room : ranges.length ≤ maxRanges) :
    mb2Tags mem finish maxRanges (budget + 1) p ranges =
      match withCapacity maxRanges (ranges ++ tag.ranges) with
      | none => .done none
      | some ranges => mb2Tags mem finish maxRanges budget (p + tag.size + padding) ranges := by
  obtain ⟨typeWord, sizeWord, body⟩ := tag.read small holds
  have sized : 8 ≤ tag.size := Nat.le_add_right _ _
  have sizePlace := u64_of_lt (show p + 4 < 2 ^ 64 by omega)
  have headEnd := u64_of_lt (show p + 8 < 2 ^ 64 by omega)
  have tagEnd := u64_of_lt (show p + tag.size < 2 ^ 64 by omega)
  have next : mb2AlignUp8 (p + tag.size) = p + tag.size + padding := by
    rw [mb2AlignUp8_eq (by omega)]
    omega
  rw [mb2Tags]
  simp only [sizePlace, headEnd, typeWord, sizeWord, tagEnd, next]
  rw [if_neg (by omega), if_neg tag.type_ne_end, if_neg (by omega)]
  cases tag with
  | mmap entrySize version wide entries trailing few =>
      simp only [Mb2Tag.body, Memory.holds_append, wordBytes_length] at body
      obtain ⟨entryWord, _, entryBytes, _⟩ := body
      have length : (Mb2Tag.mmap entrySize version wide entries trailing few).size =
          16 + (entries.length * entrySize.toNat + trailing.length) := by
        simp only [Mb2Tag.size, Mb2Tag.body, List.length_append, wordBytes_length,
          Mb2Entry.flatMap_length]
        omega
      have count : (16 + (entries.length * entrySize.toNat + trailing.length) - 16) /
          entrySize.toNat = entries.length := by
        rw [Nat.add_sub_cancel_left, Nat.add_comm, Nat.add_mul_div_right _ _ (by omega),
          Nat.div_eq_of_lt few, Nat.zero_add]
      have wide' : mem.load (p + 8) 4 = entrySize.toNat := entryWord.load_eq entrySize.toNat_lt
      have first : p + 8 + 4 + 4 = p + 16 + 0 * entrySize.toNat := by omega
      rw [first] at entryBytes
      rw [length] at inside ⊢
      have walked := mb2Entries_encoded entries wide
        (show p + (16 + (entries.length * entrySize.toNat + trailing.length)) < 2 ^ 64 by omega)
        (by rw [Nat.zero_add]; omega) entryBytes room
      rw [if_pos (show (Mb2Tag.mmap entrySize version wide entries trailing few).type = mb2TagMmap
        from rfl), if_neg (by omega), wide', if_neg (by omega), count, walked]
      rfl
  | other type proper payload =>
      have stays : withCapacity maxRanges
          (ranges ++ (Mb2Tag.other type proper payload).ranges) = some ranges := by
        rw [Mb2Tag.ranges, List.append_nil, withCapacity, if_pos room]
      rw [if_neg (show (Mb2Tag.other type proper payload).type ≠ mb2TagMmap from proper.2), stays]

/-- The tag loop appends the usable ranges of the tags it walks over. -/
theorem mb2Tags_encoded {p finish budget : Nat} (tags : List Mb2PaddedTag)
    (holds : mem.Holds p (mb2EncodeTags tags)) (aligned : p % 8 = 0)
    (place : finish = p + (mb2EncodeTags tags).length) (fits : finish < 2 ^ 64)
    (small : (mb2EncodeTags tags).length < 2 ^ 32) (enough : tags.length < budget)
    (room : ranges.length ≤ maxRanges) :
    mb2Tags mem finish maxRanges budget p ranges =
      .done (withCapacity maxRanges (ranges ++ mb2Usable tags)) := by
  obtain ⟨budget, rfl⟩ : ∃ fewer, budget = fewer + 1 := ⟨budget - 1, by omega⟩
  induction tags generalizing p budget ranges with
  | nil =>
      simp only [mb2EncodeTags, List.flatMap_nil, List.nil_append, Memory.holds_append] at holds
      simp only [mb2EncodeTags, List.flatMap_nil, List.nil_append, List.length_append,
        wordBytes_length] at place
      have type : mem.load p 4 = mb2TagEnd := holds.1.load_eq (by decide)
      rw [mb2Tags, u64_of_lt (by omega), if_neg (by omega), type]
      simp [mb2Usable, withCapacity, room]
  | cons padded tags ih =>
      have split : mb2EncodeTags (padded :: tags) =
          padded.tag.bytes ++ (padded.padding ++ mb2EncodeTags tags) := by
        simp only [mb2EncodeTags, List.flatMap_cons, Mb2PaddedTag.bytes, List.append_assoc]
      rw [split] at holds place small
      simp only [List.length_append, Mb2Tag.bytes_length] at place small
      simp only [Memory.holds_append, Mb2Tag.bytes_length] at holds
      obtain ⟨tag, _, others⟩ := holds
      have ends : 8 ≤ (mb2EncodeTags tags).length := by simp [mb2EncodeTags]
      have sized := padded.aligned
      have usable : mb2Usable (padded :: tags) = padded.tag.ranges ++ mb2Usable tags := rfl
      rw [mb2Tags_step padded.tag tag aligned padded.aligned padded.short (by omega) fits (by omega)
        room, usable, ← List.append_assoc]
      cases held : withCapacity maxRanges (ranges ++ padded.tag.ranges) with
      | none => rw [withCapacity_append_eq_none held]
      | some found =>
          unfold withCapacity at held
          split at held
          next room' =>
            cases held
            obtain ⟨budget, rfl⟩ : ∃ fewer, budget = fewer + 1 :=
              ⟨budget - 1, by rw [List.length_cons] at enough; omega⟩
            exact ih others (by omega) (by omega) (by omega) room' budget
              (by rw [List.length_cons] at enough; omega)
          next => cases held

/-- **Decoding undoes encoding.** On the image of any list of tags, at an 8-byte-aligned
address, `mb2_init` stores the end of the structure and returns the usable ranges
in order, or fails when there are more of them than the caller's array holds. -/
theorem mb2_decode_encode {infoAddr infoEnd : Nat} (reserved : UInt32) (tags : List Mb2PaddedTag)
    (holds : mem.Holds infoAddr (mb2Encode reserved tags)) (aligned : infoAddr % 8 = 0)
    (small : (mb2Encode reserved tags).length ≤ 0x100000)
    (fits : infoAddr + (mb2Encode reserved tags).length < 2 ^ 64) (array : 0 < maxRanges) :
    mb2Init mem infoAddr maxRanges infoEnd =
      .done (infoAddr + (mb2Encode reserved tags).length,
        if (mb2Usable tags).length ≤ maxRanges then some (mb2Usable tags) else none) := by
  have length := mb2Encode_length reserved tags
  have bounded : tags.length ≤ (mb2EncodeTags tags).length := by
    rw [mb2EncodeTags, List.length_append]
    have each := List.length_le_sum_of_one_le (tags.map fun padded => padded.bytes.length) (by
      intro length member
      obtain ⟨padded, _, rfl⟩ := List.mem_map.mp member
      simp only [Mb2PaddedTag.bytes, List.length_append, Mb2Tag.bytes_length, Mb2Tag.size]
      omega)
    rw [List.length_map] at each
    rw [List.length_flatMap]
    omega
  rw [mb2Encode, Memory.holds_append, Memory.holds_append] at holds
  obtain ⟨total, _, tagBytes⟩ := holds
  have totalSize : mem.load infoAddr 4 = 8 + (mb2EncodeTags tags).length :=
    total.load_eq (by omega)
  unfold mb2Init
  rw [if_neg (by omega)]
  simp only [totalSize]
  rw [if_neg (by omega), u64_of_lt (by omega), u64_of_lt (by omega)]
  simp only [wordBytes_length, Nat.add_assoc] at tagBytes
  rw [mb2Tags_encoded tags tagBytes (by omega) (by omega) (by omega) (by omega) (by omega)
    (Nat.zero_le _), Outcome.bind_done, length]
  rfl

/-- A boot loader name, and a memory map of 28-byte entries of which one is usable. -/
def sampleTags : List Mb2PaddedTag :=
  [⟨.other 2 (by decide) [0x47, 0x52, 0x55, 0x42, 0], [0, 0, 0], by decide, by decide⟩,
    ⟨.mmap 28 0 (by decide)
      [⟨0x100000, 0x7F00000, 1, [1, 2, 3, 4, 5, 6, 7, 8], by decide⟩,
        ⟨0xFFFC0000, 0x40000, 2, [0, 0, 0, 0, 0, 0, 0, 0], by decide⟩] [9] (by decide),
      [0xFF, 0xFF, 0xFF, 0xFF, 0xFF, 0xFF, 0xFF], by decide, by decide⟩]

/-- A memory that has the encoded tags at `0x9000`. -/
def sampleInfo : Memory := fun address => (mb2Encode 0 sampleTags).getD (address - 0x9000) 0

set_option maxRecDepth 4000 in
theorem mb2_decode_encode_sample :
    mb2Init sampleInfo 0x9000 mb2MaxRanges 0 = .done (0x9070, some [⟨0x100000, 0x7F00000⟩]) :=
  mb2_decode_encode 0 sampleTags (by decide) (by decide) (by decide) (by decide) (by decide)

end RoundTrip

end GodOs
