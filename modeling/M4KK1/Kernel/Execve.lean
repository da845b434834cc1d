import Mathlib.Algebra.Ring.Nat
import M4KK1.Lib.LoggedMemory

/-!
# Loading an ELF image

In a flat address space the loader copies a segment to the address in its header (`Segment`).
-/

namespace M4KK1.Kernel

open Lib

/-- The fields of `mkrn_elf32_phdr_t` that the loader reads. -/
structure Phdr where
  type : BitVec 32
  offset : BitVec 32
  vaddr : BitVec 32
  filesz : BitVec 32
  memsz : BitVec 32
deriving DecidableEq

/-- The offsets of these fields in a program header. -/
def phdrFields : List Nat := [0, 4, 8, 16, 20]

def readPhdr (mem : Memory) (header : BitVec 32) : Phdr where
  type := load32 mem header
  offset := load32 mem (header + 4#32)
  vaddr := load32 mem (header + 8#32)
  filesz := load32 mem (header + 16#32)
  memsz := load32 mem (header + 20#32)

/-- The bytes of a program header that the loader reads. -/
def phdrSpan (header : BitVec 32) : List (BitVec 32) :=
  phdrFields.flatMap fun field => span (header + BitVec.ofNat 32 field) 4

def ptLoad : BitVec 32 := 1#32

/-- The guard's test on a segment. -/
def overlapsKernel (p : Phdr) : Bool :=
  p.memsz = 0#32 ∨ p.vaddr < 0x400000#32 ∨
    (p.vaddr ≥ 0x2000000#32 ∧ p.vaddr < 0x3000000#32) ∨ p.vaddr + p.memsz > 0x4000000#32

/-- `mkrn_memcpy`: double words first, then the bytes that remain. -/
def memcpy (mem : Memory) (dst src : BitVec 32) (n : Nat) : Memory × List Access :=
  let (mem, words) := copyUnits 4 (n / 4) mem dst src
  let done := BitVec.ofNat 32 (4 * (n / 4))
  let (mem, bytes) := copyUnits 1 (n % 4) mem (dst + done) (src + done)
  (mem, words ++ bytes)

/-- `mkrn_memset` with the byte 0. -/
def memzero (mem : Memory) (dst : BitVec 32) (n : Nat) : Memory × List Access :=
  let (mem, words) := fillUnits 4 0 (n / 4) mem dst
  let (mem, bytes) := fillUnits 1 0 (n % 4) mem (dst + BitVec.ofNat 32 (4 * (n / 4)))
  (mem, words ++ bytes)

/-- The copy of one segment. The header is read again afterwards. -/
def loadSegment (mem : Memory) (elf header : BitVec 32) : Memory × List Access :=
  let p := readPhdr mem header
  let (mem, copied) := memcpy mem p.vaddr (elf + p.offset) p.filesz.toNat
  let p := readPhdr mem header
  let (mem, zeroed) :=
    if p.memsz > p.filesz then memzero mem (p.vaddr + p.filesz) (p.memsz - p.filesz).toNat
    else (mem, [])
  (mem, (phdrSpan header).map .read ++ copied ++ zeroed)

/-- A segment that was copied: the memory before it, its header, and the accesses. -/
structure Segment where
  before : Memory
  header : BitVec 32
  accesses : List Access

/-- Where the loader looks for program header `i`. -/
def phdrAddress (mem : Memory) (elf : BitVec 32) (i : Nat) : BitVec 32 :=
  elf + load32 mem (elf + 28#32) + BitVec.ofNat 32 i * (load16 mem (elf + 42#32)).setWidth 32

/-- The loop over the program headers from `i` on; `false` is -1. The 16-bit `e_phnum` bounds it. -/
def loadSegments : Nat → Memory → BitVec 32 → Nat → Memory × List Segment × Bool
  | 0, mem, _, _ => (mem, [], true)
  | rounds + 1, mem, elf, i =>
    if i < (load16 mem (elf + 44#32)).toNat then
      let header := phdrAddress mem elf i
      let p := readPhdr mem header
      if p.type ≠ ptLoad then loadSegments rounds mem elf (i + 1)
      else if overlapsKernel p then (mem, [], false)
      else
        let (after, accesses) := loadSegment mem elf header
        let (final, rest, loaded) := loadSegments rounds after elf (i + 1)
        (final, ⟨mem, header, accesses⟩ :: rest, loaded)
    else (mem, [], true)

/-- The checks of the ELF header. -/
def validEhdr (mem : Memory) (elf : BitVec 32) (size : BitVec 32) : Bool :=
  size ≥ 52#32 && mem elf = 0x7F && mem (elf + 1#32) = 69 && mem (elf + 2#32) = 76 &&
    mem (elf + 3#32) = 70 && mem (elf + 4#32) = 1 && load16 mem (elf + 16#32) = 2#16 &&
    load16 mem (elf + 18#32) = 3#16 && load32 mem (elf + 28#32) ≠ 0#32 &&
    load16 mem (elf + 42#32) ≠ 0#16 && load16 mem (elf + 44#32) ≠ 0#16

/-- `mkrn_execve` on the image at `elf` up to the loop's end, with the segments it copied. -/
def execveLoad (mem : Memory) (elf size : BitVec 32) : Memory × List Segment × Bool :=
  if validEhdr mem elf size then loadSegments (2 ^ 16) mem elf 0 else (mem, [], false)

/-- The two windows that segments may be loaded into. -/
def userWindow (address : BitVec 32) : Prop :=
  0x400000 ≤ address.toNat ∧ address.toNat < 0x2000000 ∨
    0x3000000 ≤ address.toNat ∧ address.toNat < 0x4000000

/-- The address is in the staged file. -/
def inImage (elf size address : BitVec 32) : Prop :=
  elf.toNat ≤ address.toNat ∧ address.toNat < elf.toNat + size.toNat

/-- Every byte written is in a window, and every byte read is in the image. -/
def Contained (elf size : BitVec 32) (accesses : List Access) : Prop :=
  (∀ address, .write address ∈ accesses → userWindow address) ∧
    ∀ address, .read address ∈ accesses → inImage elf size address

/-- `count` bytes from `start` on lie in one window, without wrap-around. -/
def FitsWindow (start count : Nat) : Prop :=
  0x400000 ≤ start ∧ start + count ≤ 0x2000000 ∨ 0x3000000 ≤ start ∧ start + count ≤ 0x4000000

/-- The header's fields and the bytes to copy lie in the image, and the segment in one
window. -/
structure Fits (mem : Memory) (elf size header : BitVec 32) : Prop where
  fields : ∀ field ∈ phdrFields, (header - elf + BitVec.ofNat 32 field).toNat + 4 ≤ size.toNat
  source : (readPhdr mem header).filesz = 0#32 ∨
    (readPhdr mem header).offset.toNat + (readPhdr mem header).filesz.toNat ≤ size.toNat
  target : FitsWindow (readPhdr mem header).vaddr.toNat
    (max (readPhdr mem header).filesz.toNat (readPhdr mem header).memsz.toNat)

/-- The image does not wrap and lies below or above the windows. -/
def Staged (elf size : BitVec 32) : Prop :=
  elf.toNat + size.toNat ≤ 0x400000 ∨ 0x4000000 ≤ elf.toNat ∧ elf.toNat + size.toNat ≤ 2 ^ 32

section Copies

variable {mem : Memory} {address dst src : BitVec 32} {n : Nat}

theorem mem_span_units : address ∈ span dst n ↔ address ∈ span dst (4 * (n / 4)) ∨
    address ∈ span (dst + BitVec.ofNat 32 (4 * (n / 4))) (1 * (n % 4)) := by
  rw [← mem_span_add, Nat.one_mul, Nat.div_add_mod]

theorem read_mem_memcpy : .read address ∈ (memcpy mem dst src n).2 ↔ address ∈ span src n := by
  simp only [memcpy, List.mem_append, read_mem_copyUnits]
  exact mem_span_units.symm

theorem write_mem_memcpy : .write address ∈ (memcpy mem dst src n).2 ↔ address ∈ span dst n := by
  simp only [memcpy, List.mem_append, write_mem_copyUnits]
  exact mem_span_units.symm

theorem memcpy_other (outside : address ∉ span dst n) :
    (memcpy mem dst src n).1 address = mem address := by
  rw [mem_span_units, not_or] at outside
  simp only [memcpy]
  rw [copyUnits_other outside.2, copyUnits_other outside.1]

theorem read_mem_memzero : .read address ∉ (memzero mem dst n).2 := by
  simp [memzero, read_mem_fillUnits]

theorem write_mem_memzero : .write address ∈ (memzero mem dst n).2 ↔ address ∈ span dst n := by
  simp only [memzero, List.mem_append, write_mem_fillUnits]
  exact mem_span_units.symm

end Copies

section Spans

variable {elf size start : BitVec 32} {count : Nat}

theorem toNat_add_ofNat (k : Nat) :
    (start + BitVec.ofNat 32 k).toNat = (start.toNat + k) % 2 ^ 32 := by
  simp

theorem span_window_iff (positive : 0 < count) :
    (∀ address ∈ span start count, userWindow address) ↔ FitsWindow start.toNat count := by
  constructor
  · intro windowed
    have byte : ∀ k < count, userWindow (start + BitVec.ofNat 32 k) :=
      fun k below => windowed _ (mem_span.mpr ⟨k, below, rfl⟩)
    have first := byte 0 positive
    -- a run that leaves its window has a byte at the window's end
    have inLow := byte (0x2000000 - start.toNat)
    have inHigh := byte (0x4000000 - start.toNat)
    simp only [userWindow, toNat_add_ofNat] at first inLow inHigh
    have small := start.isLt
    unfold FitsWindow
    omega
  · intro fits address member
    obtain ⟨k, below, rfl⟩ := mem_span.mp member
    simp only [FitsWindow] at fits
    simp only [userWindow, toNat_add_ofNat]
    omega

theorem span_inImage_iff (positive : 0 < count) (noWrap : elf.toNat + size.toNat ≤ 2 ^ 32) :
    (∀ address ∈ span start count, inImage elf size address) ↔
      (start - elf).toNat + count ≤ size.toNat := by
  have small := start.isLt
  have sizeSmall := size.isLt
  have difference : (start - elf).toNat = (2 ^ 32 - elf.toNat + start.toNat) % 2 ^ 32 :=
    BitVec.toNat_sub _ _
  constructor
  · intro inside
    have byte : ∀ k < count, inImage elf size (start + BitVec.ofNat 32 k) :=
      fun k below => inside _ (mem_span.mpr ⟨k, below, rfl⟩)
    have first := byte 0 positive
    have last := byte (size.toNat - (start - elf).toNat)
    simp only [inImage, toNat_add_ofNat] at first last
    omega
  · intro fits address member
    obtain ⟨k, below, rfl⟩ := mem_span.mp member
    simp only [inImage, toNat_add_ofNat]
    omega

theorem Staged.outside {address : BitVec 32} (staged : Staged elf size)
    (inside : inImage elf size address) : ¬ userWindow address := by
  simp only [Staged, inImage, userWindow] at *
  omega

theorem Staged.noWrap (staged : Staged elf size) : elf.toNat + size.toNat ≤ 2 ^ 32 := by
  simp only [Staged] at staged
  omega

end Spans

section Header

variable {mem : Memory} {elf size header : BitVec 32}

theorem load32_congr {other : Memory} {address : BitVec 32}
    (same : ∀ byte ∈ span address 4, other byte = mem byte) :
    load32 other address = load32 mem address := by
  have byte : ∀ k < 4, other (address + BitVec.ofNat 32 k) = mem (address + BitVec.ofNat 32 k) :=
    fun k below => same _ (mem_span.mpr ⟨k, below, rfl⟩)
  have zero := byte 0 (by omega)
  have one := byte 1 (by omega)
  have two := byte 2 (by omega)
  have three := byte 3 (by omega)
  rw [BitVec.add_zero] at zero
  have next : address + 2#32 + 1#32 = address + 3#32 := by
    rw [BitVec.add_assoc]
    rfl
  simp only [load32, load16, next, zero, one, two, three]

theorem readPhdr_congr {other : Memory} (same : ∀ byte ∈ phdrSpan header, other byte = mem byte) :
    readPhdr other header = readPhdr mem header := by
  have field : ∀ f ∈ phdrFields, load32 other (header + BitVec.ofNat 32 f) =
      load32 mem (header + BitVec.ofNat 32 f) :=
    fun f member => load32_congr fun byte inField =>
      same byte (List.mem_flatMap.mpr ⟨f, member, inField⟩)
  have type := field 0 (by decide)
  rw [BitVec.add_zero] at type
  simp only [readPhdr, Phdr.mk.injEq]
  exact ⟨type, field 4 (by decide), field 8 (by decide), field 16 (by decide), field 20 (by decide)⟩

theorem phdrSpan_inImage_iff (noWrap : elf.toNat + size.toNat ≤ 2 ^ 32) :
    (∀ address ∈ phdrSpan header, inImage elf size address) ↔
      ∀ field ∈ phdrFields, (header - elf + BitVec.ofNat 32 field).toNat + 4 ≤ size.toNat := by
  have shifted : ∀ field, header + BitVec.ofNat 32 field - elf =
      header - elf + BitVec.ofNat 32 field := by
    intro field
    rw [BitVec.sub_eq_add_neg, BitVec.sub_eq_add_neg, BitVec.add_assoc, BitVec.add_assoc,
      BitVec.add_comm (-elf)]
  simp only [phdrSpan, List.mem_flatMap, ← shifted]
  constructor
  · intro inside field member
    exact (span_inImage_iff (by omega) noWrap).mp fun address inField =>
      inside address ⟨field, member, inField⟩
  · rintro fits address ⟨field, member, inField⟩
    exact (span_inImage_iff (by omega) noWrap).mpr (fits field member) address inField

end Header

section Load

variable {mem : Memory} {elf size header : BitVec 32}

theorem readPhdr_memcpy (staged : Staged elf size) {dst src : BitVec 32} {n : Nat}
    (inside : ∀ address ∈ phdrSpan header, inImage elf size address)
    (windowed : ∀ address ∈ span dst n, userWindow address) :
    readPhdr (memcpy mem dst src n).1 header = readPhdr mem header := by
  apply readPhdr_congr
  intro byte inHeader
  apply memcpy_other
  intro written
  exact staged.outside (inside byte inHeader) (windowed byte written)

theorem read_mem_loadSegment {address : BitVec 32} :
    .read address ∈ (loadSegment mem elf header).2 ↔ address ∈ phdrSpan header ∨
      address ∈ span (elf + (readPhdr mem header).offset) (readPhdr mem header).filesz.toNat := by
  simp only [loadSegment]
  split <;> simp [read_mem_memcpy, read_mem_memzero]

theorem write_mem_loadSegment {address : BitVec 32}
    (same : readPhdr (memcpy mem (readPhdr mem header).vaddr (elf + (readPhdr mem header).offset)
      (readPhdr mem header).filesz.toNat).1 header = readPhdr mem header) :
    .write address ∈ (loadSegment mem elf header).2 ↔ address ∈ span (readPhdr mem header).vaddr
      (max (readPhdr mem header).filesz.toNat (readPhdr mem header).memsz.toNat) := by
  simp only [loadSegment, same]
  generalize readPhdr mem header = p
  split
  case isTrue larger =>
    have less : p.filesz.toNat < p.memsz.toNat := larger
    have rest : (p.memsz - p.filesz).toNat = p.memsz.toNat - p.filesz.toNat :=
      BitVec.toNat_sub_of_le (BitVec.le_of_lt larger)
    have whole : max p.filesz.toNat p.memsz.toNat =
        p.filesz.toNat + (p.memsz.toNat - p.filesz.toNat) := by omega
    rw [whole, mem_span_add]
    simp [write_mem_memcpy, write_mem_memzero, rest]
  case isFalse atMost =>
    have fewer : p.memsz.toNat ≤ p.filesz.toNat := by
      simpa [BitVec.lt_def] using atMost
    simp [write_mem_memcpy, Nat.max_eq_left fewer]

theorem loadSegment_contained_iff (staged : Staged elf size)
    (positive : (readPhdr mem header).memsz ≠ 0#32) :
    Contained elf size (loadSegment mem elf header).2 ↔ Fits mem elf size header := by
  set p := readPhdr mem header with isHeader
  have nonzero : 0 < max p.filesz.toNat p.memsz.toNat := by
    have := BitVec.toNat_ne_iff_ne.mpr positive
    simp only [BitVec.toNat_ofNat] at this
    omega
  have offsetBack : elf + p.offset - elf = p.offset := by
    rw [BitVec.add_comm, BitVec.add_sub_cancel]
  constructor
  · rintro ⟨written, loaded⟩
    have headerInside : ∀ address ∈ phdrSpan header, inImage elf size address :=
      fun address member => loaded address (read_mem_loadSegment.mpr (.inl member))
    have copied : ∀ address ∈ span p.vaddr p.filesz.toNat, userWindow address := by
      intro address member
      apply written
      simp only [loadSegment, List.mem_append]
      exact .inl (.inr (write_mem_memcpy.mpr member))
    have same : readPhdr (memcpy mem p.vaddr (elf + p.offset) p.filesz.toNat).1 header = p :=
      readPhdr_memcpy staged headerInside copied
    refine ⟨(phdrSpan_inImage_iff staged.noWrap).mp headerInside, ?_, ?_⟩
    · rcases Nat.eq_zero_or_pos p.filesz.toNat with empty | some
      · exact .inl (BitVec.eq_of_toNat_eq empty)
      · have ends := (span_inImage_iff some staged.noWrap).mp fun address member =>
          loaded address (read_mem_loadSegment.mpr (.inr member))
        rw [← isHeader, offsetBack] at ends
        exact .inr ends
    · exact (span_window_iff nonzero).mp fun address member =>
        written address ((write_mem_loadSegment same).mpr member)
  · intro fits
    have headerInside := (phdrSpan_inImage_iff staged.noWrap).mpr fits.fields
    have windowed := (span_window_iff nonzero).mpr fits.target
    have same : readPhdr (memcpy mem p.vaddr (elf + p.offset) p.filesz.toNat).1 header = p := by
      apply readPhdr_memcpy staged headerInside
      intro address member
      obtain ⟨k, below, rfl⟩ := mem_span.mp member
      exact windowed _ (mem_span.mpr ⟨k, by omega, rfl⟩)
    refine ⟨fun address member => windowed address ((write_mem_loadSegment same).mp member), ?_⟩
    intro address member
    rcases read_mem_loadSegment.mp member with inHeader | inSource
    · exact headerInside address inHeader
    · rcases fits.source with empty | ends
      · rw [empty] at inSource
        simp [span] at inSource
      · obtain ⟨k, below, -⟩ := mem_span.mp inSource
        refine (span_inImage_iff (by omega) staged.noWrap).mpr ?_ address inSource
        rw [← isHeader, offsetBack]
        exact ends

theorem mem_loadSegments {rounds i : Nat} {seg : Segment}
    (copied : seg ∈ (loadSegments rounds mem elf i).2.1) :
    overlapsKernel (readPhdr seg.before seg.header) = false ∧
      seg.accesses = (loadSegment seg.before elf seg.header).2 := by
  induction rounds generalizing mem i with
  | zero => simp [loadSegments] at copied
  | succ rounds ih =>
    rw [loadSegments] at copied
    split at copied
    case isFalse => simp at copied
    dsimp only at copied
    split at copied
    case isTrue => exact ih copied
    split at copied
    case isTrue => simp at copied
    case isFalse guarded =>
      rcases List.mem_cons.mp copied with rfl | later
      · exact ⟨by simpa using guarded, rfl⟩
      · exact ih later

/-- A segment that is copied stays in the windows and the image exactly when its header fits. -/
theorem segment_contained_iff (mem : Memory) (elf size : BitVec 32) (staged : Staged elf size)
    (seg : Segment) (copied : seg ∈ (execveLoad mem elf size).2.1) :
    Contained elf size seg.accesses ↔ Fits seg.before elf size seg.header := by
  unfold execveLoad at copied
  split at copied
  case isFalse => simp at copied
  obtain ⟨guarded, isLoad⟩ := mem_loadSegments copied
  have positive : (readPhdr seg.before seg.header).memsz ≠ 0#32 := by
    intro empty
    simp [overlapsKernel, empty] at guarded
  rw [isLoad]
  exact loadSegment_contained_iff staged positive

/-- An ELF file with one program header, that loads its last 8 bytes to `vaddr`. -/
def oneSegment (vaddr memsz : List UInt8) : List UInt8 :=
  [0x7F, 69, 76, 70, 1, 1, 1, 0, 0, 0, 0, 0, 0, 0, 0, 0, 2, 0, 3, 0, 1, 0, 0, 0] ++
    vaddr ++ [52, 0, 0, 0, 0, 0, 0, 0, 0, 0, 0, 0, 52, 0, 32, 0, 1, 0, 0, 0, 0, 0, 0, 0] ++
    [1, 0, 0, 0, 84, 0, 0, 0] ++ vaddr ++ vaddr ++ [8, 0, 0, 0] ++ memsz ++
    [5, 0, 0, 0, 0, 16, 0, 0] ++ [0x90, 0x90, 0x90, 0x90, 0x90, 0x90, 0x90, 0xC3]

def stagedAt (elf : BitVec 32) (file : List UInt8) : Memory :=
  fun address => file.getD (address - elf).toNat 0

def linkedLow : Memory := stagedAt 0x4000000#32 (oneSegment [0, 0, 0x60, 0] [12, 0, 0, 0])

/-- A segment of twelve bytes linked at 0x600000. -/
theorem segment_contained_low : ∃ seg ∈ (execveLoad linkedLow 0x4000000#32 92#32).2.1,
    Contained 0x4000000#32 92#32 seg.accesses := by
  have member : ⟨linkedLow, 0x4000034#32, (loadSegment linkedLow 0x4000000#32 0x4000034#32).2⟩ ∈
      (execveLoad linkedLow 0x4000000#32 92#32).2.1 := List.mem_of_mem_head? rfl
  have staged : Staged 0x4000000#32 92#32 := .inr (by decide)
  refine ⟨_, member, (segment_contained_iff linkedLow _ _ staged _ member).mpr ?_⟩
  exact ⟨by decide, .inr (by decide), .inl (by decide)⟩

/-- A segment that starts below the ramdisk and ends in it passes the guard. -/
theorem segment_straddles : ¬ ∀ (mem : Memory) (elf size : BitVec 32), Staged elf size →
    ∀ seg ∈ (execveLoad mem elf size).2.1, Contained elf size seg.accesses := by
  intro contained
  have written : Access.write 0x2000000#32 ∈ (execveLoad
      (stagedAt 0x4000000#32 (oneSegment [0xFC, 0xFF, 0xFF, 1] [8, 0, 0, 0])) 0x4000000#32
      92#32).2.1.flatMap (·.accesses) := by
    decide
  obtain ⟨seg, copied, accessed⟩ := List.mem_flatMap.mp written
  have windowed := (contained _ _ _ (.inr (by decide)) seg copied).1 _ accessed
  simp [userWindow] at windowed

end Load

end M4KK1.Kernel
