import Mathlib.Data.List.Basic

/-!
# A byte memory that logs its accesses

The loops return the accesses they made; addresses wrap at 32 bits.
-/

namespace M4KK1.Lib

/-- The contents of a 32-bit address space. -/
abbrev Memory := BitVec 32 → UInt8

inductive Access where
  | read (address : BitVec 32)
  | write (address : BitVec 32)
deriving DecidableEq

/-- The addresses of `count` bytes from `start` on. -/
def span (start : BitVec 32) (count : Nat) : List (BitVec 32) :=
  (List.range count).map fun k => start + BitVec.ofNat 32 k

/-- The little-endian word at an address. -/
def load16 (mem : Memory) (address : BitVec 32) : BitVec 16 :=
  (mem (address + 1#32)).toBitVec ++ (mem address).toBitVec

/-- The little-endian double word at an address. -/
def load32 (mem : Memory) (address : BitVec 32) : BitVec 32 :=
  load16 mem (address + 2#32) ++ load16 mem address

@[simp] def storeBytes (mem : Memory) (dst : BitVec 32) : List UInt8 → Memory
  | [] => mem
  | byte :: rest => storeBytes (Function.update mem dst byte) (dst + 1#32) rest

/-- `count` units of `width` bytes, each one loaded and then stored. -/
@[simp] def copyUnits (width : Nat) : Nat → Memory → BitVec 32 → BitVec 32 → Memory × List Access
  | 0, mem, _, _ => (mem, [])
  | count + 1, mem, dst, src =>
    let stored := storeBytes mem dst ((span src width).map mem)
    let (mem, log) :=
      copyUnits width count stored (dst + BitVec.ofNat 32 width) (src + BitVec.ofNat 32 width)
    (mem, (span src width).map .read ++ (span dst width).map .write ++ log)

/-- `count` units of `width` bytes, each one filled with a byte. -/
@[simp] def fillUnits (width : Nat) (byte : UInt8) : Nat → Memory → BitVec 32 → Memory × List Access
  | 0, mem, _ => (mem, [])
  | count + 1, mem, dst =>
    let stored := storeBytes mem dst (List.replicate width byte)
    let (mem, log) := fillUnits width byte count stored (dst + BitVec.ofNat 32 width)
    (mem, (span dst width).map .write ++ log)

variable {mem : Memory} {address start dst src : BitVec 32} {width count : Nat}

theorem mem_span : address ∈ span start count ↔
    ∃ k < count, address = start + BitVec.ofNat 32 k := by
  simp [span, eq_comm]

theorem mem_span_add {more : Nat} : address ∈ span start (count + more) ↔
    address ∈ span start count ∨ address ∈ span (start + BitVec.ofNat 32 count) more := by
  have shifted : ∀ k, start + BitVec.ofNat 32 count + BitVec.ofNat 32 k =
      start + BitVec.ofNat 32 (count + k) := by
    intro k
    rw [BitVec.ofNat_add, BitVec.add_assoc]
  simp only [mem_span, shifted]
  constructor
  · rintro ⟨k, below, rfl⟩
    rcases Nat.lt_or_ge k count with early | late
    · exact .inl ⟨k, early, rfl⟩
    · exact .inr ⟨k - count, by omega, by rw [Nat.add_sub_cancel' late]⟩
  · rintro (⟨k, below, rfl⟩ | ⟨k, below, rfl⟩)
    · exact ⟨k, by omega, rfl⟩
    · exact ⟨count + k, by omega, rfl⟩

theorem mem_span_succ_mul : address ∈ span start (width * (count + 1)) ↔
    address ∈ span start width ∨
      address ∈ span (start + BitVec.ofNat 32 width) (width * count) := by
  rw [Nat.mul_succ, Nat.add_comm, mem_span_add]

theorem storeBytes_other (bytes : List UInt8) (outside : address ∉ span dst bytes.length) :
    storeBytes mem dst bytes address = mem address := by
  induction bytes generalizing mem dst with
  | nil => rfl
  | cons byte rest ih =>
    rw [List.length_cons, Nat.add_comm, mem_span_add, not_or] at outside
    have apart : address ≠ dst := by
      rintro rfl
      exact outside.1 (mem_span.mpr ⟨0, Nat.one_pos, by simp⟩)
    rw [storeBytes, ih outside.2, Function.update_of_ne apart]

theorem storeBytes_same (bytes : List UInt8) (same : ∀ (k : Nat) (below : k < bytes.length),
    mem (dst + BitVec.ofNat 32 k) = bytes[k]) : storeBytes mem dst bytes = mem := by
  induction bytes generalizing dst with
  | nil => rfl
  | cons byte rest ih =>
    have first := same 0 (Nat.succ_pos _)
    rw [BitVec.add_zero, List.getElem_cons_zero] at first
    rw [storeBytes, ← first, Function.update_eq_self]
    refine ih fun k below => ?_
    have next := same (k + 1) (Nat.succ_lt_succ below)
    rwa [List.getElem_cons_succ, Nat.add_comm, BitVec.ofNat_add, ← BitVec.add_assoc] at next

section Copy

/-- Bytes that are already there are copied without a change. -/
theorem copyUnits_same : ∀ {dst src},
    (∀ k < width * count, mem (dst + BitVec.ofNat 32 k) = mem (src + BitVec.ofNat 32 k)) →
    (copyUnits width count mem dst src).1 = mem := by
  induction count with
  | zero => exact fun _ => rfl
  | succ count ih =>
    intro dst src same
    rw [Nat.mul_succ] at same
    have stored : storeBytes mem dst ((span src width).map mem) = mem := by
      refine storeBytes_same _ fun k below => ?_
      simp only [span, List.length_map, List.length_range] at below
      simpa [span] using same k (by omega)
    rw [copyUnits, stored]
    refine ih fun k below => ?_
    have later := same (width + k) (by omega)
    rwa [BitVec.ofNat_add, ← BitVec.add_assoc, ← BitVec.add_assoc] at later

theorem read_mem_copyUnits : ∀ {mem dst src},
    .read address ∈ (copyUnits width count mem dst src).2 ↔
    address ∈ span src (width * count) := by
  induction count with
  | zero => simp [copyUnits, span]
  | succ count ih =>
    intro mem dst src
    rw [copyUnits, mem_span_succ_mul]
    simp [ih]

theorem write_mem_copyUnits : ∀ {mem dst src},
    .write address ∈ (copyUnits width count mem dst src).2 ↔
    address ∈ span dst (width * count) := by
  induction count with
  | zero => simp [copyUnits, span]
  | succ count ih =>
    intro mem dst src
    rw [copyUnits, mem_span_succ_mul]
    simp [ih]

theorem copyUnits_other : ∀ {mem dst src}, address ∉ span dst (width * count) →
    (copyUnits width count mem dst src).1 address = mem address := by
  induction count with
  | zero => exact fun _ => rfl
  | succ count ih =>
    intro mem dst src outside
    rw [mem_span_succ_mul, not_or] at outside
    rw [copyUnits]
    dsimp only
    rw [ih outside.2]
    exact storeBytes_other _ (by simpa [span] using outside.1)

end Copy

section Fill

variable {byte : UInt8}

theorem fillUnits_same : ∀ {dst}, (∀ k < width * count, mem (dst + BitVec.ofNat 32 k) = byte) →
    (fillUnits width byte count mem dst).1 = mem := by
  induction count with
  | zero => exact fun _ => rfl
  | succ count ih =>
    intro dst same
    rw [Nat.mul_succ] at same
    have stored : storeBytes mem dst (List.replicate width byte) = mem := by
      refine storeBytes_same _ fun k below => ?_
      rw [List.length_replicate] at below
      rw [List.getElem_replicate]
      exact same k (by omega)
    rw [fillUnits, stored]
    refine ih fun k below => ?_
    have later := same (width + k) (by omega)
    rwa [BitVec.ofNat_add, ← BitVec.add_assoc] at later

theorem read_mem_fillUnits :
    ∀ {mem dst}, .read address ∉ (fillUnits width byte count mem dst).2 := by
  induction count with
  | zero => simp [fillUnits]
  | succ count ih =>
    intro mem dst
    simp [fillUnits, ih]

theorem write_mem_fillUnits : ∀ {mem dst},
    .write address ∈ (fillUnits width byte count mem dst).2 ↔
    address ∈ span dst (width * count) := by
  induction count with
  | zero => simp [fillUnits, span]
  | succ count ih =>
    intro mem dst
    rw [fillUnits, mem_span_succ_mul]
    simp [ih]

end Fill

end M4KK1.Lib
