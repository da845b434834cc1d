import Mathlib.Tactic.Ring

/-!
# A byte memory with 32-bit words

Little-endian words, and the loops of `memcpy` and `memset`, with side conditions for `omega`.
-/

namespace M4KK1.Lib

abbrev ByteMemory := Nat → UInt8

/-- The little-endian word at an address. -/
def read32 (mem : ByteMemory) (address : Nat) : Nat :=
  (mem address).toNat + 256 * (mem (address + 1)).toNat + 65536 * (mem (address + 2)).toNat +
    16777216 * (mem (address + 3)).toNat

def write8 (mem : ByteMemory) (address value : Nat) : ByteMemory :=
  fun i => if i = address then UInt8.ofNat value else mem i

/-- A word stored, cut to 32 bits. -/
def write32 (mem : ByteMemory) (address value : Nat) : ByteMemory := fun i =>
  if i = address then UInt8.ofNat value
  else if i = address + 1 then UInt8.ofNat (value / 256)
  else if i = address + 2 then UInt8.ofNat (value / 65536)
  else if i = address + 3 then UInt8.ofNat (value / 16777216)
  else mem i

/-- `count` bytes set to `value`, in order. -/
@[simp] def fillBytes (value : Nat) : Nat → ByteMemory → Nat → ByteMemory
  | 0, mem, _ => mem
  | count + 1, mem, dst => fillBytes value count (write8 mem dst value) (dst + 1)

/-- `count` bytes copied, in order. -/
@[simp] def copyBytes : Nat → ByteMemory → Nat → Nat → ByteMemory
  | 0, mem, _, _ => mem
  | count + 1, mem, dst, src =>
    copyBytes count (write8 mem dst (mem src).toNat) (dst + 1) (src + 1)

/-- Bytes stored one behind the other. -/
def placeBytes (mem : ByteMemory) (dst : Nat) (bytes : List UInt8) : ByteMemory :=
  fun i => if dst ≤ i ∧ i < dst + bytes.length then bytes.getD (i - dst) 0 else mem i

variable {mem mem' : ByteMemory} {address other value count i : Nat}

theorem write8_other (outside : i ≠ address) : write8 mem address value i = mem i :=
  if_neg outside

theorem write32_other (outside : i < address ∨ address + 4 ≤ i) :
    write32 mem address value i = mem i := by
  rw [write32, if_neg (by omega), if_neg (by omega), if_neg (by omega), if_neg (by omega)]

theorem read32_lt (mem : ByteMemory) (address : Nat) : read32 mem address < 4294967296 := by
  have first := (mem address).toNat_lt
  have second := (mem (address + 1)).toNat_lt
  have third := (mem (address + 2)).toNat_lt
  have fourth := (mem (address + 3)).toNat_lt
  rw [read32]
  omega

theorem read32_congr (same : ∀ i, address ≤ i → i < address + 4 → mem' i = mem i) :
    read32 mem' address = read32 mem address := by
  simp only [read32]
  rw [same address (by omega) (by omega), same (address + 1) (by omega) (by omega),
    same (address + 2) (by omega) (by omega), same (address + 3) (by omega) (by omega)]

theorem read32_write8 (outside : other < address ∨ address + 4 ≤ other) :
    read32 (write8 mem other value) address = read32 mem address := by
  apply read32_congr
  intro i low high
  exact write8_other (by omega)

theorem read32_write32_other (outside : other + 4 ≤ address ∨ address + 4 ≤ other) :
    read32 (write32 mem other value) address = read32 mem address := by
  apply read32_congr
  intro i low high
  exact write32_other (by omega)

/-- A word reads back as it was written. -/
theorem read32_write32_self (fits : value < 4294967296) :
    read32 (write32 mem address value) address = value := by
  have first : address + 1 ≠ address := by omega
  have second : address + 2 ≠ address ∧ address + 2 ≠ address + 1 := by omega
  have third : address + 3 ≠ address ∧ address + 3 ≠ address + 1 ∧ address + 3 ≠ address + 2 := by
    omega
  simp only [read32, write32, if_pos, if_neg first, if_neg second.1, if_neg second.2,
    if_neg third.1, if_neg third.2.1, if_neg third.2.2, UInt8.toNat_ofNat']
  omega

theorem fillBytes_other : ∀ {mem : ByteMemory} {dst : Nat},
    (i < dst ∨ dst + count ≤ i) → fillBytes value count mem dst i = mem i := by
  induction count with
  | zero => exact fun _ => rfl
  | succ count ih =>
    intro mem dst outside
    rw [fillBytes, ih (by omega), write8_other (by omega)]

theorem copyBytes_other : ∀ {mem : ByteMemory} {dst src : Nat},
    (i < dst ∨ dst + count ≤ i) → copyBytes count mem dst src i = mem i := by
  induction count with
  | zero => exact fun _ => rfl
  | succ count ih =>
    intro mem dst src outside
    rw [copyBytes, ih (by omega), write8_other (by omega)]

theorem fillBytes_self : ∀ {mem : ByteMemory} {dst i : Nat}, i < count →
    fillBytes value count mem dst (dst + i) = UInt8.ofNat value := by
  induction count with
  | zero => exact fun below => absurd below (Nat.not_lt_zero _)
  | succ count ih =>
    intro mem dst i below
    rw [fillBytes]
    cases i with
    | zero =>
      rw [fillBytes_other (by omega)]
      exact if_pos rfl
    | succ i =>
      have shift : dst + (i + 1) = dst + 1 + i := by omega
      rw [shift, ih (by omega)]

theorem copyBytes_self : ∀ {mem : ByteMemory} {dst src i : Nat},
    (dst + count ≤ src ∨ src + count ≤ dst) → i < count →
    copyBytes count mem dst src (dst + i) = mem (src + i) := by
  induction count with
  | zero => exact fun _ below => absurd below (Nat.not_lt_zero _)
  | succ count ih =>
    intro mem dst src i apart below
    rw [copyBytes]
    cases i with
    | zero =>
      rw [copyBytes_other (by omega)]
      simp [write8]
    | succ i =>
      have shift : dst + (i + 1) = dst + 1 + i := by omega
      have source : src + (i + 1) = src + 1 + i := by omega
      rw [shift, source, ih (by omega) (by omega), write8_other (by omega)]

theorem placeBytes_other {bytes : List UInt8} (outside : i < address ∨ address + bytes.length ≤ i) :
    placeBytes mem address bytes i = mem i :=
  if_neg (by omega)

/-- The number that `count` bytes from `start` on are the digits of, the lowest first. -/
@[simp] def numberAt (mem : ByteMemory) : Nat → Nat → Nat
  | 0, _ => 0
  | count + 1, start => (mem start).toNat + 256 * numberAt mem count (start + 1)

theorem numberAt_lt : ∀ {count start : Nat}, numberAt mem count start < 256 ^ count := by
  intro count
  induction count with
  | zero => exact fun {_} => Nat.one_pos
  | succ count ih =>
    intro start
    have digit := (mem start).toNat_lt
    have rest := @ih (start + 1)
    rw [numberAt, Nat.pow_succ]
    omega

theorem numberAt_congr (count : Nat) : ∀ {start : Nat},
    (∀ i, start ≤ i → mem' i = mem i) → numberAt mem' count start = numberAt mem count start := by
  induction count with
  | zero => exact fun _ => rfl
  | succ count ih =>
    intro start same
    rw [numberAt, numberAt, same start (Nat.le_refl _), ih fun i low => same i (by omega)]

theorem numberAt_add_four (mem : ByteMemory) (count start : Nat) :
    numberAt mem (count + 4) start = read32 mem start +
      4294967296 * numberAt mem count (start + 4) := by
  simp only [numberAt, read32, Nat.add_assoc, Nat.reduceAdd]
  omega

/-- A word written inside a number adds what it differs by, at its place. -/
theorem numberAt_write32 (fits : value < 4294967296) (shift : Nat) : ∀ {count start : Nat},
    shift + 4 ≤ count →
    numberAt (write32 mem (start + shift) value) count start +
      read32 mem (start + shift) * 256 ^ shift =
      numberAt mem count start + value * 256 ^ shift := by
  induction shift with
  | zero =>
    intro count start inside
    obtain ⟨rest, rfl⟩ : ∃ rest, count = rest + 4 := ⟨count - 4, by omega⟩
    have above : numberAt (write32 mem start value) rest (start + 4) =
        numberAt mem rest (start + 4) :=
      numberAt_congr rest fun i low => write32_other (by omega)
    rw [Nat.add_zero, numberAt_add_four, numberAt_add_four, above, read32_write32_self fits]
    omega
  | succ shift ih =>
    intro count start inside
    obtain ⟨rest, rfl⟩ : ∃ rest, count = rest + 1 := ⟨count - 1, by omega⟩
    have place : start + (shift + 1) = start + 1 + shift := by omega
    have digit : write32 mem (start + 1 + shift) value start = mem start := write32_other (by omega)
    have above := @ih rest (start + 1) (by omega)
    rw [numberAt, numberAt, place, digit, Nat.pow_succ]
    calc _ =
      (mem start).toNat + 256 * (numberAt (write32 mem (start + 1 + shift) value) rest (start + 1) +
          read32 mem (start + 1 + shift) * 256 ^ shift) := by ring
      _ = _ := by
        rw [above]
        ring

end M4KK1.Lib
