import Mathlib.Data.UInt

/-!
# SHA-256

FIPS 180-4; `padWith` takes the number at the end of the padding as an argument.
-/

namespace M4KK1.Lib.Sha256

open List

/-- The eight words of a hash value, or the working variables `a` to `h`. -/
structure State where
  a : UInt32
  b : UInt32
  c : UInt32
  d : UInt32
  e : UInt32
  f : UInt32
  g : UInt32
  h : UInt32
deriving DecidableEq

def rotr (x n : UInt32) : UInt32 := (x >>> n) ||| (x <<< (32 - n))

def ch (x y z : UInt32) : UInt32 := (x &&& y) ^^^ (~~~x &&& z)

def maj (x y z : UInt32) : UInt32 := (x &&& y) ^^^ (x &&& z) ^^^ (y &&& z)

/-- `Σ₀` -/
def bigSigma0 (x : UInt32) : UInt32 := rotr x 2 ^^^ rotr x 13 ^^^ rotr x 22

/-- `Σ₁` -/
def bigSigma1 (x : UInt32) : UInt32 := rotr x 6 ^^^ rotr x 11 ^^^ rotr x 25

/-- `σ₀` -/
def smallSigma0 (x : UInt32) : UInt32 := rotr x 7 ^^^ rotr x 18 ^^^ (x >>> 3)

/-- `σ₁` -/
def smallSigma1 (x : UInt32) : UInt32 := rotr x 17 ^^^ rotr x 19 ^^^ (x >>> 10)

/-- `2^32` times the root of a prime, rounded down, found bit by bit, without the whole part. -/
def rootBits (root prime : Nat) : Nat :=
  (List.range 37).foldl (fun found i =>
    if (found + 2 ^ (36 - i)) ^ root ≤ prime * 2 ^ (32 * root) then found + 2 ^ (36 - i)
      else found) 0 %
      2 ^ 32

/-- The numbers that none from two up to their square root divides. -/
def primes (below : Nat) : List Nat :=
  (List.range below).filter fun n =>
    2 ≤ n ∧ ∀ d ∈ (List.range n).takeWhile fun d => d * d ≤ n, 2 ≤ d → n % d ≠ 0

/-- The constants of the rounds, from the first 64 primes. -/
def k : List UInt32 := (primes 312).map fun prime => UInt32.ofNat (rootBits 3 prime)

/-- `H⁽⁰⁾`, from the first eight primes. -/
def initial : State :=
  let h := (primes 20).map fun prime => UInt32.ofNat (rootBits 2 prime)
  ⟨h.getD 0 0, h.getD 1 0, h.getD 2 0, h.getD 3 0, h.getD 4 0, h.getD 5 0, h.getD 6 0, h.getD 7 0⟩

/-- The word at `4 * t`, the high byte first. -/
def wordAt (block : List UInt8) (t : Nat) : UInt32 :=
  (block.getD (4 * t) 0).toUInt32 <<< 24 ||| (block.getD (4 * t + 1) 0).toUInt32 <<< 16 |||
    (block.getD (4 * t + 2) 0).toUInt32 <<< 8 ||| (block.getD (4 * t + 3) 0).toUInt32

/-- The first `t` words of the message schedule. -/
def schedule (block : List UInt8) : Nat → List UInt32
  | 0 => []
  | t + 1 =>
    let w := schedule block t
    w ++ [if t < 16 then wordAt block t
      else smallSigma1 (w.getD (t - 2) 0) + w.getD (t - 7) 0 + smallSigma0 (w.getD (t - 15) 0) +
        w.getD (t - 16) 0]

def round (s : State) (k w : UInt32) : State :=
  let t₁ := s.h + bigSigma1 s.e + ch s.e s.f s.g + k + w
  let t₂ := bigSigma0 s.a + maj s.a s.b s.c
  ⟨t₁ + t₂, s.a, s.b, s.c, s.d + t₁, s.e, s.f, s.g⟩

/-- The words of two states, added. -/
def State.add (left right : State) : State :=
  ⟨left.a + right.a, left.b + right.b, left.c + right.c, left.d + right.d, left.e + right.e,
    left.f + right.f, left.g + right.g, left.h + right.h⟩

/-- The hash value after one more block. -/
def compress (s : State) (block : List UInt8) : State :=
  let w := schedule block 64
  s.add ((List.range 64).foldl (fun s t => round s (k.getD t 0) (w.getD t 0)) s)

/-- The hash value after the first `n` blocks of `bytes`. -/
def chain (s : State) : Nat → List UInt8 → State
  | 0, _ => s
  | n + 1, bytes => chain (compress s (bytes.take 64)) n (bytes.drop 64)

/-- The bytes of a word, the high one first. -/
def wordBytes (word : UInt32) : List UInt8 :=
  [(word >>> 24).toUInt8, (word >>> 16).toUInt8, (word >>> 8).toUInt8, word.toUInt8]

def digest (s : State) : List UInt8 :=
  [s.a, s.b, s.c, s.d, s.e, s.f, s.g, s.h].flatMap wordBytes

/-- A number in 64 bits, the high byte first. -/
def lengthField (bits : Nat) : List UInt8 :=
  (List.range 8).map fun i => UInt8.ofNat (bits / 2 ^ (56 - 8 * i))

/-- A message with a one bit, zero bits and a number behind it, as many as make whole blocks. -/
def padWith (m : List UInt8) (bits : Nat) : List UInt8 :=
  m ++ (0x80 :: List.replicate ((119 - m.length % 64) % 64) 0) ++ lengthField bits

/-- The hash value of a message that is padded with `bits` for its length. -/
def paddedState (m : List UInt8) (bits : Nat) : State :=
  chain initial ((padWith m bits).length / 64) (padWith m bits)

def sha256 (m : List UInt8) : List UInt8 := digest (paddedState m (8 * m.length))

variable {s s' : State} {m rest bytes : List UInt8} {blocks : List (List UInt8)} {bits n : Nat}

@[simp] theorem wordBytes_length (word : UInt32) : (wordBytes word).length = 4 := rfl

theorem wordBytes_inj {left right : UInt32} (same : wordBytes left = wordBytes right) :
    left = right := by
  have byte : ∀ word : UInt32, ∀ i, i < 4 → ((wordBytes word).getD i 0).toNat =
      word.toNat / 2 ^ (24 - 8 * i) % 256 := by
    intro word i below
    have cases : i = 0 ∨ i = 1 ∨ i = 2 ∨ i = 3 := by omega
    rcases cases with rfl | rfl | rfl | rfl <;>
      simp [wordBytes, UInt32.toNat_toUInt8, UInt32.toNat_shiftRight, Nat.shiftRight_eq_div_pow]
  have bytes : ∀ i, i < 4 → left.toNat / 2 ^ (24 - 8 * i) % 256 =
      right.toNat / 2 ^ (24 - 8 * i) % 256 := by
    intro i below
    rw [← byte left i below, ← byte right i below, same]
  have first := bytes 0 (by decide)
  have second := bytes 1 (by decide)
  have third := bytes 2 (by decide)
  have fourth := bytes 3 (by decide)
  have leftSmall := left.toNat_lt
  have rightSmall := right.toNat_lt
  apply UInt32.toNat_inj.mp
  simp only [Nat.reduceMul, Nat.reduceSub, Nat.reducePow, Nat.div_one] at *
  omega

/-- The digest determines the state. -/
theorem digest_inj (same : digest s = digest s') : s = s' := by
  simp only [digest, flatMap_cons, flatMap_nil, append_nil] at same
  have lengths : ∀ left right, (wordBytes left).length = (wordBytes right).length :=
    fun left right => (wordBytes_length left).trans (wordBytes_length right).symm
  obtain ⟨a, rest⟩ := append_inj same (lengths _ _)
  obtain ⟨b, rest⟩ := append_inj rest (lengths _ _)
  obtain ⟨c, rest⟩ := append_inj rest (lengths _ _)
  obtain ⟨d, rest⟩ := append_inj rest (lengths _ _)
  obtain ⟨e, rest⟩ := append_inj rest (lengths _ _)
  obtain ⟨f, rest⟩ := append_inj rest (lengths _ _)
  obtain ⟨g, h⟩ := append_inj rest (lengths _ _)
  cases s
  cases s'
  simp only [State.mk.injEq]
  exact ⟨wordBytes_inj a, wordBytes_inj b, wordBytes_inj c, wordBytes_inj d, wordBytes_inj e,
    wordBytes_inj f, wordBytes_inj g, wordBytes_inj h⟩

theorem chain_blocks (n : Nat) : ∀ {s : State}, (∀ block ∈ blocks, block.length = 64) →
    chain s (blocks.length + n) (blocks.flatten ++ rest) =
      chain (blocks.foldl compress s) n rest := by
  induction blocks with
  | nil =>
    intro s _
    rw [length_nil, Nat.zero_add]
    rfl
  | cons block blocks ih =>
    intro s whole
    have isBlock := whole block mem_cons_self
    rw [length_cons, Nat.add_right_comm, chain, flatten_cons, append_assoc,
      take_left' isBlock, drop_left' isBlock,
      ih fun other member => whole other (mem_cons_of_mem _ member)]
    rfl

theorem chain_succ : ∀ {s : State} {bytes : List UInt8},
    chain s (n + 1) bytes = compress (chain s n bytes) ((bytes.drop (64 * n)).take 64) := by
  induction n with
  | zero => exact rfl
  | succ n ih =>
    intro s bytes
    rw [chain, ih, chain, drop_drop, Nat.mul_succ, Nat.add_comm]

theorem chain_congr : ∀ {s : State} {bytes bytes' : List UInt8},
    bytes.take (64 * n) = bytes'.take (64 * n) → chain s n bytes = chain s n bytes' := by
  induction n with
  | zero => exact fun _ => rfl
  | succ n ih =>
    intro s bytes bytes' same
    have first : bytes.take 64 = bytes'.take 64 := by
      have both := congrArg (List.take 64) same
      rwa [take_take, take_take, Nat.min_eq_left (by omega)] at both
    have others : (bytes.drop 64).take (64 * n) = (bytes'.drop 64).take (64 * n) := by
      have both := congrArg (List.drop 64) same
      rwa [drop_take, drop_take, show 64 * (n + 1) - 64 = 64 * n by omega] at both
    rw [chain, chain, first, ih others]

@[simp] theorem lengthField_length (bits : Nat) : (lengthField bits).length = 8 := by
  rw [lengthField, length_map, length_range]

theorem padWith_length (m : List UInt8) (bits : Nat) :
    (padWith m bits).length = m.length + 9 + (119 - m.length % 64) % 64 := by
  rw [padWith, length_append, length_append, length_cons, length_replicate, lengthField_length]
  omega

theorem padWith_whole (m : List UInt8) (bits : Nat) : (padWith m bits).length % 64 = 0 := by
  rw [padWith_length]
  omega

theorem padWith_flatten (whole : ∀ block ∈ blocks, block.length = 64) (rest : List UInt8)
    (bits : Nat) : padWith (blocks.flatten ++ rest) bits = blocks.flatten ++ padWith rest bits ∧
      (padWith (blocks.flatten ++ rest) bits).length / 64 =
        blocks.length + (padWith rest bits).length / 64 := by
  have long : blocks.flatten.length = 64 * blocks.length := by
    induction blocks with
    | nil => rfl
    | cons block blocks ih =>
      rw [flatten_cons, length_append, whole block mem_cons_self,
        ih fun other member => whole other (mem_cons_of_mem _ member), length_cons]
      omega
  have same : (blocks.flatten ++ rest).length % 64 = rest.length % 64 := by
    rw [length_append, long]
    omega
  have split : padWith (blocks.flatten ++ rest) bits = blocks.flatten ++ padWith rest bits := by
    rw [padWith, padWith, same]
    simp only [append_assoc]
  refine ⟨split, ?_⟩
  rw [split, length_append, long]
  omega

theorem paddedState_blocks (whole : ∀ block ∈ blocks, block.length = 64) (rest : List UInt8)
    (bits : Nat) : paddedState (blocks.flatten ++ rest) bits =
      chain (blocks.foldl compress initial) ((padWith rest bits).length / 64)
        (padWith rest bits) := by
  obtain ⟨split, count⟩ := padWith_flatten whole rest bits
  rw [paddedState, count, split, chain_blocks _ whole]

/-- The hash value before the last block, which does not depend on the number at its end. -/
def beforeLast (m : List UInt8) : State :=
  chain initial ((padWith m 0).length / 64 - 1) (padWith m 0)

def lastBlock (m : List UInt8) (bits : Nat) : List UInt8 :=
  (padWith m bits).drop ((padWith m bits).length - 64)

/-- The padding of a message ends in one last block. -/
theorem paddedState_eq (m : List UInt8) (bits : Nat) :
    paddedState m bits = compress (beforeLast m) (lastBlock m bits) := by
  have long := padWith_length m bits
  have whole := padWith_whole m bits
  have sameLength : (padWith m 0).length = (padWith m bits).length := by
    rw [padWith_length, padWith_length]
  obtain ⟨n, isCount⟩ : ∃ n, (padWith m bits).length = 64 * n + 64 := by
    exact ⟨(padWith m bits).length / 64 - 1, by omega⟩
  have prior : chain initial n (padWith m bits) = chain initial n (padWith m 0) := by
    apply chain_congr
    have low : 64 * n ≤ (m ++ (0x80 :: List.replicate ((119 - m.length % 64) % 64) 0)).length := by
      rw [length_append, length_cons, length_replicate]
      omega
    rw [padWith, padWith, take_append_of_le_length low, take_append_of_le_length low]
  have last : ((padWith m bits).drop (64 * n)).take 64 = lastBlock m bits := by
    rw [lastBlock, isCount, Nat.add_sub_cancel, take_of_length_le]
    rw [length_drop, isCount]
    omega
  rw [paddedState, beforeLast, sameLength, show (padWith m bits).length / 64 = n + 1 by omega,
    chain_succ, last, prior, Nat.add_sub_cancel]

end M4KK1.Lib.Sha256
