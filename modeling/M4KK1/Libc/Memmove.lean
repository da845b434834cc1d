import M4KK1.Lib.ByteMemory
import M4KK1.Lib.Word32
import Mathlib.Tactic.IntervalCases

/-!
# `musr_memmove`

Upwards or downwards: bytes until the destination is aligned, words, and the bytes left.
-/

namespace M4KK1.Libc

open Lib

/-- The variables of `musr_memmove`, and the memory. -/
structure Move where
  mem : ByteMemory
  d : Nat
  s : Nat
  count : Nat

/-- `*d++ = *s++; count--;` -/
def Move.byteUp (m : Move) : Move :=
  ⟨write8 m.mem m.d (m.mem m.s).toNat, add32 m.d 1, add32 m.s 1, m.count - 1⟩

/-- `*(uint32_t *)d = *(const uint32_t *)s; d += 4; s += 4; count -= 4;` -/
def Move.wordUp (m : Move) : Move :=
  ⟨write32 m.mem m.d (read32 m.mem m.s), add32 m.d 4, add32 m.s 4, m.count - 4⟩

/-- `*--d = *--s; count--;` -/
def Move.byteDown (m : Move) : Move :=
  let d := sub32 m.d 1
  let s := sub32 m.s 1
  ⟨write8 m.mem d (m.mem s).toNat, d, s, m.count - 1⟩

/-- `d -= 4; s -= 4; *(uint32_t *)d = *(const uint32_t *)s; count -= 4;` -/
def Move.wordDown (m : Move) : Move :=
  let d := sub32 m.d 4
  let s := sub32 m.s 4
  ⟨write32 m.mem d (read32 m.mem s), d, s, m.count - 4⟩

theorem Move.byteUp_count (m : Move) : m.byteUp.count = m.count - 1 := rfl

theorem Move.wordUp_count (m : Move) : m.wordUp.count = m.count - 4 := rfl

theorem Move.byteDown_count (m : Move) : m.byteDown.count = m.count - 1 := rfl

theorem Move.wordDown_count (m : Move) : m.wordDown.count = m.count - 4 := rfl

structure Loop where
  goes : Move → Bool
  step : Move → Move
  shrinks : ∀ m, goes m = true → (step m).count < m.count

/-- `while (goes) step;` -/
def Loop.run (loop : Loop) (m : Move) : Move :=
  if _goes : loop.goes m then loop.run (loop.step m) else m
termination_by m.count
decreasing_by exact loop.shrinks m _goes

def aligning (step : Move → Move) (shrinks : ∀ m, (step m).count = m.count - 1) : Loop where
  goes m := m.d % 4 ≠ 0 ∧ m.count > 0
  step := step
  shrinks m goes := by
    have := of_decide_eq_true goes
    have := shrinks m
    omega

def words (step : Move → Move) (shrinks : ∀ m, (step m).count = m.count - 4) : Loop where
  goes m := m.count ≥ 4
  step := step
  shrinks m goes := by
    have := of_decide_eq_true goes
    have := shrinks m
    omega

def bytes (step : Move → Move) (shrinks : ∀ m, (step m).count = m.count - 1) : Loop where
  goes m := m.count > 0
  step := step
  shrinks m goes := by
    have := of_decide_eq_true goes
    have := shrinks m
    omega

/-- The three loops of a direction. -/
def Move.all (m : Move) (byte word : Move → Move) (one : ∀ m, (byte m).count = m.count - 1)
    (four : ∀ m, (word m).count = m.count - 4) : Move :=
  (bytes byte one).run ((words word four).run ((aligning byte one).run m))

/-- `musr_memmove`: what it returns, and the memory behind it. -/
def musrMemmove (mem : ByteMemory) (dst src count : Nat) : Nat × ByteMemory :=
  if count = 0 ∨ dst = src then (dst, mem)
  else if dst ≤ src ∨ dst ≥ add32 src count then
    (dst, (Move.all ⟨mem, dst, src, count⟩ Move.byteUp Move.wordUp Move.byteUp_count
      Move.wordUp_count).mem)
  else
    (dst, (Move.all ⟨mem, add32 dst count, add32 src count, count⟩ Move.byteDown Move.wordDown
      Move.byteDown_count Move.wordDown_count).mem)

theorem Loop.run_keeps {loop : Loop} {Keeps : Move → Prop}
    (turn : ∀ m, Keeps m → loop.goes m = true → Keeps (loop.step m)) {m : Move} (start : Keeps m) :
    Keeps (loop.run m) ∧ loop.goes (loop.run m) = false := by
  fun_induction Loop.run loop m with
  | case1 m goes ih => exact ih (turn m start goes)
  | case2 m ends => exact ⟨start, Bool.eq_false_iff.mpr ends⟩

theorem Move.all_keeps {Keeps : Move → Prop} {byte word : Move → Move}
    (one : ∀ m, (byte m).count = m.count - 1) (four : ∀ m, (word m).count = m.count - 4)
    (byteKeeps : ∀ m, Keeps m → 1 ≤ m.count → Keeps (byte m))
    (wordKeeps : ∀ m, Keeps m → 4 ≤ m.count → Keeps (word m)) {m : Move} (start : Keeps m) :
    Keeps (m.all byte word one four) ∧ (m.all byte word one four).count = 0 := by
  have aligned := (aligning byte one).run_keeps
    (fun m keeps goes => byteKeeps m keeps (of_decide_eq_true goes).2) start
  have copied := (words word four).run_keeps
    (fun m keeps goes => wordKeeps m keeps (of_decide_eq_true goes)) aligned.1
  have last := (bytes byte one).run_keeps
    (fun m keeps goes => byteKeeps m keeps (of_decide_eq_true goes)) copied.1
  exact ⟨last.1, Nat.eq_zero_of_not_pos (of_decide_eq_false last.2)⟩

/-- The bytes from `lo` up to `hi` of the destination are those of the source. -/
def moved (mem : ByteMemory) (dst src lo hi : Nat) : ByteMemory := fun i =>
  if dst + lo ≤ i ∧ i < dst + hi then mem (src + (i - dst)) else mem i

/-- The memory after `n` bytes from `s` on have been copied to `d`. -/
def copied (mem : ByteMemory) (n d s : Nat) : ByteMemory := fun i =>
  if d ≤ i ∧ i < d + n then mem (s + (i - d)) else mem i

theorem write8_copied (mem : ByteMemory) (d s : Nat) :
    write8 mem d (mem s).toNat = copied mem 1 d s := by
  funext i
  unfold write8 copied
  by_cases here : i = d
  · subst here
    simp
  · rw [if_neg here, if_neg (by omega)]

theorem write32_copied (mem : ByteMemory) (d s : Nat) :
    write32 mem d (read32 mem s) = copied mem 4 d s := by
  funext i
  have first := (mem s).toNat_lt
  have second := (mem (s + 1)).toNat_lt
  have third := (mem (s + 2)).toNat_lt
  have fourth := (mem (s + 3)).toNat_lt
  unfold copied
  split
  next inside =>
    obtain ⟨place, small, rfl⟩ : ∃ place, place < 4 ∧ i = d + place := ⟨i - d, by omega, by omega⟩
    rw [Nat.add_sub_cancel_left]
    interval_cases place <;> apply UInt8.toNat_inj.mp <;> simp [write32, read32] <;> omega
  next outside => exact write32_other (by omega)

section

variable {mem : ByteMemory} {dst src whole n : Nat} {m m' : Move}

/-- The copy upwards has done the first bytes. -/
structure Up (mem : ByteMemory) (dst src whole : Nat) (m : Move) : Prop where
  count : m.count ≤ whole
  d : m.d = (dst + (whole - m.count)) % 4294967296
  s : m.s = (src + (whole - m.count)) % 4294967296
  mem_eq : m.mem = moved mem dst src 0 (whole - m.count)

/-- The copy downwards has done the last bytes. -/
structure Down (mem : ByteMemory) (dst src whole : Nat) (m : Move) : Prop where
  count : m.count ≤ whole
  d : m.d = (dst + m.count) % 4294967296
  s : m.s = (src + m.count) % 4294967296
  mem_eq : m.mem = moved mem dst src m.count whole

theorem Up.step (up : Up mem dst src whole m) (dstFits : dst + whole ≤ 4294967296)
    (srcFits : src + whole ≤ 4294967296) (apart : dst ≤ src ∨ src + whole ≤ dst) (some : 1 ≤ n)
    (fits : n ≤ m.count) :
    Up mem dst src whole ⟨copied m.mem n m.d m.s, add32 m.d n, add32 m.s n, m.count - n⟩ := by
  obtain ⟨count, d, s, mem_eq⟩ := up
  refine ⟨?_, ?_, ?_, ?_⟩
  · dsimp only
    omega
  · unfold add32
    dsimp only
    omega
  · unfold add32
    dsimp only
    omega
  · rw [Nat.mod_eq_of_lt (by omega)] at d s
    funext i
    simp only [copied, mem_eq, moved, d, s]
    -- What is read lies behind what has been written.
    grind

theorem Down.step (down : Down mem dst src whole m) (dstFits : dst + whole ≤ 4294967296)
    (srcFits : src + whole ≤ 4294967296) (behind : src < dst) (some : 1 ≤ n) (fits : n ≤ m.count) :
    Down mem dst src whole ⟨copied m.mem n (sub32 m.d n) (sub32 m.s n), sub32 m.d n, sub32 m.s n,
      m.count - n⟩ := by
  obtain ⟨count, d, s, mem_eq⟩ := down
  have dst' : sub32 m.d n = dst + (m.count - n) := by
    unfold sub32
    omega
  have src' : sub32 m.s n = src + (m.count - n) := by
    unfold sub32
    omega
  rw [dst', src']
  refine ⟨?_, (Nat.mod_eq_of_lt ?_).symm, (Nat.mod_eq_of_lt ?_).symm, ?_⟩
  · dsimp only
    omega
  · dsimp only
    omega
  · dsimp only
    omega
  · funext i
    simp only [copied, mem_eq, moved]
    -- What is read lies before what has been written.
    grind

end

/-- The destination ends up with what the source held, and the rest is left as it was. -/
theorem memmove_exact (mem : ByteMemory) {dst src count : Nat} (dstFits : dst + count ≤ 4294967296)
    (srcFits : src + count ≤ 4294967296) (i : Nat) :
    (musrMemmove mem dst src count).2 i =
      if dst ≤ i ∧ i < dst + count then mem (src + (i - dst)) else mem i := by
  unfold musrMemmove
  split
  next still =>
    split
    next inside =>
      rcases still with rfl | rfl
      · omega
      · rw [Nat.add_sub_cancel' inside.1]
    next => rfl
  next moves =>
    split
    next upwards =>
      have apart : dst ≤ src ∨ src + count ≤ dst := by
        unfold add32 at upwards
        omega
      have start : Up mem dst src count ⟨mem, dst, src, count⟩ := by
        refine ⟨Nat.le_refl _, ?_, ?_, ?_⟩
        · dsimp only
          omega
        · dsimp only
          omega
        · funext i
          simp only [moved]
          rw [if_neg (by omega)]
      have byteKeeps (m : Move) (up : Up mem dst src count m) (some : 1 ≤ m.count) :
          Up mem dst src count m.byteUp := by
        have next := up.step dstFits srcFits apart (Nat.le_refl 1) some
        rwa [← write8_copied] at next
      have wordKeeps (m : Move) (up : Up mem dst src count m) (some : 4 ≤ m.count) :
          Up mem dst src count m.wordUp := by
        have next := up.step dstFits srcFits apart (show 1 ≤ 4 by decide) some
        rwa [← write32_copied] at next
      obtain ⟨ends, none⟩ :=
        Move.all_keeps Move.byteUp_count Move.wordUp_count byteKeeps wordKeeps start
      rw [ends.mem_eq, none]
      rfl
    next downwards =>
      have behind : src < dst := by omega
      have start : Down mem dst src count ⟨mem, add32 dst count, add32 src count, count⟩ := by
        refine ⟨Nat.le_refl _, rfl, rfl, ?_⟩
        funext i
        simp only [moved]
        rw [if_neg (by omega)]
      have byteKeeps (m : Move) (down : Down mem dst src count m) (some : 1 ≤ m.count) :
          Down mem dst src count m.byteDown := by
        have next := down.step dstFits srcFits behind (Nat.le_refl 1) some
        rwa [← write8_copied] at next
      have wordKeeps (m : Move) (down : Down mem dst src count m) (some : 4 ≤ m.count) :
          Down mem dst src count m.wordDown := by
        have next := down.step dstFits srcFits behind (show 1 ≤ 4 by decide) some
        rwa [← write32_copied] at next
      obtain ⟨ends, none⟩ :=
        Move.all_keeps Move.byteDown_count Move.wordDown_count byteKeeps wordKeeps start
      rw [ends.mem_eq, none]
      rfl

/-- Nine bytes moved up by two. -/
theorem memmove_exact_overlapping :
    3 + 9 ≤ 4294967296 ∧ 1 + 9 ≤ 4294967296 ∧ (musrMemmove UInt8.ofNat 3 1 9).2 5 = 3 :=
  ⟨by decide, by decide,
    memmove_exact UInt8.ofNat (show 3 + 9 ≤ 4294967296 by decide) (by decide) 5⟩

end M4KK1.Libc
