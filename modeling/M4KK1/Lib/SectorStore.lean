import M4KK1.Lib.ByteMemory

/-!
# Stores read and written in sectors

A driver hands out whole sectors; `Transfers` is what its calls do, `logged` notes them.
-/

namespace M4KK1.Lib

/-- `memcpy(dst + at, src, count)`. -/
def splice (dst : ByteMemory) (start count : Nat) (src : ByteMemory) : ByteMemory :=
  fun i => if start ≤ i ∧ i < start + count then src (i - start) else dst i

section Splice

variable {dst src front : ByteMemory} {start count rest i : Nat}

theorem splice_other (outside : i < start ∨ start + count ≤ i) :
    splice dst start count src i = dst i :=
  if_neg (by omega)

theorem splice_self (below : i < count) : splice dst start count src (start + i) = src i := by
  rw [splice, if_pos (by omega), Nat.add_sub_cancel_left]

theorem splice_zero : splice dst start 0 src = dst := by
  funext i
  exact splice_other (by omega)

theorem splice_congr (same : ∀ i, i < count → src i = front i) :
    splice dst start count src = splice dst start count front := by
  funext i
  by_cases inside : start ≤ i ∧ i < start + count
  · rw [splice, splice, if_pos inside, if_pos inside, same _ (by omega)]
  · rw [splice, splice, if_neg inside, if_neg inside]

theorem splice_append :
    splice (splice dst start count src) (start + count) rest (fun i => src (count + i)) =
      splice dst start (count + rest) src := by
  funext i
  by_cases low : i < start + count
  · rw [splice_other (.inl low)]
    by_cases inside : start ≤ i
    · rw [splice, splice, if_pos ⟨inside, low⟩, if_pos ⟨inside, by omega⟩]
    · rw [splice_other (by omega), splice_other (by omega)]
  · by_cases inside : i < start + (count + rest)
    · have place : count + (i - (start + count)) = i - start := by omega
      rw [splice, if_pos (by omega), place, splice, if_pos (by omega)]
    · rw [splice_other (by omega), splice_other (by omega), splice_other (by omega)]

theorem splice_modified {unit shift : Nat} (inside : shift + count ≤ unit) :
    splice dst start unit (splice (fun i => dst (start + i)) shift count src) =
      splice dst (start + shift) count src := by
  funext i
  by_cases within : start ≤ i ∧ i < start + unit
  · rw [splice, if_pos within]
    by_cases middle : start + shift ≤ i ∧ i < start + shift + count
    · rw [splice, splice, if_pos (by omega), if_pos middle]
      exact congrArg src (by omega)
    · rw [splice_other (by omega), splice_other (by omega)]
      exact congrArg dst (by omega)
  · rw [splice_other (by omega), splice_other (by omega)]

end Splice

variable {σ : Type}

/-- The calls of a driver; `none` and `false` are failures, which may change the drive. -/
structure SectorDriver (σ : Type) where
  readSectors : σ → Nat → Nat → Nat → σ × Option ByteMemory
  writeSectors : σ → Nat → Nat → Nat → ByteMemory → σ × Bool

/-- A call to a driver. -/
structure Request where
  drive : Nat
  first : Nat
  count : Nat
  isWrite : Bool
deriving DecidableEq, Repr

namespace SectorDriver

/-- The driver, noting every call. -/
def logged (driver : SectorDriver σ) : SectorDriver (σ × List Request) where
  readSectors s drive first count :=
    let (next, data) := driver.readSectors s.1 drive first count
    ((next, s.2 ++ [⟨drive, first, count, false⟩]), data)
  writeSectors s drive first count data :=
    let (next, done) := driver.writeSectors s.1 drive first count data
    ((next, s.2 ++ [⟨drive, first, count, true⟩]), done)

/-- The driver moves the bytes it is asked to move, on the sectors that the drives have. -/
structure Transfers (driver : SectorDriver σ) (unit : Nat) (sectors : Nat → Nat)
    (image : σ → Nat → ByteMemory) : Prop where
  read : ∀ s drive first count, 0 < count → first + count ≤ sectors drive →
    ∃ next data, driver.readSectors s drive first count = (next, some data) ∧
      image next = image s ∧ ∀ i, i < count * unit → data i = image s drive (first * unit + i)
  write : ∀ s drive first count data, 0 < count → first + count ≤ sectors drive →
    ∃ next, driver.writeSectors s drive first count data = (next, true) ∧
      image next = Function.update (image s) drive
        (splice (image s drive) (first * unit) (count * unit) data)

def ofBytes (unit : Nat) : SectorDriver (Nat → ByteMemory) where
  readSectors s drive first _ := (s, some fun i => s drive (first * unit + i))
  writeSectors s drive first count data :=
    (Function.update s drive (splice (s drive) (first * unit) (count * unit) data), true)

/-- A store that is its bytes transfers them. -/
theorem ofBytes_transfers (unit : Nat) (sectors : Nat → Nat) :
    (ofBytes unit).Transfers unit sectors id where
  read s _ _ _ _ _ := ⟨s, _, rfl, rfl, fun _ _ => rfl⟩
  write _ _ _ _ _ _ _ := ⟨_, rfl, rfl⟩

end SectorDriver

end M4KK1.Lib
