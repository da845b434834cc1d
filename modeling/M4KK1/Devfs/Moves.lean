import M4KK1.Devfs.Rounds

/-!
# The bytes that a read and a write move

A file that names its part of the drive truly is the bytes of that part.
-/

namespace M4KK1.Devfs

open Lib Function DevfsFile

variable {σ : Type} {ata : SectorDriver σ} {sectors : Nat → Nat} {image : σ → Nat → ByteMemory}
  {f : DevfsFile} {n : Node} {offset wanted : Nat}

/-- A round moves at least a byte and stays within one sector. -/
theorem DevfsFile.chunk_bounds (below : offset < f.sizeBytes) (some_ : 0 < wanted) :
    0 < (f.at offset).chunk wanted ∧ (f.at offset).chunk wanted ≤ wanted ∧
      (f.at offset).chunk wanted ≤ f.sizeBytes - offset ∧
      (f.at offset).offInSec + (f.at offset).chunk wanted ≤ sectorSize := by
  have inSector : (f.at offset).offInSec < sectorSize := Nat.mod_lt _ (by decide)
  simp only [chunk, at_sizeBytes, at_offset]
  omega

theorem DevfsFile.Serves.advanced (serves : f.Serves n) {bytes : Nat}
    (within : bytes ≤ f.sizeBytes - offset) (below : offset ≤ f.sizeBytes) :
    (f.at offset).advance bytes = f.at (offset + bytes) := by
  have bounded := n.bounded
  have size := serves.size
  simp only [Node.size, Node.extent, sectorSize] at size
  rw [advance_eq, wrap64_eq (by omega)]

theorem writeRound_ofBytes {f : DevfsFile} {chunk : Nat}
    (inSector : f.offInSec + chunk ≤ sectorSize) (s : Nat → ByteMemory) (input : ByteMemory) :
    writeRound (.ofBytes sectorSize) s f chunk input = (update s f.drive
        (splice (s f.drive) (f.sector * sectorSize + f.offInSec) chunk input), true) := by
  rw [writeRound]
  split
  · next aligned =>
    have full : chunk = sectorSize := by omega
    have one : sectorSize / sectorSize = 1 := by decide
    rw [aligned.1, full, one]
    simp only [SectorDriver.ofBytes, Nat.one_mul, Nat.add_zero]
  · split
    · simp only [SectorDriver.ofBytes, Nat.one_mul, splice_modified inSector]
    · next part short =>
      have full : chunk = sectorSize := by omega
      rw [full] at part
      exact absurd ⟨by omega, by decide, by decide⟩ part

theorem address_in_sector (start offset i : Nat) :
    (start + offset / sectorSize) * sectorSize + (offset % sectorSize + i) =
      start * sectorSize + offset + i := by
  simp only [sectorSize]
  omega

theorem readLoop_moves (transfers : ata.Transfers sectorSize sectors image) (serves : f.Serves n)
    (drives : sectors n.drive = n.sectors) (count rounds : Nat) :
    ∀ (s : σ) (offset total : Nat) (out : ByteMemory), count - total ≤ rounds →
      total ≤ count → offset ≤ f.sizeBytes →
      ∃ next, readLoop ata count rounds s (f.at offset) total out =
          (next, f.at (offset + min (count - total) (f.sizeBytes - offset)),
            total + min (count - total) (f.sizeBytes - offset),
            splice out total (min (count - total) (f.sizeBytes - offset))
              fun i => image s n.drive (n.base + offset + i)) ∧
        image next = image s := by
  induction rounds with
  | zero =>
    intro s offset total out enough le below
    have none_ : min (count - total) (f.sizeBytes - offset) = 0 := by omega
    rw [none_, splice_zero]
    exact ⟨s, rfl, rfl⟩
  | succ rounds ih =>
    intro s offset total out enough le below
    -- what one command brings, the rest of the loop continues
    have continued : ∀ (bytes : Nat) (data : ByteMemory) (now : σ), 0 < bytes →
        bytes ≤ count - total → bytes ≤ f.sizeBytes - offset → image now = image s →
        (∀ i, i < bytes → data i = image s n.drive (n.base + offset + i)) →
        ∃ next, readLoop ata count rounds now ((f.at offset).advance bytes) (total + bytes)
            (splice out total bytes data) =
            (next, f.at (offset + min (count - total) (f.sizeBytes - offset)),
              total + min (count - total) (f.sizeBytes - offset),
              splice out total (min (count - total) (f.sizeBytes - offset))
                fun i => image s n.drive (n.base + offset + i)) ∧
          image next = image s := by
      intro bytes data now moved wanted left same brought
      obtain ⟨next, ended, kept⟩ := ih now (offset + bytes) (total + bytes)
        (splice out total bytes data) (by omega) (by omega) (by omega)
      have rest : bytes + min (count - (total + bytes)) (f.sizeBytes - (offset + bytes)) =
          min (count - total) (f.sizeBytes - offset) := by omega
      refine ⟨next, ?_, kept.trans same⟩
      rw [serves.advanced left below, ended, ← rest, Nat.add_assoc, Nat.add_assoc,
        splice_congr brought, ← splice_append, same]
      simp only [Nat.add_assoc]
    rw [readLoop]
    split
    · next going =>
      rw [at_offset, at_sizeBytes] at going
      obtain ⟨drive, sector, offInSec, inside⟩ := serves.located going.2
      rw [at_drive, drive]
      split
      · next aligned =>
        have whole : (f.at offset).batch (count - total) * sectorSize ≤ count - total :=
          (Nat.mul_le_mul_right _ (Nat.min_le_left ..)).trans (Nat.div_mul_le_self ..)
        have left : (f.at offset).batch (count - total) * sectorSize ≤ f.sizeBytes - offset :=
          (Nat.mul_le_mul_right _ (Nat.min_le_right ..)).trans (Nat.div_mul_le_self ..)
        obtain ⟨-, -, -, fits, -⟩ := serves.asks
          ⟨offset, going.2, rfl, .inr ⟨aligned.2.2, aligned.1, left⟩⟩
        obtain ⟨now, data, read, same, brought⟩ := transfers.read s n.drive (f.at offset).sector
          ((f.at offset).batch (count - total)) aligned.2.2 (by omega)
        rw [read]
        refine continued _ data now (Nat.mul_pos aligned.2.2 (by decide)) whole left same ?_
        intro i inBatch
        have start : offset % sectorSize = 0 := offInSec.symm.trans aligned.1
        have place := address_in_sector n.start offset i
        rw [start, Nat.zero_add] at place
        rw [brought i inBatch, sector, place, Node.base]
      · obtain ⟨-, -, -, fits, -⟩ := serves.asks ⟨offset, going.2, rfl, .inl rfl⟩
        obtain ⟨now, secbuf, read, same, brought⟩ := transfers.read s n.drive (f.at offset).sector 1
          Nat.one_pos (by omega)
        obtain ⟨some_, wanted, left, inSector⟩ := chunk_bounds (f := f) going.2
          (Nat.sub_pos_of_lt going.1)
        rw [read]
        refine continued _ _ now some_ wanted left same fun i inChunk => ?_
        rw [brought _ (by omega), sector, offInSec, address_in_sector, Node.base]
    · next past =>
      have none_ : min (count - total) (f.sizeBytes - offset) = 0 := by
        rw [at_offset, at_sizeBytes] at past
        omega
      rw [none_, splice_zero]
      exact ⟨s, rfl, rfl⟩

theorem writeRound_moves (transfers : ata.Transfers sectorSize sectors image) (serves : f.Serves n)
    (drives : sectors n.drive = n.sectors) (below : offset < f.sizeBytes) (some_ : 0 < wanted)
    (s : σ) (input : ByteMemory) :
    ∃ next, writeRound ata s (f.at offset) ((f.at offset).chunk wanted) input = (next, true) ∧
      image next = update (image s) n.drive
        (splice (image s n.drive) (n.base + offset) ((f.at offset).chunk wanted) input) := by
  obtain ⟨drive, sector, offInSec, inside⟩ := serves.located below
  obtain ⟨moved, -, left, inSector⟩ := chunk_bounds below some_
  obtain ⟨-, -, -, fits, -⟩ := serves.asks ⟨offset, below, rfl, .inl rfl⟩
  have place : n.base + offset = (f.at offset).sector * sectorSize + (f.at offset).offInSec := by
    rw [sector, offInSec]
    simp only [Node.base, sectorSize]
    omega
  rw [writeRound, at_drive, drive]
  split
  · next aligned =>
    have full : (f.at offset).chunk wanted = sectorSize := by omega
    obtain ⟨next, done, written⟩ := transfers.write s n.drive (f.at offset).sector 1 input
      Nat.one_pos (by omega)
    have one : sectorSize / sectorSize = 1 := by decide
    refine ⟨next, ?_, ?_⟩
    · rw [full, one, done]
    · rw [written, place, aligned.1, full, Nat.one_mul, Nat.add_zero]
  · next part =>
    have short : (f.at offset).offInSec ≠ 0 ∨ (f.at offset).chunk wanted < sectorSize := by
      have whole : sectorSize % sectorSize = 0 := by decide
      by_contra both
      have full : (f.at offset).chunk wanted = sectorSize := by omega
      rw [full, whole] at part
      have positive : sectorSize > 0 := by decide
      omega
    obtain ⟨now, secbuf, read, same, brought⟩ := transfers.read s n.drive (f.at offset).sector 1
      Nat.one_pos (by omega)
    obtain ⟨next, done, written⟩ := transfers.write now n.drive (f.at offset).sector 1
      (splice secbuf (f.at offset).offInSec ((f.at offset).chunk wanted) input) Nat.one_pos
        (by omega)
    rw [if_pos short, read]
    refine ⟨next, done, ?_⟩
    have sectorRead : ∀ i, i < 1 * sectorSize →
        splice secbuf (f.at offset).offInSec ((f.at offset).chunk wanted) input i =
          splice (fun i => image s n.drive ((f.at offset).sector * sectorSize + i))
            (f.at offset).offInSec ((f.at offset).chunk wanted) input i := by
      intro i within
      unfold splice
      split
      · rfl
      · exact brought i within
    rw [written, same, splice_congr sectorRead, Nat.one_mul, splice_modified inSector, place]

/-- The rounds of a write move what is wanted or what is left of the node. -/
theorem writeLoop_moves (transfers : ata.Transfers sectorSize sectors image) (serves : f.Serves n)
    (drives : sectors n.drive = n.sectors) (count : Nat) (input : ByteMemory) (rounds : Nat) :
    ∀ (s : σ) (offset total : Nat), count - total ≤ rounds → total ≤ count → offset ≤ f.sizeBytes →
      ∃ next, writeLoop ata count input rounds s (f.at offset) total =
          (next, f.at (offset + min (count - total) (f.sizeBytes - offset)),
            total + min (count - total) (f.sizeBytes - offset)) ∧
        image next = update (image s) n.drive
          (splice (image s n.drive) (n.base + offset) (min (count - total) (f.sizeBytes - offset))
            fun i => input (total + i)) := by
  induction rounds with
  | zero =>
    intro s offset total enough le below
    have none_ : min (count - total) (f.sizeBytes - offset) = 0 := by omega
    rw [none_, splice_zero, update_eq_self]
    exact ⟨s, rfl, rfl⟩
  | succ rounds ih =>
    intro s offset total enough le below
    simp only [writeLoop]
    split
    · next going =>
      rw [at_offset, at_sizeBytes] at going
      have some_ : 0 < count - total := Nat.sub_pos_of_lt going.1
      obtain ⟨moved, wanted, left, -⟩ := chunk_bounds going.2 some_
      obtain ⟨now, done, written⟩ := writeRound_moves transfers serves drives going.2 some_ s
        fun i => input (total + i)
      rw [done]
      obtain ⟨next, ended, kept⟩ := ih now (offset + (f.at offset).chunk (count - total))
        (total + (f.at offset).chunk (count - total)) (by omega) (by omega) (by omega)
      generalize (f.at offset).chunk (count - total) = chunk at *
      have rest : chunk + min (count - (total + chunk)) (f.sizeBytes - (offset + chunk)) =
          min (count - total) (f.sizeBytes - offset) := by omega
      refine ⟨next, ?_, ?_⟩
      · rw [serves.advanced left below]
        dsimp only
        rw [ended, ← rest, Nat.add_assoc, Nat.add_assoc]
      · rw [kept, written, update_idem, update_self, ← rest, ← splice_append]
        simp only [Nat.add_assoc]
    · next past =>
      have none_ : min (count - total) (f.sizeBytes - offset) = 0 := by
        rw [at_offset, at_sizeBytes] at past
        omega
      rw [none_, splice_zero, update_eq_self]
      exact ⟨s, rfl, rfl⟩

end M4KK1.Devfs
