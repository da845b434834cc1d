import M4KK1.Devfs.Moves

/-!
# A node's descriptor stays on the node's sectors

The record found under a descriptor's number should stand for the node's part of the drive.
-/

namespace M4KK1.Devfs

open Lib Yafs Function List DevfsFile
open Vfs (skipSlashes devfsParsePath writingFlags)

def State.node (st : State) (path : CString) : Option Node :=
  (devfsParsePath path).map fun (drive, part) =>
    match part with
    | none => ⟨drive, 0, st.sectors drive, st.sectors drive, getSectors_lt ..⟩
    | some part =>
      ⟨drive, (st.parts drive part).lbaStart, (st.parts drive part).lbaCount, st.sectors drive,
        getSectors_lt ..⟩

def requests {σ : Type} (ata : SectorDriver σ) (st : State) (s : σ) (call : Call) : List Request :=
  (call.run ata.logged st (s, [])).2.2

/-- The request stays on the node's part of its drive. -/
def Node.Admits (n : Node) (r : Request) : Prop :=
  r.drive = n.drive ∧ ∀ sector, r.first ≤ sector → sector < r.first + r.count → n.Covers sector

/-- The position of a descriptor. -/
def State.offset (st : State) (fd : Nat) : Option Nat := (st.file fd).map DevfsFile.offset

/-- A call touches sectors of the node only; with a driver that works, what was written is read
back. -/
structure Confined (st : State) (fd : Nat) (n : Node) : Prop where
  inside : ∀ {σ : Type} (ata : SectorDriver σ) (s : σ) (calls : List Call) (call : Call),
    call.fd = fd →
    ∀ r ∈ requests ata (runCalls ata st s calls).1 (runCalls ata st s calls).2 call, n.Admits r
  stores : ∀ {σ : Type} (ata : SectorDriver σ) (image : σ → Nat → ByteMemory),
    ata.Transfers sectorSize st.sectors image →
    ∀ (s : σ) (calls : List Call) (offset : Nat),
    (runCalls ata st s calls).1.offset fd = some offset →
    ∀ (input : ByteMemory) (count : UInt32),
    ∃ st' s', devfsWrite ata (runCalls ata st s calls).1 (runCalls ata st s calls).2 fd (some input)
        count = (st', s', signed32 (min count.toNat (n.size - offset) : Nat)) ∧
      image s' = update (image (runCalls ata st s calls).2) n.drive
        (splice (image (runCalls ata st s calls).2 n.drive) (n.base + offset)
          (min count.toNat (n.size - offset)) input) ∧
      ∀ between : List Call, (∀ call ∈ between, call.fd = fd ∧ ¬ call.IsWrite) →
      (runCalls ata st' s' between).1.offset fd = some offset →
      ∀ out, ∃ st'' s'', devfsRead ata (runCalls ata st' s' between).1
          (runCalls ata st' s' between).2 fd (some out) count =
          (st'', s'', signed32 (min count.toNat (n.size - offset) : Nat),
            some (splice out 0 (min count.toNat (n.size - offset)) input)) ∧
        image s'' = image s'

section Keeps

variable {σ : Type} {ata : SectorDriver σ} {image : σ → Nat → ByteMemory} {st : State} {fd : Nat}
  {f : DevfsFile} {n : Node}

theorem DevfsFile.Serves.at (serves : f.Serves n) (offset : Nat) : (f.at offset).Serves n :=
  { serves with }

theorem offset_of_file (found : st.file fd = some f) {offset : Nat}
    (position : st.offset fd = some offset) : f.at offset = f := by
  rw [State.offset, found] at position
  cases position
  exact f.at_self

theorem DevfsFile.Serves.admits (serves : f.Serves n) {first count : Nat}
    (asked : f.Asks first count) (isWrite : Bool) : n.Admits ⟨f.drive, first, count, isWrite⟩ := by
  obtain ⟨drive, -, low, high, inside⟩ := serves.asks asked
  have extent : n.extent ≤ n.count := Nat.min_le_left ..
  refine ⟨drive, fun sector from_ below => ⟨?_, ?_, ?_⟩⟩
  all_goals
    dsimp only at from_ below
    omega

theorem DevfsFile.Serves.requests (serves : f.Serves n) (call : Call)
    (found : st.file call.fd = some f) (s : σ) : ∀ r ∈ requests ata st s call, n.Admits r := by
  have noted : ∀ (s : σ × List Request) (r : Request), n.Admits r → (∀ r ∈ s.2, n.Admits r) →
      ∀ other ∈ s.2 ++ [r], n.Admits other := by
    intro s r admitted all other member
    rcases mem_append.mp member with before | last
    · exact all other before
    · rwa [mem_singleton.mp last]
  exact call.keeps (fun s : σ × List Request => ∀ r ∈ s.2, n.Admits r) found
    (fun s _ _ asked all => noted s _ (serves.admits asked false) all)
    (fun _ s _ _ _ asked all => noted s _ (serves.admits asked true) all)
    (fun _ member => absurd member not_mem_nil)

section

variable (transfers : ata.Transfers sectorSize st.sectors image)

include transfers

theorem DevfsFile.Serves.unchanged
    (drives : n.sectors = st.sectors n.drive) (between : List Call) : ∀ (now : State) (s : σ)
    (f : DevfsFile), f.Serves n → now.file fd = some f →
    (∀ call ∈ between, call.fd = fd ∧ ¬ call.IsWrite) → image
    (runCalls ata now s between).2 = image s := by
  induction between with
  | nil => exact fun _ _ _ _ _ _ => rfl
  | cons call between ih =>
    intro now s f serves found quiet
    obtain ⟨rfl, noWrite⟩ := quiet call mem_cons_self
    obtain ⟨offset, after⟩ := (call.moved ata now s).file found
    have kept : image (call.run ata now s).2 = image s := by
      refine call.keeps (fun now => image now = image s) found ?_
        (fun write => absurd write noWrite) rfl
      intro now first count asked same
      obtain ⟨drive, some_, -, high, inside⟩ := serves.asks asked
      obtain ⟨next, data, read, unchanged, -⟩ :=
        transfers.read now f.drive first count some_ (by rw [drive, ← drives]; omega)
      rw [read]
      exact unchanged.trans same
    exact (ih _ _ _ (serves.at offset) after fun other member =>
      quiet other (mem_cons_of_mem _ member)).trans kept

/-- A write changes the sectors of the node from the offset on, up to its end. -/
theorem DevfsFile.Serves.write
    (drives : n.sectors = st.sectors n.drive) {now : State} {offset : Nat} (serves : f.Serves n)
    (found : now.file fd = some (f.at offset)) (s : σ) (input : ByteMemory) (count : UInt32) :
    ∃ st' s', devfsWrite ata now s fd (some input) count =
        (st', s', signed32 (min count.toNat (n.size - offset) : Nat)) ∧
      image s' = update (image s) n.drive
        (splice (image s n.drive) (n.base + offset) (min count.toNat (n.size - offset)) input) := by
  have file : ¬ (f.at offset).isDir = true := by simp [serves.isFile]
  simp only [devfsWrite, found]
  rw [if_neg file, at_offset, at_sizeBytes]
  split
  · next behind =>
    have none_ : min count.toNat (n.size - offset) = 0 := by
      rw [serves.size] at behind
      omega
    rw [none_, splice_zero, update_eq_self]
    exact ⟨now, s, rfl, rfl⟩
  · next before =>
    obtain ⟨next, ended, written⟩ := writeLoop_moves transfers serves drives.symm
      count.toNat input count.toNat s offset 0 (by omega) (by omega) (by omega)
    simp only [Nat.sub_zero, Nat.zero_add, serves.size] at ended written
    rw [ended]
    exact ⟨_, next, rfl, written⟩

/-- A read hands back those bytes and changes nothing. -/
theorem DevfsFile.Serves.read
    (drives : n.sectors = st.sectors n.drive) {now : State} {offset : Nat} (serves : f.Serves n)
    (found : now.file fd = some (f.at offset)) (s : σ) (out : ByteMemory) (count : UInt32) :
    ∃ st' s', devfsRead ata now s fd (some out) count =
        (st', s', signed32 (min count.toNat (n.size - offset) : Nat),
          some (splice out 0 (min count.toNat (n.size - offset))
            fun i => image s n.drive (n.base + offset + i))) ∧
      image s' = image s := by
  have file : ¬ (f.at offset).isDir = true := by simp [serves.isFile]
  simp only [devfsRead, found]
  rw [if_neg file, at_offset, at_sizeBytes]
  split
  · next behind =>
    have none_ : min count.toNat (n.size - offset) = 0 := by
      rw [serves.size] at behind
      omega
    rw [none_, splice_zero]
    exact ⟨now, s, rfl, rfl⟩
  · next before =>
    obtain ⟨next, ended, same⟩ := readLoop_moves transfers serves drives.symm
      count.toNat count.toNat s offset 0 out (by omega) (by omega) (by omega)
    simp only [Nat.sub_zero, Nat.zero_add, serves.size] at ended
    rw [ended]
    exact ⟨_, next, rfl, same⟩

end

theorem DevfsFile.Serves.confined (serves : f.Serves n) (found : st.file fd = some f)
    (drives : n.sectors = st.sectors n.drive) : Confined st fd n where
  inside ata s calls call named := by
    obtain ⟨offset, now⟩ := (runCalls_moved ata calls st s).file found
    rw [← named] at now
    exact (serves.at offset).requests call now _
  stores ata image transfers s calls offset position input count := by
    obtain ⟨place, now⟩ := (runCalls_moved ata calls st s).file found
    rw [← offset_of_file now position, at_at] at now
    obtain ⟨st', s', written, changed⟩ := serves.write transfers drives now
      (runCalls ata st s calls).2 input count
    refine ⟨st', s', written, changed, fun between quiet back out => ?_⟩
    have moved : Moved (runCalls ata st s calls).1 st' := by
      have call := (Call.write fd (some input) count).moved ata (runCalls ata st s calls).1
        (runCalls ata st s calls).2
      rwa [Call.run, written] at call
    obtain ⟨after, between₀⟩ := moved.file now
    obtain ⟨last, ended⟩ := (runCalls_moved ata between st' s').file between₀
    rw [← offset_of_file ended back, at_at, at_at, at_at] at ended
    have kept := DevfsFile.Serves.unchanged transfers drives between st' s' _ (serves.at after)
      between₀ quiet
    obtain ⟨st'', s'', read, same⟩ := serves.read transfers drives ended
      (runCalls ata st' s' between).2 out count
    refine ⟨st'', s'', ?_, same.trans kept⟩
    rw [read, kept, changed, update_self]
    refine congrArg (fun buf => (st'', s'', _, some buf)) (splice_congr fun i inside => ?_)
    exact splice_self inside

end Keeps

section Kept

variable {σ : Type} {st : State} {fd : Nat} {f : DevfsFile} {n : Node}

theorem DevfsFile.target_next {offset : Nat} (le : offset + 1 ≤ f.sizeBytes)
    (fits : offset + 1 < 9223372036854775808) : (f.at offset).target 1 1 = some (offset + 1) := by
  have here : signed64 (offset : Int) = offset := signed64_eq (by omega) (by omega)
  have next : signed64 (signed64 (offset : Int) + 1) = (offset + 1 : Nat) := by
    rw [here, signed64_eq (by omega) (by omega)]
    rfl
  have kept : ¬ ((offset + 1 : Nat) : Int).toNat > (f.at offset).sizeBytes := by
    rw [Int.toNat_natCast, at_sizeBytes]
    omega
  simp only [target, at_offset, next, Option.map_some]
  rw [if_neg kept, Int.toNat_natCast]

theorem file_lseek (ata : SectorDriver σ) {offset : Int} {whence target : Nat}
    (found : st.file fd = some f)
    (file : f.isDir = false) (aimed : f.target offset whence = some target) (s : σ) :
    ((Call.lseek fd offset whence).run ata st s).1.file fd = some (f.at target) := by
  have notDir : ¬ f.isDir = true := by simp [file]
  simp only [Call.run, devfsLseek, found, if_neg notDir, aimed]
  exact file_setFile found target

theorem seek_reaches (ata : SectorDriver σ) (found : st.file fd = some f) (file : f.isDir = false)
    (s : σ) (offset : Nat) :
    offset ≤ f.sizeBytes → offset < 9223372036854775808 →
    ∃ calls, (runCalls ata st s calls).2 = s ∧
      (runCalls ata st s calls).1.file fd = some (f.at offset) := by
  induction offset with
  | zero =>
    intro _ _
    have aimed : f.target 0 0 = some 0 := by simp [DevfsFile.target]
    exact ⟨[.lseek fd 0 0], rfl, file_lseek ata found file aimed s⟩
  | succ offset ih =>
    intro le fits
    obtain ⟨calls, same, reached⟩ := ih (by omega) (by omega)
    refine ⟨calls ++ [.lseek fd 1 1], ?_, ?_⟩
    · rw [runCalls_append]
      exact same
    · rw [runCalls_append]
      exact file_lseek ata reached file (target_next le fits) _

theorem devfsWrite_one (found : st.file fd = some f) (file : f.isDir = false)
    (below : f.offset < f.sizeBytes) (s : Nat → ByteMemory) (input : ByteMemory) :
    ∃ st', devfsWrite (.ofBytes sectorSize) st s fd (some input) 1 = (st', update s f.drive
        (splice (s f.drive) (f.sector * sectorSize + f.offInSec) 1 input), 1) := by
  have notDir : ¬ f.isDir = true := by simp [file]
  have inSector : f.offInSec + 1 ≤ sectorSize := Nat.mod_lt _ (by decide)
  have one : f.chunk 1 = 1 := by
    simp only [DevfsFile.chunk]
    omega
  have going : 0 < 1 ∧ f.offset < f.sizeBytes := ⟨Nat.one_pos, below⟩
  refine ⟨st.setFile fd (f.advance 1), ?_⟩
  simp only [devfsWrite, found, if_neg notDir, if_neg (Nat.not_le.mpr below)]
  have count : (1 : UInt32).toNat = 1 := rfl
  have ret : signed32 ((1 : Nat) : Int) = 1 := signed32_eq (by decide) (by decide)
  simp only [count, writeLoop, if_pos going, one, writeRound_ofBytes inSector,
    Nat.zero_add, ret]

theorem Node.size_lt (n : Node) : n.size < 9223372036854775808 := by
  have bounded := n.bounded
  simp only [Node.size, Node.extent, sectorSize]
  omega

section

variable (confined : Confined st fd n)

include confined

theorem Confined.byte_stored {calls : List Call} {offset : Nat}
    (same : (runCalls (.ofBytes sectorSize) st (fun _ _ => 0) calls).2 = (fun _ _ => 0))
    (reached :
      (runCalls (.ofBytes sectorSize) st (fun _ _ => 0) calls).1.file fd = some (f.at offset)) :
    ∃ st' s', devfsWrite (.ofBytes sectorSize)
        (runCalls (.ofBytes sectorSize) st (fun _ _ => 0) calls).1 (fun _ _ => 0) fd
        (some fun _ => 1) 1 = (st', s', ((min 1 (n.size - offset) : Nat) : Int)) ∧
      s' = update (fun _ _ => 0) n.drive
        (splice (fun _ => 0) (n.base + offset) (min 1 (n.size - offset)) fun _ => 1) := by
  have position : (runCalls (.ofBytes sectorSize) st (fun _ _ => 0) calls).1.offset fd =
      some offset := by
    rw [State.offset, reached]
    rfl
  obtain ⟨st', s', written, changed, -⟩ := confined.stores (.ofBytes sectorSize) id
    (SectorDriver.ofBytes_transfers ..) (fun _ _ => 0) calls offset position (fun _ => 1) 1
  have count : (1 : UInt32).toNat = 1 := rfl
  rw [same, count] at written changed
  rw [signed32_eq (by omega) (by omega)] at written
  exact ⟨st', s', written, changed⟩

theorem Confined.isFile (found : st.file fd = some f) : f.isDir = false := by
  by_contra dir
  have dir : f.isDir = true := by simpa using dir
  obtain ⟨st', s', written, -⟩ := confined.byte_stored
    (show (runCalls (.ofBytes sectorSize) st (fun _ _ => (0 : UInt8)) []).2 = _ from rfl) found
  simp only [runCalls, foldl_nil, devfsWrite, found, if_pos dir, Prod.mk.injEq] at written
  have result := written.2.2
  omega

theorem Confined.byte_at (found : st.file fd = some f) {offset : Nat}
    (le : offset ≤ f.sizeBytes) (fits : offset < 9223372036854775808) :
    ∃ now, now.file fd = some (f.at offset) ∧
      ∃ st' s', devfsWrite (.ofBytes sectorSize) now (fun _ _ => 0) fd (some fun _ => 1) 1 =
          (st', s', ((min 1 (n.size - offset) : Nat) : Int)) ∧
        s' = update (fun _ _ => 0) n.drive
          (splice (fun _ => 0) (n.base + offset) (min 1 (n.size - offset)) fun _ => 1) := by
  obtain ⟨calls, same, reached⟩ := seek_reaches (.ofBytes sectorSize) found (confined.isFile found)
    (fun _ _ => (0 : UInt8)) offset le fits
  exact ⟨_, reached, confined.byte_stored same reached⟩

theorem Confined.sizeBytes (found : st.file fd = some f) : f.sizeBytes = n.size := by
  have file := confined.isFile found
  have small := n.size_lt
  by_contra differs
  by_cases less : n.size < f.sizeBytes
  · -- there is room behind the node
    obtain ⟨now, reached, st', s', written, -⟩ := confined.byte_at found less.le small
    obtain ⟨_, wrote⟩ := devfsWrite_one reached file less (fun _ _ => 0) fun _ => 1
    rw [wrote, Nat.sub_self] at written
    simp only [Prod.mk.injEq] at written
    omega
  · -- the node has room that the file has not
    obtain ⟨now, reached, st', s', written, -⟩ := confined.byte_at found le_rfl (by omega)
    have notDir : ¬ (f.at f.sizeBytes).isDir = true := by simp [file]
    have atEnd : (f.at f.sizeBytes).offset ≥ (f.at f.sizeBytes).sizeBytes := le_rfl
    simp only [devfsWrite, reached, if_neg notDir, if_pos atEnd, Prod.mk.injEq] at written
    omega

theorem Confined.place (found : st.file fd = some f) (room : 0 < n.size) :
    f.drive = n.drive ∧ (f.at 0).sector * sectorSize + (f.at 0).offInSec = n.base := by
  have file := confined.isFile found
  have size := confined.sizeBytes found
  have first : min 1 (n.size - 0) = 1 := by omega
  obtain ⟨now, reached, st', s', written, changed⟩ :=
    confined.byte_at found (Nat.zero_le _) (by decide)
  obtain ⟨_, wrote⟩ := devfsWrite_one reached file (size ▸ room) (fun _ _ => 0) fun _ => 1
  rw [wrote, first] at written
  rw [first, Nat.add_zero] at changed
  simp only [Prod.mk.injEq] at written
  -- the byte that changed, where the file says and where the node says
  have same := congrFun (congrFun (written.2.1.trans changed) f.drive)
    ((f.at 0).sector * sectorSize + (f.at 0).offInSec)
  have one : splice (fun _ => 0) ((f.at 0).sector * sectorSize + (f.at 0).offInSec) 1 (fun _ => 1)
      ((f.at 0).sector * sectorSize + (f.at 0).offInSec) = 1 := by
    rw [splice, if_pos (by omega)]
  rw [at_drive, update_self, one] at same
  have drive : f.drive = n.drive := by
    by_contra other
    rw [update_of_ne other] at same
    exact absurd same (by decide)
  rw [drive, update_self] at same
  refine ⟨drive, ?_⟩
  by_contra elsewhere
  rw [splice_other (by omega)] at same
  exact absurd same (by decide)

theorem Confined.serves (found : st.file fd = some f) (start : f.startLba < 4294967296) :
    f.Serves n := by
  refine ⟨confined.isFile found, confined.sizeBytes found, fun some_ => ?_⟩
  obtain ⟨drive, place⟩ :=
    confined.place found (Nat.mul_pos (Nat.pos_of_ne_zero some_) (by decide))
  refine ⟨drive, ?_⟩
  have inSector : (f.at 0).offInSec < sectorSize := Nat.mod_lt _ (by decide)
  have absByte : (f.at 0).absByte = f.startLba * sectorSize := by
    have fits : f.startLba * sectorSize < 18446744073709551616 := by
      simp only [sectorSize]
      omega
    rw [DevfsFile.absByte, at_offset, Nat.add_zero]
    exact wrap64_eq fits
  simp only [DevfsFile.sector, DevfsFile.offInSec, absByte, Node.base, sectorSize] at place
  omega

end

end Kept

end M4KK1.Devfs
