import M4KK1.Devfs.Partitions

/-!
# Who changes the sectors of a drive

`mkrn_devfs_open` refuses the flags for writing, but `mkrn_devfs_write` asks for nothing.
-/

namespace M4KK1.Devfs

open Lib Yafs Function List

variable {σ : Type} {ata : SectorDriver σ}

/-- A call of a process on the nodes. -/
inductive Op where
  | opens (path : CString) (flags : Nat)
  | calls (call : Call)

/-- What the call leaves, for a process with this effective user. -/
def Op.run (ata : SectorDriver σ) (euid : Nat) (st : State) (s : σ) : Op → State × σ
  | .opens path flags => ((devfsOpen st euid path flags).1, s)
  | .calls call => call.run ata st s

/-- What a sequence of calls leaves. -/
def runOps (ata : SectorDriver σ) (euid : Nat) (st : State) (s : σ) (ops : List Op) : State × σ :=
  ops.foldl (fun now op => op.run ata euid now.1 now.2) (st, s)

/-- The call writes nothing to an open node. -/
def Op.Idle (st : State) : Op → Prop
  | .calls (.write fd (some _) count) =>
    ∀ f, st.file fd = some f → f.isDir = true ∨ count = 0 ∨ f.sizeBytes ≤ f.offset
  | _ => True

/-- No call of the sequence writes to an open node, when it comes to its turn. -/
def Idle (ata : SectorDriver σ) (euid : Nat) (st : State) (s : σ) : List Op → Prop
  | [] => True
  | op :: ops =>
    op.Idle st ∧ Idle ata euid (op.run ata euid st s).1 (op.run ata euid st s).2 ops

/-- With drives that are their bytes, no call of the sequence changes a byte. -/
def Untouched (euid : Nat) (st : State) (ops : List Op) : Prop :=
  ∀ (bytes : Nat → ByteMemory) (done : List Op), done <+: ops →
    (runOps (.ofBytes sectorSize) euid st bytes done).2 = bytes

theorem Op.Idle.keeps {image : σ → Nat → ByteMemory}
    (harmless : ∀ s drive first count, image (ata.readSectors s drive first count).1 = image s)
    {st : State} {op : Op} (idle : op.Idle st) (euid : Nat) (s : σ) :
    image (op.run ata euid st s).2 = image s := by
  have quiet : ∀ call : Call, ¬ call.IsWrite → image (call.run ata st s).2 = image s := by
    intro call noWrite
    cases found : st.file call.fd with
    | some f =>
      exact call.keeps (fun now => image now = image s) found
        (fun now _ _ _ same => (harmless now ..).trans same) (fun write => absurd write noWrite) rfl
    | none =>
      cases call with
      | lseek fd offset whence => rfl
      | read fd buf count =>
        rw [Call.fd] at found
        simp only [Call.run, devfsRead, found]
      | write fd buf count => exact absurd trivial noWrite
  cases op with
  | opens path flags => rfl
  | calls call =>
    cases call with
    | lseek fd offset whence => exact quiet _ id
    | read fd buf count => exact quiet _ id
    | write fd buf count =>
      simp only [Op.run, Call.run, devfsWrite]
      split
      · next f input found =>
        split
        · rfl
        · next notDir =>
          split
          · rfl
          · next room =>
            have none_ : count = 0 :=
              ((idle f found).resolve_left notDir).resolve_right room
            subst none_
            rfl
      · rfl

theorem Idle.keeps (image : σ → Nat → ByteMemory)
    (harmless : ∀ s drive first count, image (ata.readSectors s drive first count).1 = image s)
    (euid : Nat) (ops : List Op) : ∀ (st : State) (s : σ), Idle ata euid st s ops →
      ∀ done, done <+: ops → image (runOps ata euid st s done).2 = image s := by
  induction ops with
  | nil =>
    intro st s _ done front
    rw [prefix_nil.mp front]
    rfl
  | cons op ops ih =>
    intro st s idle done front
    cases done with
    | nil => rfl
    | cons first done =>
      obtain ⟨rfl, rest⟩ := cons_prefix_cons.mp front
      exact (ih _ _ idle.2 done rest).trans (idle.1.keeps harmless euid s)

section Reaches

variable {st : State} {fd euid : Nat} {f : DevfsFile}

theorem readLoop_file (count rounds : Nat) : ∀ (s s' : Nat → ByteMemory) (f : DevfsFile)
    (total : Nat) (out out' : ByteMemory),
    (readLoop (.ofBytes sectorSize) count rounds s f total out).2.1 =
      (readLoop (.ofBytes sectorSize) count rounds s' f total out').2.1 := by
  induction rounds with
  | zero => exact fun _ _ _ _ _ _ => rfl
  | succ rounds ih =>
    intro s s' f total out out'
    rw [readLoop, readLoop]
    split
    · split
      · exact ih ..
      · exact ih ..
    · rfl

theorem writeLoop_round {count total : Nat} (input : ByteMemory) (rounds : Nat)
    (s : Nat → ByteMemory) (wanted : total < count) (below : f.offset < f.sizeBytes) :
    writeLoop (.ofBytes sectorSize) count input (rounds + 1) s f total =
      writeLoop (.ofBytes sectorSize) count input rounds
        (update s f.drive (splice (s f.drive) (f.sector * sectorSize + f.offInSec)
          (f.chunk (count - total)) fun i => input (total + i)))
        (f.advance (f.chunk (count - total))) (total + f.chunk (count - total)) := by
  obtain ⟨-, -, -, inSector⟩ := f.at_self ▸
    DevfsFile.chunk_bounds (f := f) below (Nat.sub_pos_of_lt wanted)
  simp only [writeLoop, if_pos (And.intro wanted below), writeRound_ofBytes inSector]

theorem writeLoop_file (count : Nat) (input : ByteMemory) (rounds : Nat) :
    ∀ (s s' : Nat → ByteMemory) (f : DevfsFile) (total : Nat),
    (writeLoop (.ofBytes sectorSize) count input rounds s f total).2.1 =
      (writeLoop (.ofBytes sectorSize) count input rounds s' f total).2.1 := by
  induction rounds with
  | zero => exact fun _ _ _ _ => rfl
  | succ rounds ih =>
    intro s s' f total
    by_cases going : total < count ∧ f.offset < f.sizeBytes
    · rw [writeLoop_round _ _ _ going.1 going.2, writeLoop_round _ _ _ going.1 going.2]
      exact ih ..
    · rw [writeLoop, writeLoop, if_neg going, if_neg going]

theorem Op.run_file (op : Op) (s s' : Nat → ByteMemory) :
    (op.run (.ofBytes sectorSize) euid st s).1 = (op.run (.ofBytes sectorSize) euid st s').1 := by
  cases op with
  | opens path flags => rfl
  | calls call =>
    cases call with
    | lseek fd offset whence => rfl
    | read fd buf count =>
      simp only [Op.run, Call.run, devfsRead]
      split
      · split
        · rfl
        · split
          · rfl
          · exact congrArg (st.setFile fd) (readLoop_file ..)
      · rfl
    | write fd buf count =>
      simp only [Op.run, Call.run, devfsWrite]
      split
      · split
        · rfl
        · split
          · rfl
          · exact congrArg (st.setFile fd) (writeLoop_file ..)
      · rfl

theorem writeLoop_leaves (count : Nat) (input : ByteMemory) (rounds : Nat) :
    ∀ (f : DevfsFile) (total : Nat), total < count → f.offset < f.sizeBytes →
      ∃ place i, ∀ s, (writeLoop (.ofBytes sectorSize) count input (rounds + 1) s f total).1 f.drive
        place = input i := by
  -- the bytes of a round that is the last one
  have ended : ∀ (f : DevfsFile) (total : Nat) (s : Nat → ByteMemory), total < count →
      f.offset < f.sizeBytes → update s f.drive (splice (s f.drive)
          (f.sector * sectorSize + f.offInSec) (f.chunk (count - total)) fun i => input (total + i))
        f.drive (f.sector * sectorSize + f.offInSec) = input total := by
    intro f total s wanted below
    obtain ⟨some_, -, -, -⟩ := f.at_self ▸
      DevfsFile.chunk_bounds (f := f) below (Nat.sub_pos_of_lt wanted)
    rw [update_self, splice, if_pos (by omega), Nat.sub_self, Nat.add_zero]
  induction rounds with
  | zero =>
    intro f total wanted below
    refine ⟨f.sector * sectorSize + f.offInSec, total, fun s => ?_⟩
    rw [writeLoop_round _ _ _ wanted below]
    exact ended f total s wanted below
  | succ rounds ih =>
    intro f total wanted below
    by_cases more : total + f.chunk (count - total) < count ∧
        (f.advance (f.chunk (count - total))).offset <
          (f.advance (f.chunk (count - total))).sizeBytes
    · obtain ⟨place, i, leaves⟩ := ih (f.advance (f.chunk (count - total))) _ more.1 more.2
      refine ⟨place, i, fun s => ?_⟩
      rw [writeLoop_round _ _ _ wanted below]
      exact leaves _
    · refine ⟨f.sector * sectorSize + f.offInSec, total, fun s => ?_⟩
      rw [writeLoop_round _ _ _ wanted below, writeLoop]
      simp only [if_neg more]
      exact ended f total s wanted below

theorem Op.idle_of_untouched {op : Op}
    (same : ∀ bytes, (op.run (.ofBytes sectorSize) euid st bytes).2 = bytes) : op.Idle st := by
  cases op with
  | opens path flags => trivial
  | calls call =>
    cases call with
    | lseek fd offset whence => trivial
    | read fd buf count => trivial
    | write fd buf count =>
      cases buf with
      | none => trivial
      | some input =>
        intro f found
        by_contra reaches
        simp only [not_or, Nat.not_le] at reaches
        obtain ⟨notDir, wanted, below⟩ := reaches
        obtain ⟨rounds, number⟩ : ∃ rounds, count.toNat = rounds + 1 := by
          refine Nat.exists_eq_succ_of_ne_zero fun zero => wanted ?_
          exact UInt32.toNat_inj.mp zero
        obtain ⟨place, i, leaves⟩ :=
          writeLoop_leaves count.toNat input rounds f 0 (by omega) below
        -- drives that hold another byte there
        have changed := congrFun (congrFun (same fun _ _ => input i + 1) f.drive) place
        simp only [Op.run, Call.run, devfsWrite, found, if_neg notDir,
          if_neg (Nat.not_le.mpr below)] at changed
        rw [number] at leaves changed
        rw [leaves] at changed
        exact absurd changed (by simp)

end Reaches

/-- The sectors stay as they are exactly when no write reaches an open node. -/
theorem untouched_iff (euid : Nat) (st : State) (ops : List Op) :
    Untouched euid st ops ↔ ∀ bytes, Idle (.ofBytes sectorSize) euid st bytes ops := by
  constructor
  · induction ops generalizing st with
    | nil => exact fun _ _ => trivial
    | cons op ops ih =>
      intro untouched bytes
      have first : ∀ bytes, (op.run (.ofBytes sectorSize) euid st bytes).2 = bytes :=
        fun bytes => untouched bytes [op] (prefix_append [op] ops)
      refine ⟨Op.idle_of_untouched first, ih _ ?_ _⟩
      intro later done front
      have whole := untouched later (op :: done) (cons_prefix_cons.mpr ⟨rfl, front⟩)
      have second : (op.run (.ofBytes sectorSize) euid st later) =
          ((op.run (.ofBytes sectorSize) euid st bytes).1, later) :=
        Prod.ext (op.run_file later bytes) (first later)
      rwa [runOps, foldl_cons, second] at whole
  · intro idle bytes done front
    exact Idle.keeps id (fun _ _ _ _ => rfl) euid ops st bytes (idle bytes) done front

/-- Opening a drive for reading is enough to write to it. -/
theorem not_untouched :
    ¬ ∀ (st : State) (euid : Nat) (ops : List Op), Reachable st → euid ≠ 0 →
    Untouched euid st ops := by
  intro all
  have same := all (oneDrive 90 20) 1000
    [.opens (cstr "/dev/hda") 1, .calls (.write 1000 (some fun _ => 1) 1)] (.init ..) (by decide)
    (fun _ _ => 0) _ (prefix_refl _)
  exact absurd (congrFun (congrFun same 0) 0) (by decide +kernel)

end M4KK1.Devfs
