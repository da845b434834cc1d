import M4KK1.Kernel.NumberParsing
import M4KK1.Procfs.Files
import Mathlib.Data.Fintype.Card

/-!
# Which process a process file describes

`procfs_getpid_from_path` hands the whole rest of a path to a number parser.
-/

namespace M4KK1.Procfs

open Lib Lib.CArray Yafs Kernel List
open Vfs (skipSlashes startsWith parseIndex procfsGetpidFromPath SpecialTable procfsFd procfsBase
  procfsLimit procfsUntaken)

def procPath (pid : Nat) (file : CString) : CString :=
  cstr "/sys/proc/" ++ (decimalText pid ++ slash :: file)

/-- What a read of a file of a process gives: the number and the bytes. -/
def description (proc : Option Process) (fileType : FileType) (nsIndex : Int) (count : UInt32) :
    Except Fault (Int × Option (List UInt8)) :=
  match proc with
  | none => .ok (-1, some [])
  | some proc =>
    if fileType = .ctl then .ok (0, some [])
    else do
      let tmp ← fileText proc fileType nsIndex count
      .ok (delivered tmp count)

/-- What a read gives its caller. -/
def outcome (st : State) (procs : Processes) (stack : CArray UInt32 128) (fd : Nat)
    (count : UInt32) : Except Fault (Int × Option (List UInt8)) :=
  (procfsRead st procs stack fd count).map Prod.snd

/-- The states that calls on procfs lead to, none of which closes the descriptor. -/
inductive After (fd : Nat) (st : State) : State → Prop
  | refl : After fd st st
  | opened {now : State} (procs : Processes) (path : CString) (before : After fd st now) :
      After fd st (procfsOpen now procs path).1
  | closed {now : State} {other : Nat} (apart : other ≠ fd) (before : After fd st now) :
      After fd st (procfsClose now other).1
  | read {now next : State} {procs : Processes} {stack : CArray UInt32 128} {other : Nat}
      {count : UInt32} {result : Int × Option (List UInt8)} (before : After fd st now)
      (ran : procfsRead now procs stack other count = .ok (next, result)) : After fd st next

/-- The descriptor describes this process and no other, in every read to come. -/
def Describes (st : State) (fd pid : Nat) : Prop :=
  ∃ fileType nsIndex,
    (∀ procs stack count, count.toNat < 2 ^ 31 → outcome st procs stack fd count =
      description (procs.find pid) fileType nsIndex count) ∧
    ∀ later, After fd st later → ∀ procs stack count, count.toNat < 2 ^ 31 →
      outcome later procs stack fd count = description (procs.find pid) fileType nsIndex count ∨
        outcome later procs stack fd count = .ok (0, some [])

section Numbers

variable {st : State} {fd : Nat}

theorem procfsUntaken_search (t : SpecialTable 64) (guard : Nat) : ∀ fd, procfsBase ≤ fd →
    fd < procfsLimit → ¬ t.IsFd (procfsUntaken t guard fd) ∨
      ∀ i < guard, t.IsFd (1000 + (fd - 1000 + i) % 1000) := by
  induction guard with
  | zero => exact fun _ _ _ => .inr fun i none_ => absurd none_ (Nat.not_lt_zero i)
  | succ guard ih =>
    intro fd low high
    rw [procfsUntaken]
    simp only [procfsBase, procfsLimit] at low high ih ⊢
    split
    · next taken =>
      have next : 1000 ≤ (if fd + 1 ≥ 2000 then 1000 else fd + 1) ∧
          (if fd + 1 ≥ 2000 then 1000 else fd + 1) < 2000 := by split <;> omega
      refine (ih _ next.1 next.2).imp_right fun held i below => ?_
      cases i with
      | zero =>
        have here : 1000 + (fd - 1000 + 0) % 1000 = fd := by omega
        rwa [here]
      | succ i =>
        have there := held i (by omega)
        have place : 1000 + ((if fd + 1 ≥ 2000 then 1000 else fd + 1) - 1000 + i) % 1000 =
            1000 + (fd - 1000 + (i + 1)) % 1000 := by split <;> omega
        rwa [place] at there
    · next free => exact .inl free

theorem procfsFd_fresh (st : State) : ¬ st.numbers.IsFd (procfsFd st.numbers) := by
  refine (procfsUntaken_search st.numbers (procfsLimit - procfsBase) st.nextFd st.inRange.1
    st.inRange.2).resolve_right fun held => ?_
  have all : ∀ number : Fin 1000, ∃ k, (st.files k).fd = 1000 + number.val := by
    intro number
    obtain ⟨k, -, here⟩ := SpecialTable.isFd_iff.mp
      (held ((number.val + 2000 - st.nextFd) % 1000) (Nat.mod_lt _ (by decide)))
    refine ⟨k, here.trans ?_⟩
    have range := st.inRange
    simp only [procfsBase, procfsLimit] at range
    omega
  choose holder holds using all
  have injective : Function.Injective holder := by
    intro first second same
    have numbers := (holds first).symm.trans (same ▸ holds second)
    exact Fin.ext (by omega)
  have few := Fintype.card_le_of_injective holder injective
  simp at few

end Numbers

/-- The descriptor is that of one record, and this is what the record says of it. -/
structure Holds (st : State) (fd : Nat) (k : Fin 64) (pid : Nat) (fileType : FileType)
    (nsIndex : Int) : Prop where
  inUse : (st.files k).inUse = true
  number : (st.files k).fd = fd
  pid : (st.files k).pid = pid
  fileType : (st.files k).fileType = fileType
  nsIndex : (st.files k).nsIndex = nsIndex
  only : ∀ other, (st.files other).inUse = true → (st.files other).fd = fd → other = k

namespace Holds

variable {st : State} {fd pid : Nat} {k : Fin 64} {fileType : FileType} {nsIndex : Int}

section

variable (holds : Holds st fd k pid fileType nsIndex)

include holds

theorem found : st.findByFd fd = some k :=
  firstSlot_eq_some ⟨holds.inUse, holds.number⟩ fun other wanted =>
    holds.only other wanted.1 wanted.2

theorem setFile {other : Fin 64} {pf : ProcfsFile}
    (apart : other ≠ k) (free : pf.inUse = true → pf.fd ≠ fd) :
    Holds (st.setFile other pf) fd k pid fileType nsIndex := by
  have same : (st.setFile other pf).files k = st.files k := st.setFile_of_ne pf apart.symm
  refine ⟨same ▸ holds.inUse, same ▸ holds.number, same ▸ holds.pid, same ▸ holds.fileType,
    same ▸ holds.nsIndex, fun third used number => ?_⟩
  by_cases changed : third = other
  · subst changed
    rw [State.setFile_self] at used number
    exact absurd number (free used)
  · rw [State.setFile_of_ne _ _ changed] at used number
    exact holds.only third used number

theorem setOffset (other : Fin 64) (offset : Int) :
    Holds (st.setFile other { st.files other with readOffset := offset }) fd k pid fileType
      nsIndex := by
  by_cases own : other = k
  · subst own
    have here := st.setFile_self other { st.files other with readOffset := offset }
    refine ⟨?_, ?_, ?_, ?_, ?_, fun third used number => ?_⟩
    · exact (congrArg ProcfsFile.inUse here).trans holds.inUse
    · exact (congrArg ProcfsFile.fd here).trans holds.number
    · exact (congrArg ProcfsFile.pid here).trans holds.pid
    · exact (congrArg ProcfsFile.fileType here).trans holds.fileType
    · exact (congrArg ProcfsFile.nsIndex here).trans holds.nsIndex
    by_contra changed
    rw [State.setFile_of_ne _ _ changed] at used number
    exact changed (holds.only third used number)
  · exact holds.setFile own fun used number => own (holds.only other used number)

theorem stepFd : Holds st.stepFd fd k pid fileType nsIndex :=
  { holds with }

theorem allocFile {fill : ProcfsFile → ProcfsFile} (named : ∀ pf, (fill pf).fd = pf.fd) :
    Holds (st.allocFile fill).1 fd k pid fileType nsIndex := by
  unfold State.allocFile
  split
  · exact holds
  · next slot free =>
    refine holds.stepFd.setFile ?_ fun _ number => ?_
    · rintro rfl
      have unused := firstSlot_wanted free
      rw [holds.inUse] at unused
      cases unused
    · rw [named] at number
      refine procfsFd_fresh st ?_
      rw [SpecialTable.isFd_iff]
      exact ⟨k, holds.inUse, holds.number.trans number.symm⟩

theorem procfsOpen (procs : Processes)
    (path : CString) : Holds (procfsOpen st procs path).1 fd k pid fileType nsIndex := by
  simp only [Procfs.procfsOpen]
  split
  · exact holds.allocFile fun _ => rfl
  · split
    · exact holds
    · split
      · exact holds
      · exact holds.allocFile fun _ => rfl

theorem procfsClose {other : Nat} (apart : other ≠ fd) :
    Holds (procfsClose st other).1 fd k pid fileType nsIndex := by
  unfold Procfs.procfsClose
  split
  · exact holds
  · next slot found =>
    refine holds.setFile ?_ fun used => by cases used
    rintro rfl
    exact apart ((firstSlot_wanted found).2.symm.trans holds.number)

theorem procfsRead {procs : Processes}
    {stack : CArray UInt32 128} {other : Nat} {count : UInt32} {next : State}
    {result : Int × Option (List UInt8)}
    (ran : procfsRead st procs stack other count = .ok (next, result)) :
    Holds next fd k pid fileType nsIndex := by
  have same : ∀ ret : Int × Option (List UInt8),
      (Except.ok (st, ret) : Except Fault (State × Int × Option (List UInt8))) =
        .ok (next, result) →
      Holds next fd k pid fileType nsIndex := by
    intro ret ended
    cases ended
    exact holds
  have moved : ∀ {text : Except Fault (List UInt8)} {slot : Fin 64},
      (text >>= fun tmp => .ok (deliver st slot tmp count)) = .ok (next, result) →
      Holds next fd k pid fileType nsIndex := by
    intro text slot ended
    obtain ⟨tmp, -, ended⟩ := bind_ok ended
    cases ended
    exact holds.setOffset slot _
  unfold Procfs.procfsRead at ran
  split at ran
  · exact same (-1, some []) ran
  · split at ran
    · exact same (0, some []) ran
    · split at ran
      · exact moved ran
      · split at ran
        · exact same (-1, some []) ran
        · split at ran
          · exact same (0, some []) ran
          · exact moved ran

theorem after {later : State} (after : After fd st later) :
    Holds later fd k pid fileType nsIndex := by
  induction after with
  | refl => exact holds
  | opened procs path _ ih => exact ih.procfsOpen procs path
  | closed apart _ ih => exact ih.procfsClose apart
  | read _ ran ih => exact ih.procfsRead ran

theorem outcome (noListing : fileType ≠ .listing)
    (procs : Processes) (stack : CArray UInt32 128) (count : UInt32) :
    outcome st procs stack fd count = if (st.files k).readOffset > 0 then .ok (0, some [])
      else description (procs.find pid) fileType nsIndex count := by
  simp only [Procfs.outcome, Procfs.procfsRead, holds.found, holds.pid, holds.fileType,
    holds.nsIndex, if_neg noListing]
  split
  · rfl
  · unfold description
    cases procs.find pid with
    | none => rfl
    | some proc =>
      dsimp only
      split
      · rfl
      · cases fileText proc fileType nsIndex count with
        | error fault => rfl
        | ok tmp => rfl

theorem describes (noListing : fileType ≠ .listing)
    (fresh : (st.files k).readOffset = 0) : Describes st fd pid := by
  refine ⟨fileType, nsIndex, fun procs stack count _ => ?_,
    fun later reached procs stack count _ => ?_⟩
  · rw [holds.outcome noListing, fresh, if_neg (by decide)]
  · rw [(holds.after reached).outcome noListing]
    split
    · exact .inr rfl
    · exact .inl rfl

end

end Holds

section Opening

variable {st st' : State} {fd : Nat}

theorem allocFile_holds {fill : ProcfsFile → ProcfsFile} {pid : Nat} {fileType : FileType}
    {nsIndex : Int} (opened : st.allocFile fill = (st', some fd))
    (kept : ∀ pf, (fill pf).fd = pf.fd ∧ (fill pf).inUse = pf.inUse ∧
      (fill pf).readOffset = pf.readOffset)
    (filled : ∀ pf, (fill pf).pid = pid ∧ (fill pf).fileType = fileType ∧
      (fill pf).nsIndex = nsIndex) :
    ∃ k, Holds st' fd k pid fileType nsIndex ∧ (st'.files k).readOffset = 0 := by
  unfold State.allocFile at opened
  split at opened
  · cases opened
  · next k free =>
    simp only [Prod.mk.injEq, Option.some.injEq] at opened
    obtain ⟨rfl, rfl⟩ := opened
    have here := st.stepFd.setFile_self k
      (fill { st.files k with fd := procfsFd st.numbers, inUse := true, readOffset := 0 })
    refine ⟨k, ⟨?_, ?_, ?_, ?_, ?_, fun other used number => ?_⟩, ?_⟩
    · exact (congrArg ProcfsFile.inUse here).trans (kept _).2.1
    · exact (congrArg ProcfsFile.fd here).trans (kept _).1
    · exact (congrArg ProcfsFile.pid here).trans (filled _).1
    · exact (congrArg ProcfsFile.fileType here).trans (filled _).2.1
    · exact (congrArg ProcfsFile.nsIndex here).trans (filled _).2.2
    · by_contra apart
      have older := st.stepFd.setFile_of_ne
        (fill { st.files k with fd := procfsFd st.numbers, inUse := true, readOffset := 0 }) apart
      refine procfsFd_fresh st (SpecialTable.isFd_iff.mpr ⟨other, ?_, ?_⟩)
      · exact (congrArg ProcfsFile.inUse older).symm.trans used
      · exact (congrArg ProcfsFile.fd older).symm.trans number
    · exact (congrArg ProcfsFile.readOffset here).trans (kept _).2.2

theorem parseIndex_slash {s : CString} (slashed : slash ∈ s) : parseIndex s = 0 := by
  have noNumber : ¬ ∃ v, Denotes 10 s v := by
    rintro ⟨v, radix, digits, rest, ⟨lead, rfl, chosen, -, all⟩, tail, -⟩
    have noLead : lead = [] := by
      cases chosen with
      | given _ => rfl
      | marked sixteen _ => exact absurd sixteen (by decide)
    subst noLead
    rw [nil_append] at slashed
    rcases mem_append.mp slashed with inDigits | inRest
    · have digit := all slash inDigits
      cases chosen
      exact absurd digit (by decide)
    · rcases tail with rfl | rfl
      · cases inRest
      · exact absurd (mem_singleton.mp inRest) (by decide)
  have allowed : 10 = 0 ∨ 2 ≤ 10 ∧ 10 ≤ 16 := .inr (by decide)
  have meets := kstrtoullImpl_meets allowed s 0
  have refused : (Kernel.kstrtouint s 10 0 0).1 < 0 := by
    have negative : (kstrtoullImpl s 10 0).1 < 0 := by
      by_cases long : Overlong 10 s
      · rw [meets.range (.inl long)]
        exact negative_eRange
      · rw [meets.invalid long noNumber]
        exact negative_eInval
    simp only [Kernel.kstrtouint, if_pos negative]
    exact negative
  simp only [parseIndex, if_pos refused]
  decide

theorem getpid_procPath (pid : Nat) (file : CString) :
    procfsGetpidFromPath (procPath pid file) = 0 := by
  have skipped : skipSlashes (procPath pid file) =
      cstr "sys/proc/" ++ (decimalText pid ++ slash :: file) := rfl
  have starts : startsWith (cstr "sys/proc/" ++ (decimalText pid ++ slash :: file))
      (cstr "sys/proc/") = true := isPrefixOf_iff_prefix.mpr (prefix_append ..)
  have rest : (cstr "sys/proc/" ++ (decimalText pid ++ slash :: file)).drop 9 =
      decimalText pid ++ slash :: file := rfl
  simp only [procfsGetpidFromPath, skipped, if_pos starts, rest]
  exact parseIndex_slash (mem_append_right _ mem_cons_self)

theorem typeOfPath_ne_listing (path : CString) : (typeOfPath path).1 ≠ .listing := by
  unfold typeOfPath
  dsimp only
  split_ifs <;> simp

theorem procfsOpen_procPath (st : State) (procs : Processes) (pid : Nat) (file : CString) :
    procfsOpen st procs (procPath pid file) =
      match procs.find 0 with
      | none => (st, none)
      | some _ => st.allocFile fun pf =>
        { pf with
          pid := 0
          fileType := (typeOfPath (procPath pid file)).1
          nsIndex := (typeOfPath (procPath pid file)).2 } := by
  have file_ : ¬ (skipSlashes (procPath pid file) = cstr "sys/proc" ∨
      skipSlashes (procPath pid file) = cstr "sys/proc/") := by
    have skipped : skipSlashes (procPath pid file) =
        cstr "sys/proc/" ++ (decimalText pid ++ slash :: file) := rfl
    rw [skipped]
    rintro (same | same)
    all_goals
      have lengths := congrArg List.length same
      simp [cstr] at lengths
  simp only [procfsOpen, if_neg file_, getpid_procPath]
  rfl

end Opening

theorem find_pid {procs : Processes} {pid : Nat} {proc : Process}
    (live : procs.find pid = some proc) : proc.pid.toNat = pid := by
  unfold Processes.find at live
  cases registered : procs.all.find? fun p => p.pid.toNat = pid with
  | some p =>
    rw [registered] at live
    cases live
    simpa using find?_some registered
  | none =>
    rw [registered] at live
    simpa using (Option.filter_eq_some_iff.mp live).2

theorem description_ne (proc : Process) (fileType : FileType) (nsIndex : Int) :
    description (some proc) fileType nsIndex 0 ≠ .ok (-1, some []) := by
  have zero : signed32 ((0 : UInt32).toNat : Int) = 0 := by decide
  simp only [description]
  split
  · decide
  · intro same
    obtain ⟨tmp, -, given⟩ := bind_ok same
    simp only [delivered, zero, Except.ok.injEq, Prod.mk.injEq] at given
    have length := given.1
    split at length <;> omega

/-- Where there is a process 0 and a free record, the file of any process describes that one. -/
theorem procfsOpen_zero {st : State} {procs : Processes} {zero : Process}
    (live : procs.find 0 = some zero) (free : ∃ k, (st.files k).inUse = false) (pid : Nat)
    (file : CString) :
    ∃ st' fd, procfsOpen st procs (procPath pid file) = (st', some fd) ∧ Describes st' fd 0 := by
  have kind := typeOfPath_ne_listing (procPath pid file)
  rw [procfsOpen_procPath, live]
  dsimp only
  cases opened : st.allocFile fun pf =>
      { pf with
        pid := 0
        fileType := (typeOfPath (procPath pid file)).1
        nsIndex := (typeOfPath (procPath pid file)).2 } with
  | mk st' number =>
    cases number with
    | none =>
      unfold State.allocFile at opened
      split at opened
      · next full =>
        obtain ⟨k, free⟩ := free
        exact absurd free (firstSlot_eq_none.mp full k)
      · cases opened
    | some fd =>
      obtain ⟨slot, holds, fresh⟩ := allocFile_holds opened (fun _ => ⟨rfl, rfl, rfl⟩)
        (fun _ => ⟨rfl, rfl, rfl⟩)
      exact ⟨st', fd, rfl, holds.describes kind fresh⟩

/-- No file of a process with a number from 1 on describes that process. -/
theorem procfs_describes_never {st : State} {procs : Processes} {pid : Nat} {proc : Process}
    (live : procs.find pid = some proc) (numbered : 1 ≤ pid) (file : CString) :
    ¬ ∃ st' fd, procfsOpen st procs (procPath pid file) = (st', some fd) ∧
      Describes st' fd pid := by
  have kind := typeOfPath_ne_listing (procPath pid file)
  rintro ⟨st', fd, opened, fileType, nsIndex, first, -⟩
  rw [procfsOpen_procPath] at opened
  split at opened
  · cases opened
  · obtain ⟨k, holds, fresh⟩ := allocFile_holds opened (fun _ => ⟨rfl, rfl, rfl⟩)
      (fun _ => ⟨rfl, rfl, rfl⟩)
    -- the file of a process that is left alone must still be there
    have number := find_pid live
    have left : (Processes.mk [proc] none).find pid = some proc := by
      simp [Processes.find, number]
    have gone : (Processes.mk [proc] none).find 0 = none := by
      have other : pid ≠ 0 := by omega
      simp [Processes.find, number, other]
    have read := first ⟨[proc], none⟩ (.fill 0) 0 (by decide)
    rw [holds.outcome kind, fresh, if_neg (by decide), gone, left] at read
    exact description_ne proc fileType nsIndex read.symm

/-- A process with this number and nothing to tell. -/
def plainProcess (pid : UInt32) : Process :=
  ⟨pid, 0, 0, 0, 0, 0, 1, cstr "sh", cstr "/", none, none, nsInit⟩

/-- Process 2, asked for its working directory by process 1. -/
theorem procfs_describes_never_shell :
    ¬ ∃ st' fd, procfsOpen procfsInit ⟨[plainProcess 1, plainProcess 2], some (plainProcess 1)⟩
        (procPath 2 (cstr "cwd")) = (st', some fd) ∧ Describes st' fd 2 :=
  @procfs_describes_never _ _ _ (plainProcess 2) rfl (by decide) (cstr "cwd")

/-- The files of the first process cannot be opened. -/
theorem not_procfs_describes :
    ¬ ∀ (st : State) (procs : Processes) (pid : Nat) (proc : Process) (file : CString),
      procs.find pid = some proc → 1 ≤ pid → (∃ k, (st.files k).inUse = false) →
      ∃ st' fd, procfsOpen st procs (procPath pid file) = (st', some fd) ∧
        Describes st' fd pid := by
  intro all
  obtain ⟨st', fd, opened, -⟩ := all procfsInit ⟨[plainProcess 1], none⟩ 1 (plainProcess 1)
    (cstr "status") rfl (by decide) ⟨0, rfl⟩
  have refused : (procfsOpen procfsInit ⟨[plainProcess 1], none⟩
      (procPath 1 (cstr "status"))).2 = none := by decide +kernel
  rw [opened] at refused
  cases refused

end M4KK1.Procfs
