import M4KK1.Vfs.PipeFifo

/-!
# The numbers of descriptors

The five tables number on their own, and a number is routed in a fixed order.
-/

namespace M4KK1.Vfs

open Lib Yafs Function SpecialTable

namespace SpecialTable

variable {size : Nat} {t t' : SpecialTable size}

def number (t : SpecialTable size) (k : Fin size) : Option Nat :=
  if (t.files k).inUse then some (t.files k).fd else none

theorem number_eq_some {k : Fin size} {fd : Nat} :
    t.number k = some fd ↔ (t.files k).inUse = true ∧ (t.files k).fd = fd := by
  unfold number
  split <;> simp_all

theorem isFd_iff_number {fd : Nat} : t.IsFd fd ↔ ∃ k, t.number k = some fd := by
  simp only [isFd_iff, number_eq_some]

@[simp] theorem number_empty (base : Nat) (k : Fin size) :
    (empty base : SpecialTable size).number k = none := rfl

theorem number_close (fd : Nat) (k : Fin size) :
    (t.close fd).1.number k = t.number k ∨ (t.close fd).1.number k = none := by
  unfold close
  split
  next => exact .inl rfl
  next slot _ =>
    by_cases here : k = slot
    · subst here
      exact .inr (by simp [number])
    · exact .inl (by simp [number, update_of_ne here])

theorem number_allocFile {base limit fd : Nat} (alloc : t.allocFile base limit fd = some t') :
    ∃ k, t.number k = none ∧ t'.number k = some fd ∧ ∀ k', k' ≠ k → t'.number k' = t.number k' := by
  unfold allocFile at alloc
  obtain ⟨k, found, rfl⟩ := Option.map_eq_some_iff.mp alloc
  have free := firstSlot_wanted found
  refine ⟨k, by simp [number, free], by simp [number], fun k' other => ?_⟩
  simp [number, update_of_ne other]

end SpecialTable

/-- An entry of the descriptor table, or an open file of a special filesystem. -/
inductive Holder where
  | table (i : Fin maxFds)
  | procfs (k : Fin 64)
  | sessions (k : Fin 32)
  | deviceTree (k : Fin 32)
  | devfs (k : Fin 64)
deriving DecidableEq

def Holder.issuer : Holder → Option Backend
  | .table _ => none
  | .procfs _ => some .procfs
  | .sessions _ => some .sessions
  | .deviceTree _ => some .deviceTree
  | .devfs _ => some .devfs

def FdState.number (s : FdState) : Holder → Option Nat
  | .table i => if (s.fdTable i).inUse then some i.val else none
  | .procfs k => s.procfs.number k
  | .sessions k => s.sessions.number k
  | .deviceTree k => s.deviceTree.number k
  | .devfs k => s.devfs.number k

/-- The open descriptors have different numbers, routed to who issued them. -/
structure Routes (s : FdState) : Prop where
  unique : ∀ {holder other fd}, s.number holder = some fd → s.number other = some fd →
      holder = other
  usable : ∀ {holder fd}, s.number holder = some fd → fd < maxFds
  routed : ∀ {holder fd}, s.number holder = some fd → s.backend fd = holder.issuer

/-- Whether a special filesystem claims the number. -/
def FdState.Claims (s : FdState) (fd : Nat) : Backend → Prop
  | .procfs => s.procfs.IsFd fd
  | .sessions => s.sessions.IsFd fd
  | .deviceTree => s.deviceTree.IsFd fd
  | .devfs => s.devfs.IsFd fd

variable {s : FdState} {backend : Backend} {s' : FdState} {path : CString} {flags : Nat}
  {result : Option Nat}

theorem FdState.claims_iff {fd : Nat} :
    s.Claims fd backend ↔ ∃ holder : Holder, holder.issuer = some backend ∧
    s.number holder = some fd := by
  constructor
  · intro claims
    cases backend with
    | procfs =>
      obtain ⟨k, held⟩ := isFd_iff_number.mp claims
      exact ⟨.procfs k, rfl, held⟩
    | sessions =>
      obtain ⟨k, held⟩ := isFd_iff_number.mp claims
      exact ⟨.sessions k, rfl, held⟩
    | deviceTree =>
      obtain ⟨k, held⟩ := isFd_iff_number.mp claims
      exact ⟨.deviceTree k, rfl, held⟩
    | devfs =>
      obtain ⟨k, held⟩ := isFd_iff_number.mp claims
      exact ⟨.devfs k, rfl, held⟩
  · rintro ⟨holder, issued, held⟩
    cases holder with
    | table i => cases issued
    | procfs k => cases issued; exact isFd_iff_number.mpr ⟨k, held⟩
    | sessions k => cases issued; exact isFd_iff_number.mpr ⟨k, held⟩
    | deviceTree k => cases issued; exact isFd_iff_number.mpr ⟨k, held⟩
    | devfs k => cases issued; exact isFd_iff_number.mpr ⟨k, held⟩

theorem FdState.backend_of_claims {fd : Nat} {issuer : Option Backend}
    (only : ∀ backend, s.Claims fd backend ↔ issuer = some backend) : s.backend fd = issuer := by
  have procfs : s.procfs.IsFd fd ↔ _ := only .procfs
  have sessions : s.sessions.IsFd fd ↔ _ := only .sessions
  have deviceTree : s.deviceTree.IsFd fd ↔ _ := only .deviceTree
  have devfs : s.devfs.IsFd fd ↔ _ := only .devfs
  unfold FdState.backend
  rcases issuer with _ | _ | _ | _ | _ <;> simp [procfs, sessions, deviceTree, devfs]

theorem Routes.of_unique
    (unique : ∀ {holder other fd}, s.number holder = some fd → s.number other = some fd →
      holder = other)
    (usable : ∀ {holder fd}, s.number holder = some fd → fd < maxFds) : Routes s where
  unique := unique
  usable := usable
  routed := by
    intro holder fd held
    apply FdState.backend_of_claims
    intro backend
    rw [FdState.claims_iff]
    constructor
    · rintro ⟨other, issued, same⟩
      rwa [unique held same]
    · intro issued
      exact ⟨holder, issued, held⟩

/-- A number below the limit that no open descriptor has. -/
def Unclaimed (s : FdState) (fd : Nat) : Prop := fd < maxFds ∧ ∀ holder, s.number holder ≠ some fd

def FdState.nextNumber (s : FdState) : Backend → Nat
  | .procfs => procfsFd s.procfs
  | .sessions => s.sessions.next
  | .deviceTree => s.deviceTree.next
  | .devfs => s.devfs.next

def FdState.counter (s : FdState) : Backend → Nat
  | .procfs => s.procfs.next
  | .sessions => s.sessions.next
  | .deviceTree => s.deviceTree.next
  | .devfs => s.devfs.next

def specialOpens (env : Surroundings) (path : CString) (flags : Nat) : Backend → Bool
  | .procfs => procfsOpens env path
  | .sessions => sessionsOpens env path
  | .deviceTree => deviceTreeOpens path
  | .devfs => devfsOpens env path flags

/-- Whether the check on the spelling of a path turns the caller away. -/
def turnedAway (env : Surroundings) (path : CString) : Prop :=
  (env.euid.any fun euid => euid ≠ 0) = true ∧ protectedSpelling path = true

/-- The number that would be handed out next to the caller is not in use. -/
def NumbersFree (s : FdState) : FdCall → Prop
  | .open env path flags _ =>
    match routedTo path with
    | some backend => ¬ turnedAway env path → specialOpens env path flags backend = true →
      Unclaimed s (s.nextNumber backend)
    | none => ∀ i, scanFds s 0 0 maxFds = some i → Unclaimed s i
  | .pipe _ => ∀ rfd, scanFds s 3 0 maxFds = some rfd → Unclaimed s rfd ∧
    ∀ wfd, scanFds { s with fdSearchStart := (rfd.val + 1) % maxFds } 3 0 maxFds = some wfd →
      Unclaimed s wfd
  | .close _ _ => True
  | _ => False

/-- What was opened before leaves room. The counter of a special filesystem that opens a path is
below the limit and above all open descriptors, and the descriptor table has free entries between
its cursor and each open descriptor of a special filesystem. -/
def RoomLeft (s : FdState) : FdCall → Prop
  | .open env path flags _ =>
    match routedTo path with
    | some backend => ¬ turnedAway env path → specialOpens env path flags backend = true →
      s.counter backend < maxFds ∧ ∀ holder fd, s.number holder = some fd → fd < s.counter backend
    | none => ∀ holder fd, s.number holder = some fd → holder.issuer ≠ none →
      ∃ i : Fin maxFds, (s.fdTable i).inUse = false ∧ s.fdSearchStart ≤ i ∧ i < fd
  | .pipe _ => ∀ holder fd, s.number holder = some fd → holder.issuer ≠ none →
    ∃ i j : Fin maxFds, (s.fdTable i).inUse = false ∧ (s.fdTable j).inUse = false ∧
      3 ≤ i.val ∧ s.fdSearchStart ≤ i ∧ i < j ∧ j < fd
  | .close _ _ => True
  | _ => False

theorem number_table {i : Fin maxFds} {fd : Nat} :
    s.number (.table i) = some fd ↔ (s.fdTable i).inUse = true ∧ i.val = fd := by
  unfold FdState.number
  dsimp only
  split <;> simp_all

theorem special_congr (procfs : s'.procfs = s.procfs)
    (sessions : s'.sessions = s.sessions) (deviceTree : s'.deviceTree = s.deviceTree)
    (devfs : s'.devfs = s.devfs) (holder : Holder) (isSpecial : holder.issuer ≠ none) :
    s'.number holder = s.number holder := by
  cases holder with
  | table i => exact absurd rfl isSpecial
  | procfs k => rw [FdState.number, FdState.number, procfs]
  | sessions k => rw [FdState.number, FdState.number, sessions]
  | deviceTree k => rw [FdState.number, FdState.number, deviceTree]
  | devfs k => rw [FdState.number, FdState.number, devfs]

theorem number_congr (table : s'.fdTable = s.fdTable)
    (procfs : s'.procfs = s.procfs) (sessions : s'.sessions = s.sessions)
    (deviceTree : s'.deviceTree = s.deviceTree) (devfs : s'.devfs = s.devfs) :
    s'.number = s.number := by
  funext holder
  by_cases isSpecial : holder.issuer ≠ none
  · exact special_congr procfs sessions deviceTree devfs holder isSpecial
  · cases holder with
    | table i => rw [FdState.number, FdState.number, table]
    | _ => exact absurd nofun isSpecial

theorem closeSpecial_number (s : FdState) (fd : Nat) (owner : Backend) (holder : Holder) :
    (s.closeSpecial fd owner).number holder = s.number holder ∨
      (s.closeSpecial fd owner).number holder = none := by
  cases owner <;> cases holder <;>
    first
    | exact .inl rfl
    | exact number_close fd _

/-- One holder gained a descriptor, and nobody else's changed. -/
structure Gained (s s' : FdState) (holder : Holder) (fd : Nat) : Prop where
  before : s.number holder = none
  after : s'.number holder = some fd
  others : ∀ other, other ≠ holder → s'.number other = s.number other

/-- The state after a special filesystem took a record for its next number. -/
def FdState.allocIn (s : FdState) : Backend → Option FdState
  | .procfs => (procfsAllocFile s.procfs).map fun table => { s with procfs := table }
  | .sessions => (sessionsAllocFile s.sessions).map fun table => { s with sessions := table }
  | .deviceTree => (dtAllocFile s.deviceTree).map fun table => { s with deviceTree := table }
  | .devfs => (devfsAllocFile s.devfs).map fun table => { s with devfs := table }

theorem openSpecial_eq (s : FdState) (env : Surroundings) (backend : Backend) (path : CString)
    (flags : Nat) :
    openSpecial s env backend path flags =
      if specialOpens env path flags backend then
        (s.allocIn backend).elim (s, none) fun s' => (s', some (s.nextNumber backend))
      else (s, none) := by
  cases backend with
  | procfs =>
    simp only [openSpecial, specialOpens, FdState.allocIn, FdState.nextNumber]
    cases procfsAllocFile s.procfs <;> rfl
  | sessions =>
    simp only [openSpecial, specialOpens, FdState.allocIn, FdState.nextNumber]
    cases sessionsAllocFile s.sessions <;> rfl
  | deviceTree =>
    simp only [openSpecial, specialOpens, FdState.allocIn, FdState.nextNumber]
    cases dtAllocFile s.deviceTree <;> rfl
  | devfs =>
    simp only [openSpecial, specialOpens, FdState.allocIn, FdState.nextNumber]
    cases devfsAllocFile s.devfs <;> rfl

theorem allocIn_gained (alloc : s.allocIn backend = some s') :
    ∃ holder, Gained s s' holder (s.nextNumber backend) := by
  cases backend with
  | procfs =>
    obtain ⟨table, took, rfl⟩ := Option.map_eq_some_iff.mp alloc
    obtain ⟨k, free, taken, others⟩ := number_allocFile took
    refine ⟨.procfs k, free, taken, ?_⟩
    rintro (_ | k' | _ | _ | _) other
    case procfs => exact others k' fun same => other (by rw [same])
    all_goals rfl
  | sessions =>
    obtain ⟨table, took, rfl⟩ := Option.map_eq_some_iff.mp alloc
    obtain ⟨k, free, taken, others⟩ := number_allocFile took
    refine ⟨.sessions k, free, taken, ?_⟩
    rintro (_ | _ | k' | _ | _) other
    case sessions => exact others k' fun same => other (by rw [same])
    all_goals rfl
  | deviceTree =>
    obtain ⟨table, took, rfl⟩ := Option.map_eq_some_iff.mp alloc
    obtain ⟨k, free, taken, others⟩ := number_allocFile took
    refine ⟨.deviceTree k, free, taken, ?_⟩
    rintro (_ | _ | _ | k' | _) other
    case deviceTree => exact others k' fun same => other (by rw [same])
    all_goals rfl
  | devfs =>
    obtain ⟨table, took, rfl⟩ := Option.map_eq_some_iff.mp alloc
    obtain ⟨k, free, taken, others⟩ := number_allocFile took
    refine ⟨.devfs k, free, taken, ?_⟩
    rintro (_ | _ | _ | _ | k') other
    case devfs => exact others k' fun same => other (by rw [same])
    all_goals rfl

theorem openSpecial_cases {env : Surroundings}
    (ran : openSpecial s env backend path flags = (s', result)) :
    (result = none ∧ s' = s) ∨
    (specialOpens env path flags backend = true ∧ result = some (s.nextNumber backend) ∧
      ∃ holder, Gained s s' holder (s.nextNumber backend)) := by
  rw [openSpecial_eq] at ran
  split at ran
  next accepted =>
    cases alloc : s.allocIn backend with
    | none =>
      rw [alloc] at ran
      cases ran
      exact .inl ⟨rfl, rfl⟩
    | some taken =>
      rw [alloc] at ran
      cases ran
      exact .inr ⟨accepted, rfl, allocIn_gained alloc⟩
  next => cases ran; exact .inl ⟨rfl, rfl⟩

theorem openDescriptor_cases {d : FileDesc} (used : d.inUse = true)
    (ran : openDescriptor s d = (s', result)) :
    (result = none ∧ s' = s) ∨
    ∃ i : Fin maxFds, scanFds s 0 0 maxFds = some i ∧ result = some i.val ∧
      s'.fdTable i = d ∧ s'.vfs = s.vfs ∧ Gained s s' (.table i) i := by
  unfold openDescriptor at ran
  split at ran
  next s₁ alloc =>
    cases ran
    obtain ⟨rfl, -⟩ | ⟨i, impossible, -⟩ := vfsAllocFd_cases alloc
    · exact .inl ⟨rfl, rfl⟩
    · cases impossible
  next s₁ fd alloc =>
    cases ran
    obtain ⟨-, impossible⟩ | ⟨i, isFd, scanned, -, free, rfl⟩ := vfsAllocFd_cases alloc
    · cases impossible
    cases isFd
    refine .inr ⟨fd, scanned, rfl, update_self .., rfl, ?_, ?_, ?_⟩
    · simp [FdState.number, free]
    · simp [FdState.number, used]
    · rintro (i | k | k | k | k) other
      · have apart : i ≠ fd := fun same => other (by rw [same])
        simp [FdState.number, update_of_ne apart]
      all_goals rfl

/-- What an `open` of a file hands out: nothing, or the next number of the table. -/
def TableOpens (s s' : FdState) (result : Option Nat) : Prop :=
  (result = none ∧ s'.number = s.number) ∨
  ∃ i : Fin maxFds, scanFds s 0 0 maxFds = some i ∧ result = some i.val ∧ Gained s s' (.table i) i

theorem openDescriptor_opens {vfs : State} {files : Fin maxFiles → FileEnt}
    {d : FileDesc} (used : d.inUse = true)
    (ran : openDescriptor { s with vfs := vfs, fileTable := files } d = (s', result)) :
    TableOpens s s' result := by
  have sameNumbers : ({ s with vfs := vfs, fileTable := files } : FdState).number = s.number :=
    number_congr rfl rfl rfl rfl rfl
  obtain ⟨rfl, rfl⟩ | ⟨i, scanned, rfl, -, -, gained⟩ := openDescriptor_cases used ran
  · exact .inl ⟨rfl, sameNumbers⟩
  · have before := gained.before
    have others := gained.others
    rw [sameNumbers] at before others
    refine .inr ⟨i, ?_, rfl, before, gained.after, others⟩
    rw [← scanned]
    apply scanFds_congr
    · rfl
    · rfl

theorem openYafs_opens (ran : openYafs s path flags = .ok (s', result)) :
    TableOpens s s' result := by
  obtain ⟨_, vfs, -, ⟨-, rfl, rfl⟩ | ⟨inode, vfs', _, -, -, ⟨-, rfl, rfl⟩ | ⟨-, offset, ran⟩⟩⟩ :=
    openYafs_ok ran
  · exact .inl ⟨rfl, number_congr rfl rfl rfl rfl rfl⟩
  · exact .inl ⟨rfl, number_congr rfl rfl rfl rfl rfl⟩
  · exact openDescriptor_opens rfl ran

theorem createFile_files (s : FdState) (name : CString) :
    ∃ files found, createFile s name = (({ s with fileTable := files } : FdState), found) := by
  unfold createFile
  generalize (if name.head? = some slash then name.drop 1 else name) = bare
  dsimp only
  split
  next => exact ⟨s.fileTable, none, rfl⟩
  next =>
    split
    next => exact ⟨s.fileTable, none, rfl⟩
    next k _ => exact ⟨_, some k, rfl⟩

theorem openRamfs_cases (ran : openRamfs s path flags = (s', result)) :
    ∃ files, (result = none ∧ s' = { s with fileTable := files }) ∨
      ∃ k offset, openDescriptor { s with fileTable := files } ⟨some k, offset, flags, true, 0⟩ =
        (s', result) := by
  unfold openRamfs at ran
  cases found : findFile s path with
  | some k =>
    rw [found] at ran
    dsimp only at ran
    split at ran
    next => exact ⟨_, .inr ⟨k, _, ran⟩⟩
    next => exact ⟨_, .inr ⟨k, _, ran⟩⟩
  | none =>
    rw [found] at ran
    by_cases creates : flags &&& oCreat ≠ 0
    · obtain ⟨files, made, isMade⟩ := createFile_files s path
      simp only [if_pos creates, isMade] at ran
      cases made with
      | none =>
        cases ran
        exact ⟨files, .inl ⟨rfl, rfl⟩⟩
      | some k =>
        dsimp only at ran
        split at ran
        next => exact ⟨_, .inr ⟨k, _, ran⟩⟩
        next => exact ⟨_, .inr ⟨k, _, ran⟩⟩
    · simp only [if_neg creates] at ran
      cases ran
      exact ⟨s.fileTable, .inl ⟨rfl, rfl⟩⟩

theorem openRamfs_opens (ran : openRamfs s path flags = (s', result)) : TableOpens s s' result := by
  obtain ⟨files, ⟨rfl, rfl⟩ | ⟨k, offset, ran⟩⟩ := openRamfs_cases ran
  · exact .inl ⟨rfl, number_congr rfl rfl rfl rfl rfl⟩
  · exact openDescriptor_opens rfl ran

theorem vfsOpen_cases {env : Surroundings} (ran : vfsOpen s env path flags = .ok (s', result)) :
    (result = none ∧ s'.number = s.number) ∨
    (∃ backend, routedTo path = some backend ∧ ¬ turnedAway env path ∧
      specialOpens env path flags backend = true ∧ result = some (s.nextNumber backend) ∧
      ∃ holder, Gained s s' holder (s.nextNumber backend)) ∨
    (routedTo path = none ∧ ∃ i : Fin maxFds, scanFds s 0 0 maxFds = some i ∧
      result = some i.val ∧ Gained s s' (.table i) i) := by
  unfold vfsOpen at ran
  split at ran
  next => cases ran; exact .inl ⟨rfl, rfl⟩
  next =>
    split at ran
    next => cases ran; exact .inl ⟨rfl, rfl⟩
    next admitted =>
      cases route : routedTo path with
      | some backend =>
        rw [route] at ran
        obtain ⟨rfl, rfl⟩ | ⟨accepted, rfl, gained⟩ := openSpecial_cases (Except.ok.inj ran)
        · exact .inl ⟨rfl, rfl⟩
        · exact .inr (.inl ⟨backend, rfl, admitted, accepted, rfl, gained⟩)
      | none =>
        rw [route] at ran
        dsimp only at ran
        have opens : TableOpens s s' result := by
          split at ran
          next => exact openYafs_opens ran
          next => exact openRamfs_opens (Except.ok.inj ran)
        obtain same | ⟨i, scanned, rfl, gained⟩ := opens
        · exact .inl same
        · exact .inr (.inr ⟨rfl, i, scanned, rfl, gained⟩)

namespace RoomLeft

theorem nextNumber (room : s.counter backend < maxFds)
    (below : ∀ holder fd, s.number holder = some fd → fd < s.counter backend) :
    Unclaimed s (s.nextNumber backend) := by
  have free : Unclaimed s (s.counter backend) :=
    ⟨room, fun holder held => Nat.lt_irrefl _ (below holder _ held)⟩
  cases backend with
  | procfs =>
    have own : ¬ s.procfs.IsFd s.procfs.next := by
      rw [isFd_iff_number]
      rintro ⟨k, held⟩
      exact free.2 (.procfs k) held
    have same : procfsFd s.procfs = s.procfs.next := if_neg own
    rwa [FdState.nextNumber, same]
  | sessions => exact free
  | deviceTree => exact free
  | devfs => exact free

/-- The scan of the table stops at a free entry behind the cursor, or before it. -/
theorem scanFds_le {i j : Fin maxFds} {minFd : Nat} (above : minFd ≤ j.val)
    (free : (s.fdTable j).inUse = false) (steps : Nat) : ∀ n, s.fdSearchStart + n ≤ j.val →
    scanFds s minFd n steps = some i → i ≤ j := by
  induction steps with
  | zero =>
    intro n _ found
    cases found
  | succ steps ih =>
    intro n before found
    rw [scanFds] at found
    dsimp only at found
    have here : (s.fdSearchStart + n) % maxFds = s.fdSearchStart + n :=
      Nat.mod_eq_of_lt (Nat.lt_of_le_of_lt before j.isLt)
    split at found
    next taken =>
      refine ih (n + 1) (Nat.lt_of_le_of_ne before fun same => ?_) found
      have isJ : (⟨(s.fdSearchStart + n) % maxFds, Nat.mod_lt _ (by decide)⟩ : Fin maxFds) = j :=
        Fin.ext (here.trans same)
      rw [isJ] at taken
      rcases taken with low | used
      · rw [here] at low
        exact absurd above (Nat.not_le.mpr (low.trans_eq' same))
      · exact absurd (free.symm.trans used) (by decide)
    next =>
      cases found
      exact here.trans_le before

theorem unclaimed {i : Fin maxFds} (free : (s.fdTable i).inUse = false)
    (below : ∀ holder fd, s.number holder = some fd → holder.issuer ≠ none → i.val < fd) :
    Unclaimed s i := by
  refine ⟨i.isLt, fun holder held => ?_⟩
  by_cases special : holder.issuer = none
  · cases holder with
    | table j =>
      obtain ⟨used, same⟩ := number_table.mp held
      rw [Fin.ext same, free] at used
      cases used
    | procfs k => cases special
    | sessions k => cases special
    | deviceTree k => cases special
    | devfs k => cases special
  · exact Nat.lt_irrefl _ (below holder i held special)

theorem numbersFree {call : FdCall} (room : RoomLeft s call) : NumbersFree s call := by
  cases call with
  | «open» env path flags result =>
    simp only [RoomLeft, NumbersFree] at room ⊢
    split
    next backend route =>
      rw [route] at room
      exact fun admitted accepted =>
        nextNumber (room admitted accepted).1 (room admitted accepted).2
    next route =>
      rw [route] at room
      intro i scanned
      refine unclaimed (scanFds_free _ _ scanned).2 fun holder fd held special => ?_
      obtain ⟨j, free, behind, before⟩ := room holder fd held special
      exact Nat.lt_of_le_of_lt (scanFds_le (Nat.zero_le _) free _ 0 behind scanned) before
  | pipe result =>
    intro rfd first
    refine ⟨unclaimed (scanFds_free _ _ first).2 fun holder fd held special => ?_,
      fun wfd second => unclaimed (scanFds_free _ _ second).2 fun holder fd held special => ?_⟩
    · obtain ⟨i, j, free, -, above, behind, apart, before⟩ := room holder fd held special
      have reached : rfd.val ≤ i.val := scanFds_le above free _ 0 behind first
      exact Nat.lt_of_le_of_lt reached (Nat.lt_trans apart before)
    · obtain ⟨i, j, free, alsoFree, above, behind, apart, before⟩ := room holder fd held special
      have reached : rfd.val ≤ i.val := scanFds_le above free _ 0 behind first
      have inside := j.isLt
      have next : rfd.val + 1 ≤ j.val := Nat.lt_of_le_of_lt reached apart
      have cursor : (rfd.val + 1) % maxFds + 0 ≤ j.val := by
        rwa [Nat.mod_eq_of_lt (Nat.lt_of_le_of_lt next inside)]
      have reachedNext : wfd.val ≤ j.val :=
        scanFds_le (s := { s with fdSearchStart := (rfd.val + 1) % maxFds })
          (above.trans (Nat.le_of_lt apart)) alsoFree _ 0 cursor second
      exact Nat.lt_of_le_of_lt reachedNext before
  | close fd ok => trivial
  | dup2 => exact room
  | read => exact room
  | write => exact room

end RoomLeft

namespace Routes

variable {s s' : FdState}

section

variable (routes : Routes s)

include routes

theorem change (changed : ∀ {holder fd}, s'.number holder = some fd → s.number holder = some fd ∨
      (Unclaimed s fd ∧ ∀ {other}, s'.number other = some fd → other = holder)) : Routes s' := by
  apply Routes.of_unique
  · intro holder other fd held same
    rcases changed held with old | ⟨-, only⟩
    · rcases changed same with old' | ⟨-, only⟩
      · exact routes.unique old old'
      · exact only held
    · exact (only same).symm
  · intro holder fd held
    rcases changed held with old | ⟨free, -⟩
    · exact routes.usable old
    · exact free.1

theorem gain {holder : Holder} {fd : Nat} (gained : Gained s s' holder fd)
    (free : Unclaimed s fd) : Routes s' := by
  have mine {other : Holder} (held : s'.number other = some fd) : other = holder := by
    by_contra apart
    rw [gained.others other apart] at held
    exact free.2 other held
  apply routes.change
  intro other number held
  by_cases same : other = holder
  · subst same
    cases gained.after.symm.trans held
    exact .inr ⟨free, mine⟩
  · rw [gained.others other same] at held
    exact .inl held

theorem congr (same : s'.number = s.number) : Routes s' := by
  apply routes.change
  intro holder fd held
  rw [same] at held
  exact .inl held

theorem opening {env : Surroundings} {path : CString} {flags : Nat}
    {result : Option Nat} (free : NumbersFree s (.open env path flags result))
    (ran : vfsOpen s env path flags = .ok (s', result)) :
    Routes s' ∧ ∀ fd, result = some fd → ∃ holder, Gained s s' holder fd ∧ Unclaimed s fd := by
  obtain ⟨rfl, same⟩ | ⟨backend, route, admitted, accepted, rfl, holder, gained⟩ |
      ⟨route, i, scanned, rfl, gained⟩ := vfsOpen_cases ran
  · refine ⟨routes.congr same, ?_⟩
    intro fd impossible
    cases impossible
  · simp only [NumbersFree, route] at free
    have unclaimed := free admitted accepted
    refine ⟨routes.gain gained unclaimed, ?_⟩
    intro fd isFd
    cases isFd
    exact ⟨holder, gained, unclaimed⟩
  · simp only [NumbersFree, route] at free
    have unclaimed := free i scanned
    refine ⟨routes.gain gained unclaimed, ?_⟩
    intro fd isFd
    cases isFd
    exact ⟨_, gained, unclaimed⟩

theorem changeTable
    (special : ∀ holder : Holder, holder.issuer ≠ none → s'.number holder = s.number holder)
    (table : ∀ i, (s'.fdTable i).inUse = true → (s.fdTable i).inUse = true ∨ Unclaimed s i) :
    Routes s' := by
  apply routes.change
  intro holder fd held
  by_cases isSpecial : holder.issuer ≠ none
  · rw [special holder isSpecial] at held
    exact .inl held
  obtain ⟨i, rfl⟩ : ∃ i, holder = .table i := by
    cases holder with
    | table i => exact ⟨i, rfl⟩
    | _ => exact absurd (by simp [Holder.issuer]) isSpecial
  obtain ⟨used, rfl⟩ := number_table.mp held
  rcases table i used with old | free
  · exact .inl (number_table.mpr ⟨old, rfl⟩)
  · refine .inr ⟨free, ?_⟩
    intro other same
    cases other with
    | table j => rw [Fin.ext (number_table.mp same).2]
    | procfs k => exact absurd ((special (.procfs k) nofun).symm.trans same) (free.2 _)
    | sessions k => exact absurd ((special (.sessions k) nofun).symm.trans same) (free.2 _)
    | deviceTree k => exact absurd ((special (.deviceTree k) nofun).symm.trans same) (free.2 _)
    | devfs k => exact absurd ((special (.devfs k) nofun).symm.trans same) (free.2 _)

theorem pipe {result : Option (Fin maxFds × Fin maxFds)}
    (free : NumbersFree s (.pipe result)) (ran : vfsPipe s = (s', result)) : Routes s' := by
  obtain ⟨rfl, rfl⟩ | ⟨rfl, p, cursor, -, rfl⟩ | ⟨p, rfd, wfd, rfl, -, first, second, rfl⟩ :=
    vfsPipe_cases ran
  · exact routes
  · exact routes.congr (number_congr rfl rfl rfl rfl rfl)
  obtain ⟨freeRead, freeWrite⟩ := free rfd first
  refine routes.changeTable (special_congr rfl rfl rfl rfl) ?_
  intro i used
  by_cases isWrite : i = wfd
  · exact .inr (isWrite ▸ freeWrite wfd second)
  by_cases isRead : i = rfd
  · exact .inr (isRead ▸ freeRead)
  · simp only [update_of_ne isWrite, update_of_ne isRead] at used
    exact .inl used

theorem close {fd : Nat} {ok : Bool} (ran : vfsClose s fd = (s', ok)) : Routes s' := by
  obtain ⟨rfl, -⟩ | ⟨owner, -, -, rfl⟩ | ⟨slot, -, -, -, rfl, -⟩ := vfsClose_cases ran
  · exact routes
  · apply routes.change
    intro holder number held
    rcases closeSpecial_number s fd owner holder with same | freed
    · exact .inl (same ▸ held)
    · cases freed.symm.trans held
  · obtain ⟨pipes, torn⟩ := closePipe_pipes s (s.fdTable slot)
    rw [torn]
    refine routes.changeTable (special_congr rfl rfl rfl rfl) ?_
    intro i used
    by_cases here : i = slot
    · subst here
      simp [FileDesc.zero] at used
    · simp only [FdState.setFd_fdTable, update_of_ne here] at used
      exact .inl used

theorem step {call : FdCall} (taken : Guarded FdStep RoomLeft s call s') : Routes s' := by
  obtain ⟨room, step⟩ := taken
  have free := room.numbersFree
  cases step with
  | «open» ran => exact (routes.opening free ran).1
  | pipe ran => exact routes.pipe free ran
  | close ran => exact routes.close ran
  | dup2 => exact free.elim
  | read => exact free.elim
  | write => exact free.elim

end

theorem initial (vfs : State) : Routes (initialFds vfs) := by
  apply Routes.of_unique
  · rintro (_ | _ | _ | _ | _) _ _ held _ <;> cases held
  · rintro (_ | _ | _ | _ | _) _ held <;> cases held

end Routes

/-- As long as what was opened before leaves room, descriptors stay different and routed. -/
theorem descriptors_routed {vfs : State} {calls : List FdCall} {final : FdState}
    (run : Steps (Guarded FdStep RoomLeft) (initialFds vfs) calls final) :
    Routes final ∧
    ∀ {env path flags fd next}, RoomLeft final (.open env path flags (some fd)) →
      vfsOpen final env path flags = .ok (next, some fd) →
      Routes next ∧ (∀ holder, final.number holder ≠ some fd) ∧ ∃ holder,
      Gained final next holder fd := by
  have routes : Routes final := run.invariant Routes
    (fun _ _ _ routes taken => routes.step taken) (Routes.initial vfs)
  refine ⟨routes, ?_⟩
  intro env path flags fd next room ran
  obtain ⟨after, issued⟩ := routes.opening room.numbersFree ran
  obtain ⟨holder, gained, unclaimed⟩ := issued fd rfl
  exact ⟨after, unclaimed.2, holder, gained⟩

/-- The process listing and the root directory are open at once. -/
theorem descriptors_routed_listing :
    ∃ start final, boot (fun _ => .data fun _ => 0) = .ok start ∧
      Steps (Guarded FdStep RoomLeft) (initialFds start)
        [.open bareRoot (cstr "/sys/proc") 0 (some 1000), .open bareRoot (cstr "/") 0 (some 0)]
        final ∧ Routes final := by
  obtain ⟨start, _, booted, built, _, ready, _⟩ := boot_built (fun _ => .data fun _ => 0)
  have scanned : scanFds (procOpened start 0) 0 0 maxFds = some 0 :=
    scanFds_here rfl (Nat.zero_le _) rfl
  have first : RoomLeft (initialFds start) (.open bareRoot (cstr "/sys/proc") 0 (some 1000)) := by
    intro _ _
    refine ⟨show 1000 < maxFds by decide, ?_⟩
    rintro (_ | _ | _ | _ | _) fd held <;> cases held
  have second : RoomLeft (procOpened start 0) (.open bareRoot (cstr "/") 0 (some 0)) := by
    rintro (_ | k | _ | _ | _) fd held special
    · exact absurd rfl special
    · refine ⟨0, rfl, Nat.le_refl 0, ?_⟩
      obtain ⟨used, rfl⟩ := number_eq_some.mp held
      by_cases here : k = 0
      · subst here
        exact show 0 < 1000 by decide
      · simp [procOpened, update_of_ne here] at used
    all_goals cases held
  have opened : Guarded FdStep RoomLeft (initialFds start) _ _ := ⟨first, .open (open_proc ready)⟩
  have run := (Steps.refl.step opened).step
    ⟨second, .open (vfsOpen_root ready built.rooted scanned)⟩
  exact ⟨start, _, booted, run, (descriptors_routed run).1⟩

/-- `/sys/proc` and `/dev` are opened under 1000, and `/device` under 3000, which no call
accepts. -/
theorem descriptors_clash :
    ∃ start final beyond, boot (fun _ => .data fun _ => 0) = .ok start ∧
      Steps FdStep (initialFds start)
        [.open bareRoot (cstr "/sys/proc") 0 (some 1000),
          .open bareRoot (cstr "/dev") 0 (some 1000)] final ∧ ¬ Routes final ∧
      Steps FdStep (initialFds start) [.open bareRoot (cstr "/device") 0 (some 3000)] beyond ∧
      vfsClose beyond 3000 = (beyond, false) ∧ ¬ Routes beyond := by
  obtain ⟨start, _, booted, _, _, ready, _⟩ := boot_built (fun _ => .data fun _ => 0)
  have listing : vfsOpen (procOpened start 0) bareRoot (cstr "/dev") 0 =
      .ok ({ procOpened start 0 with
        devfs := ⟨update (fun _ => ⟨0, false⟩) 0 ⟨1000, true⟩, 1001⟩ }, some 1000) := by
    rw [vfsOpen, if_neg (by simp [procOpened, initialFds, ready])]
    rfl
  have device : vfsOpen (initialFds start) bareRoot (cstr "/device") 0 =
      .ok ({ initialFds start with
        deviceTree := ⟨update (fun _ => ⟨0, false⟩) 0 ⟨3000, true⟩, 3001⟩ }, some 3000) := by
    rw [vfsOpen, if_neg (by simp [initialFds, ready])]
    rfl
  have run := (Steps.refl.step (FdStep.open (open_proc ready))).step (FdStep.open listing)
  refine ⟨start, _, _, booted, run, ?_, Steps.refl.step (FdStep.open device), ?_, ?_⟩
  · intro routes
    have clash : Holder.procfs 0 = Holder.devfs 0 :=
      @Routes.unique _ routes (.procfs 0) (.devfs 0) 1000 rfl rfl
    cases clash
  · rw [vfsClose, dif_neg]
    rintro ⟨inside, -⟩
    exact absurd inside (by decide)
  · intro routes
    have below : 3000 < maxFds := @Routes.usable _ routes (.deviceTree 0) 3000 rfl
    exact absurd below (by decide)

end M4KK1.Vfs
