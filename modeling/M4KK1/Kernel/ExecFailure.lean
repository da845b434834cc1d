import M4KK1.Kernel.Process
import M4KK1.Kernel.Execve

/-!
# What a failed exec leaves behind

What `mkrn_execve` did before the step that fails stays done.
-/

namespace M4KK1.Kernel

open Lib Function

/-- The fields of `mkrn_process_t` that `mkrn_execve` writes. -/
structure Caller where
  name : Nat → UInt8
  cwd : Nat → UInt8
  threadEsp : BitVec 32
  stateTags : BitVec 64
  userStackBase : BitVec 32
  memKb : BitVec 32

/-- `mkrn_strncpy`: at most `n` bytes of the string, and zeros behind it. -/
def strncpy (dst : Nat → UInt8) (src : List UInt8) (n : Nat) : Nat → UInt8 := fun i =>
  if i < n then (src.takeWhile (· ≠ 0)).getD i 0 else dst i

/-- `mkrn_strcpy(cwd, "/");` -/
def rootCwd (cwd : Nat → UInt8) : Nat → UInt8 := update (update cwd 0 47) 1 0

/-- `"unknown"` -/
def unknownName : List UInt8 := [117, 110, 107, 110, 111, 119, 110]

def Caller.renamed (caller : Caller) (procName : Option (List UInt8)) : Caller :=
  { caller with
    name := update (strncpy caller.name (procName.getD unknownName) 31) 31 0
    cwd := rootCwd caller.cwd }

/-- `*--sp = word;` for each word. -/
def pushDoubleWords (mem : Memory) (sp : BitVec 32) : List (BitVec 32) → Memory
  | [] => mem
  | word :: words =>
    let bytes := [word.extractLsb' 0 8, word.extractLsb' 8 8, word.extractLsb' 16 8,
      word.extractLsb' 24 8].map UInt8.ofBitVec
    pushDoubleWords (storeBytes mem (sp - 4#32) bytes) (sp - 4#32) words

/-- The frame of a new process; `entryIret` is the address of `mkrn_process_entry_iret`. -/
def entryWords (top entry entryIret : BitVec 32) : List (BitVec 32) :=
  [0x2B, top, 0x3202, 0x23, entry, entryIret, 0, 0, 0, 0]

/-- `mem_total`: the headers are read again after their segments were copied. -/
def memTotal (elf : BitVec 32) (segments : List Segment) : BitVec 32 :=
  (segments.map fun seg =>
    (readPhdr (loadSegment seg.before elf seg.header).1 seg.header).memsz).foldl (· + ·) 0

/-- `mkrn_execve`, with the value it returns. `stack` is what `mkrn_memory_alloc_page` returns. -/
def execve (entryIret : BitVec 32) (stack : Option (BitVec 32)) (current : Option Caller)
    (mem : Memory) (elf size : BitVec 32) (procName : Option (List UInt8)) :
    Option Caller × Memory × Int :=
  match current with
  | none => (none, mem, -1)
  | some caller =>
    let caller := caller.renamed procName
    match execveLoad mem elf size with
    | (mem, _, false) => (some caller, mem, -1)
    | (mem, segments, true) =>
      match stack with
      | none => (some caller, mem, -1)
      | some stack =>
        let top := stack + 65536#32
        let caller :=
          { caller with
            threadEsp := top - 40#32
            stateTags := Tag.schedRunning.mask
            userStackBase := stack
            memKb := (memTotal elf segments + 65536#32) >>> 10 }
        (some caller, pushDoubleWords mem top (entryWords top (load32 mem (elf + 24#32)) entryIret),
          0)

/-- The caller and the memory of its windows are what they were. -/
structure Intact (caller caller' : Caller) (mem mem' : Memory) : Prop where
  name : ∀ i < 32, caller'.name i = caller.name i
  cwd : ∀ i < 256, caller'.cwd i = caller.cwd i
  entry : caller'.threadEsp = caller.threadEsp ∧ caller'.stateTags = caller.stateTags ∧
    caller'.userStackBase = caller.userStackBase ∧ caller'.memKb = caller.memKb
  windows : ∀ address, userWindow address → mem' address = mem address

/-- The caller has the name and the directory that the program would give it. -/
structure AlreadyNamed (caller : Caller) (procName : Option (List UInt8)) : Prop where
  name : ∀ i < 31, caller.name i = ((procName.getD unknownName).takeWhile (· ≠ 0)).getD i 0
  last : caller.name 31 = 0
  cwd : caller.cwd 0 = 47 ∧ caller.cwd 1 = 0

/-- Program header `i` is that of a LOAD segment, and the guard lets it and all before it pass. -/
structure Accepted (mem : Memory) (elf : BitVec 32) (i : Nat) : Prop where
  listed : i < (load16 mem (elf + 44#32)).toNat
  load : (readPhdr mem (phdrAddress mem elf i)).type = ptLoad
  passed : ∀ j ≤ i, (readPhdr mem (phdrAddress mem elf j)).type = ptLoad →
    overlapsKernel (readPhdr mem (phdrAddress mem elf j)) = false

/-- The bytes of the segment and its zeros are what is in memory at its address. -/
def InPlace (mem : Memory) (elf : BitVec 32) (p : Phdr) : Prop :=
  (∀ k < p.filesz.toNat,
    mem (p.vaddr + BitVec.ofNat 32 k) = mem (elf + p.offset + BitVec.ofNat 32 k)) ∧
  ∀ k < p.memsz.toNat, p.filesz.toNat ≤ k → mem (p.vaddr + BitVec.ofNat 32 k) = 0

/-- The file is refused before its segments, or those in front of the refused one are in place. -/
def SegmentsInPlace (mem : Memory) (elf size : BitVec 32) : Prop :=
  validEhdr mem elf size = true →
    ∀ i, Accepted mem elf i → InPlace mem elf (readPhdr mem (phdrAddress mem elf i))

section Failure

variable {entryIret : BitVec 32} {stack : Option (BitVec 32)} {current : Option Caller}
    {mem : Memory}
  {elf size : BitVec 32} {procName : Option (List UInt8)} {caller : Caller}

theorem renamed_name (i : Nat) (inside : i < 32) : (caller.renamed procName).name i =
    if i < 31 then ((procName.getD unknownName).takeWhile (· ≠ 0)).getD i 0 else 0 := by
  rw [Caller.renamed]
  dsimp only
  split
  · next before =>
    rw [update_of_ne (Nat.ne_of_lt before), strncpy, if_pos before]
  · next behind =>
    obtain rfl : i = 31 := by omega
    exact update_self _ _ _

theorem renamed_cwd (i : Nat) : (caller.renamed procName).cwd i =
    if i = 0 then 47 else if i = 1 then 0 else caller.cwd i := by
  rw [Caller.renamed, rootCwd]
  dsimp only
  split
  · next first =>
    rw [first, update_of_ne (by decide), update_self]
  · next notFirst =>
    split
    · next second => rw [second, update_self]
    · next notSecond => rw [update_of_ne notSecond, update_of_ne notFirst]

theorem renamed_intact_iff : ((∀ i < 32, (caller.renamed procName).name i = caller.name i) ∧
    ∀ i < 256, (caller.renamed procName).cwd i = caller.cwd i) ↔ AlreadyNamed caller procName := by
  constructor
  · rintro ⟨name, cwd⟩
    refine ⟨?_, ?_, ?_, ?_⟩
    · intro i before
      rw [← name i (by omega), renamed_name i (by omega), if_pos before]
    · rw [← name 31 (by decide), renamed_name 31 (by decide), if_neg (by decide)]
    · rw [← cwd 0 (by decide), renamed_cwd, if_pos rfl]
    · rw [← cwd 1 (by decide), renamed_cwd, if_neg (by decide), if_pos rfl]
  · rintro ⟨name, last, first, second⟩
    refine ⟨?_, ?_⟩
    · intro i inside
      rw [renamed_name i inside]
      split
      · next before => exact (name i before).symm
      · next behind =>
        obtain rfl : i = 31 := by omega
        exact last.symm
    · intro i _
      rw [renamed_cwd]
      split
      · next isFirst => rw [isFirst, first]
      · split
        · next isSecond => rw [isSecond, second]
        · rfl

theorem memcpy_same {dst src : BitVec 32} {n : Nat}
    (same : ∀ k < n, mem (dst + BitVec.ofNat 32 k) = mem (src + BitVec.ofNat 32 k)) :
    (memcpy mem dst src n).1 = mem := by
  have words : (copyUnits 4 (n / 4) mem dst src).1 = mem :=
    copyUnits_same fun k below => same k (by omega)
  simp only [memcpy, words]
  refine copyUnits_same fun k below => ?_
  have later := same (4 * (n / 4) + k) (by omega)
  rwa [BitVec.ofNat_add, ← BitVec.add_assoc, ← BitVec.add_assoc] at later

theorem memzero_same {dst : BitVec 32} {n : Nat}
    (same : ∀ k < n, mem (dst + BitVec.ofNat 32 k) = 0) : (memzero mem dst n).1 = mem := by
  have words : (fillUnits 4 0 (n / 4) mem dst).1 = mem :=
    fillUnits_same fun k below => same k (by omega)
  simp only [memzero, words]
  refine fillUnits_same fun k below => ?_
  have later := same (4 * (n / 4) + k) (by omega)
  rwa [BitVec.ofNat_add, ← BitVec.add_assoc] at later

theorem loadSegment_inPlace {header : BitVec 32} (inPlace : InPlace mem elf (readPhdr mem header)) :
    (loadSegment mem elf header).1 = mem := by
  obtain ⟨bytes, zeros⟩ := inPlace
  have copied : (memcpy mem (readPhdr mem header).vaddr (elf + (readPhdr mem header).offset)
      (readPhdr mem header).filesz.toNat).1 = mem := memcpy_same bytes
  simp only [loadSegment, copied]
  split
  · next larger =>
    have rest : ((readPhdr mem header).memsz - (readPhdr mem header).filesz).toNat =
        (readPhdr mem header).memsz.toNat - (readPhdr mem header).filesz.toNat :=
      BitVec.toNat_sub_of_le (BitVec.le_of_lt larger)
    refine memzero_same fun k below => ?_
    have zero := zeros ((readPhdr mem header).filesz.toNat + k) (by omega) (by omega)
    rwa [BitVec.ofNat_add, BitVec.ofNat_toNat, BitVec.setWidth_eq, ← BitVec.add_assoc] at zero
  · rfl

theorem loadSegments_inPlace
    (inPlace : ∀ i, Accepted mem elf i → InPlace mem elf (readPhdr mem (phdrAddress mem elf i))) :
    ∀ rounds i, (∀ j < i, (readPhdr mem (phdrAddress mem elf j)).type = ptLoad →
      overlapsKernel (readPhdr mem (phdrAddress mem elf j)) = false) →
    (loadSegments rounds mem elf i).1 = mem := by
  intro rounds
  induction rounds with
  | zero => exact fun _ _ => rfl
  | succ rounds ih =>
    intro i passed
    rw [loadSegments]
    split
    · next listed =>
      have next : (overlapsKernel (readPhdr mem (phdrAddress mem elf i)) = false ∨
          (readPhdr mem (phdrAddress mem elf i)).type ≠ ptLoad) →
          (loadSegments rounds mem elf (i + 1)).1 = mem := by
        intro passes
        refine ih (i + 1) fun j below isLoad => ?_
        rcases Nat.lt_succ_iff_lt_or_eq.mp below with earlier | rfl
        · exact passed j earlier isLoad
        · exact passes.resolve_right (not_not.mpr isLoad)
      dsimp only
      split
      · next other => exact next (.inr other)
      · next isLoad =>
        split
        · rfl
        · next guarded =>
          have accepted : Accepted mem elf i := by
            refine ⟨listed, not_not.mp isLoad, fun j atMost jLoad => ?_⟩
            rcases Nat.lt_or_eq_of_le atMost with earlier | rfl
            · exact passed j earlier jLoad
            · exact Bool.not_eq_true _ ▸ guarded
          rw [loadSegment_inPlace (inPlace i accepted)]
          exact next (.inl (Bool.not_eq_true _ ▸ guarded))
    · rfl

theorem execveLoad_inPlace (inPlace : SegmentsInPlace mem elf size) :
    (execveLoad mem elf size).1 = mem := by
  rw [execveLoad]
  split
  · next valid =>
    exact loadSegments_inPlace (inPlace valid) _ 0 fun j before => absurd before (Nat.not_lt_zero j)
  · rfl

theorem execve_failed
    (failed : (execve entryIret stack (some caller) mem elf size procName).2.2 = -1) :
    execve entryIret stack (some caller) mem elf size procName =
      (some (caller.renamed procName), (execveLoad mem elf size).1, -1) := by
  unfold execve at failed ⊢
  generalize execveLoad mem elf size = load at failed ⊢
  obtain ⟨loaded, segments, accepted⟩ := load
  cases accepted with
  | false => rfl
  | true =>
    cases stack with
    | none => rfl
    | some stack => exact absurd failed (show ¬ (0 : Int) = -1 by decide)

/-- A failed call leaves alone a caller that already was what the call makes of it, and memory
where the accepted segments are in place; another caller it never leaves alone. -/
theorem failed_exec_intact
    (failed : (execve entryIret stack current mem elf size procName).2.2 = -1) :
    ((∀ caller, current = some caller → AlreadyNamed caller procName ∧
        SegmentsInPlace mem elf size) →
      ∀ caller, current = some caller →
        ∃ caller', (execve entryIret stack current mem elf size procName).1 = some caller' ∧
          Intact caller caller' mem (execve entryIret stack current mem elf size procName).2.1) ∧
    ∀ caller caller', current = some caller →
      (execve entryIret stack current mem elf size procName).1 = some caller' →
      Intact caller caller' mem (execve entryIret stack current mem elf size procName).2.1 →
        AlreadyNamed caller procName := by
  cases current with
  | none => exact ⟨fun _ _ isNone => (nomatch isNone), fun _ _ isNone => (nomatch isNone)⟩
  | some caller =>
    rw [execve_failed failed]
    constructor
    · rintro condition other isOther
      obtain rfl := Option.some.inj isOther
      obtain ⟨already, inPlace⟩ := condition caller rfl
      obtain ⟨name, cwd⟩ := renamed_intact_iff.mpr already
      exact ⟨caller.renamed procName, rfl, name, cwd, ⟨rfl, rfl, rfl, rfl⟩,
        fun address _ => congrFun (execveLoad_inPlace inPlace) address⟩
    · rintro other caller' isOther isCaller ⟨name, cwd, -, -⟩
      obtain rfl := Option.some.inj isOther
      obtain rfl := Option.some.inj isCaller
      exact renamed_intact_iff.mp ⟨name, cwd⟩

theorem execve_invalid (refused : validEhdr mem elf size = false) :
    execve entryIret stack (some caller) mem elf size procName =
      (some (caller.renamed procName), mem, -1) := by
  unfold execve
  rw [execveLoad, if_neg (by rw [refused]; nofun)]

end Failure

/-- A process in the directory `/home`. -/
def homeCaller (name : Nat → UInt8) (cwd : Nat → UInt8) : Caller :=
  ⟨name, cwd, 0x4010FD8#32, Tag.schedRunning.mask, 0x4001000#32, 64#32⟩

/-- `"/"`, in a field of zeros. -/
def rootField : Nat → UInt8 := rootCwd fun _ => 0

/-- `"/home"` -/
def homeField : Nat → UInt8 := fun i => [47, 104, 111, 109, 101].getD i 0

/-- The file with its segment already at 0x600000. -/
def loadedLow : Memory := fun address =>
  if address.toNat < 0x4000000 then linkedLow (address + 0x3A00054#32) else linkedLow address

/-- The image is loaded over itself, and there is no memory for its stack. -/
theorem failed_exec_loaded : ∃ caller',
    (execve 0 none (some (homeCaller (fun _ => 0) rootField)) loadedLow 0x4000000#32 92#32
      (some [])).1 = some caller' ∧
    Intact (homeCaller (fun _ => 0) rootField) caller' loadedLow
      (execve 0 none (some (homeCaller (fun _ => 0) rootField)) loadedLow 0x4000000#32 92#32
        (some [])).2.1 := by
  have failed : (execve 0 none (some (homeCaller (fun _ => 0) rootField)) loadedLow 0x4000000#32
      92#32 (some [])).2.2 = -1 := rfl
  refine (failed_exec_intact failed).1 ?_ _ rfl
  rintro caller isCaller
  obtain rfl := Option.some.inj isCaller
  refine ⟨⟨fun _ _ => rfl, rfl, rfl, rfl⟩, fun _ i accepted => ?_⟩
  have one : i < 1 := accepted.listed
  obtain rfl : i = 0 := by omega
  exact ⟨by decide, by decide⟩

/-- An empty file refused to a process in `/home`: it is in the root directory. -/
theorem not_failed_exec : ¬ ∀ (caller : Caller) (mem : Memory) (elf size : BitVec 32)
    (procName : Option (List UInt8)), (execve 0 none (some caller) mem elf size procName).2.2 = -1 →
    ∃ caller', (execve 0 none (some caller) mem elf size procName).1 = some caller' ∧
      Intact caller caller' mem (execve 0 none (some caller) mem elf size procName).2.1 := by
  intro intact
  have refused : validEhdr (fun _ => 0) 0x4000000#32 0#32 = false := by decide
  have failed : (execve 0 none (some (homeCaller (fun _ => 0) homeField)) (fun _ => 0) 0x4000000#32
      0#32 (some [])).2.2 = -1 := by
    rw [execve_invalid refused]
  obtain ⟨caller', isCaller, kept⟩ := intact _ _ _ _ _ failed
  rw [execve_failed failed] at isCaller
  obtain rfl := Option.some.inj isCaller
  exact absurd (kept.cwd 1 (by decide)) (by decide)

end M4KK1.Kernel
