import M4KK1.Lib.ByteMemory
import M4KK1.Mm.PageRuns
import M4KK1.Kernel.ProcessCalls

/-!
# The stacks of a forked process

`mkrn_fork_status` with the child's stacks, of which the user stack may be missing, and its frame.
-/

namespace M4KK1.Kernel

open M4KK1.Lib M4KK1.Mm Function

def stackSize : Nat := 65536

/-- `(M4K_STACK_SIZE + 0xFFF) >> 12` -/
def stackPages : Nat := 16

/-- `user_frame`: the registers with which the process came into the kernel. -/
structure UserFrame where
  eip : BitVec 32
  cs : BitVec 32
  eflags : BitVec 32
  esp : BitVec 32
  ss : BitVec 32
  ebp : BitVec 32

/-- The fields of `mkrn_process_t` that describe its stacks. -/
structure Stacks where
  threadEsp : Nat
  kernelStack : Nat
  userStackBase : Nat
  userFrame : UserFrame
  memKb : Nat

/-- These after `mkrn_memset`. -/
def Stacks.zero : Stacks := ⟨0, 0, 0, ⟨0, 0, 0, 0, 0, 0⟩, 0⟩

/-- Processes, page allocator, memory, and the address of `mkrn_fork_child_restore`. -/
structure System where
  sched : State
  stackOf : Addr → Stacks
  pages : Pages
  mem : ByteMemory
  childRestore : BitVec 32

/-- The walk along the saved frame pointers of the copy at `base` of a stack at `orig`. -/
def rebaseLoop (orig base : Nat) : Nat → ByteMemory → Nat → ByteMemory
  | 0, mem, _ => mem
  | fuel + 1, mem, p =>
    if base ≤ p ∧ p < add32 base stackSize then
      let v := read32 mem p
      if v < orig ∨ v ≥ add32 orig stackSize then mem
      else
        let v := add32 base (sub32 v orig)
        rebaseLoop orig base fuel (write32 mem p v) v
    else mem

/-- As many rounds as the copy has contents, so that the walk comes to its end. -/
def rebaseFuel : Nat := 256 ^ (stackSize + 3)

structure UserStack where
  own : Stacks
  pages : Pages
  mem : ByteMemory
  esp : Nat
  ebp : Nat

/-- `if (parent->user_stack_base) { … }` -/
def forkUserStack (parent own : Stacks) (pages : Pages) (mem : ByteMemory) : UserStack :=
  let frame := parent.userFrame
  if parent.userStackBase = 0 then ⟨own, pages, mem, frame.esp.toNat, frame.ebp.toNat⟩
  else
    let (pages, ustack) := allocatePages pages stackPages
    if ustack = 0 then ⟨own, pages, mem, frame.esp.toNat, frame.ebp.toNat⟩
    else
      let mem := copyBytes stackSize mem ustack parent.userStackBase
      let esp := add32 ustack (sub32 frame.esp.toNat parent.userStackBase)
      let ebp := add32 ustack (sub32 frame.ebp.toNat parent.userStackBase)
      { own := { own with userStackBase := ustack, memKb := add32 own.memKb (stackSize >>> 10) }
        pages := pages
        mem := rebaseLoop parent.userStackBase ustack rebaseFuel mem ebp
        esp := esp
        ebp := ebp }

/-- `*--f = word;` for each word, with where `f` ends. -/
def pushWords : ByteMemory → Nat → List Nat → ByteMemory × Nat
  | mem, f, [] => (mem, f)
  | mem, f, word :: words => pushWords (write32 mem (sub32 f 4) word) (sub32 f 4) words

/-- The words the child resumes with: the frame for `iret` and the registers. -/
def resumeWords (frame : UserFrame) (esp ebp : Nat) (childRestore : BitVec 32) : List Nat :=
  [frame.ss.toNat, esp, frame.eflags.toNat, frame.cs.toNat, frame.eip.toNat] ++
    [ebp, 0, 0, 0, 0, 0, 0] ++ [childRestore.toNat, 0, 0, 0, 0]

variable (k : System) (inheritMask : BitVec 64)

/-- `mkrn_fork_status` from the child's control block on. -/
def System.forkChild (parent child : Addr) :
    System × Option (BitVec 32) :=
  let pid := k.sched.nextPid
  let sched :=
    { k.sched.modify child fun _ => { Process.zero with pid := pid } with nextPid := pid + 1#32 }
  let stackOf := update k.stackOf child Stacks.zero
  let own : Stacks :=
    { Stacks.zero with userFrame := (stackOf parent).userFrame, memKb := (stackOf parent).memKb }
  let tags := inheritedTags (sched.pcbs parent).stateTags inheritMask
  let sched := sched.modify child fun process =>
    { process with ppid := (sched.pcbs parent).pid, stateTags := tags }
  let (pages, kstack) := allocatePages k.pages stackPages
  if kstack = 0 then
    ({ k with sched := sched, stackOf := update stackOf child own, pages := pages }, none)
  else
    let own := { own with kernelStack := add32 kstack stackSize }
    let user := forkUserStack (stackOf parent) own pages k.mem
    let (mem, f) := pushWords user.mem own.kernelStack
      (resumeWords (stackOf parent).userFrame user.esp user.ebp k.childRestore)
    let own := { user.own with threadEsp := f }
    let sched :=
      { sched with processCount := sched.processCount + 1#32, allProcs := child :: sched.allProcs }
    if sched.ready.count ≥ readyQueueSize then
      -- The queue is full: the fork is undone.
      let sched :=
        { sched with
          allProcs := sched.allProcs.erase child, processCount := sched.processCount - 1#32 }
      let pages := freePages user.pages (sub32 own.kernelStack stackSize) stackPages
      let pages :=
        if own.userStackBase ≠ 0 then freePages pages own.userStackBase stackPages else pages
      ({ k with sched := sched, stackOf := update stackOf child own, pages := pages, mem := mem },
        none)
    else
      let stackOf := update stackOf child own
      ({ k with sched := sched.enqueue child, stackOf := stackOf, pages := user.pages, mem := mem },
        some pid)

/-- `mkrn_fork_status` with the pid, or nothing for -1; `pcb` is the child's block. -/
def System.forkStatus (flags : BitVec 32) (pcb : Option Addr) :
    System × Option (BitVec 32) :=
  if flags &&& rfproc = 0 then (k, none)
  else if inheritMask &&& (Tag.zombie.mask ||| Tag.idle.mask ||| stateReserved) ≠ 0 then (k, none)
  else
    match k.sched.current with
    | none => (k, none)
    | some parent =>
      match pcb with
      | none => (k, none)
      | some child => k.forkChild inheritMask parent child

/-- The kernel stack of a child can be allocated. -/
def System.kernelStackFree : Bool := (allocatePages k.pages stackPages).2 ≠ 0

/-- What the scheduler sees of a call: its state, and the pid or -1. -/
def scheduled (after : System × Option (BitVec 32)) : State × BitVec 32 :=
  (after.1.sched, after.2.getD (-1))

theorem forkChild_scheduled (parent child : Addr) :
    scheduled (k.forkChild inheritMask parent child) =
      forkChild k.sched inheritMask parent child k.kernelStackFree := by
  unfold System.forkChild forkChild
  dsimp only
  by_cases missing : (allocatePages k.pages stackPages).2 = 0
  · have noStack : k.kernelStackFree = false := decide_eq_false (not_not.mpr missing)
    rw [if_pos missing, if_pos noStack]
    rfl
  · have stack : ¬ k.kernelStackFree = false := fun none =>
      missing (not_not.mp (of_decide_eq_false none))
    rw [if_neg missing, if_neg stack]
    split
    · rfl
    · rfl

/-- With the stacks left out, a fork is the step of the scheduler's model. -/
theorem forkStatus_scheduled (flags : BitVec 32) (pcb : Option Addr) :
    scheduled (k.forkStatus inheritMask flags pcb) =
      forkStatus k.sched inheritMask flags pcb k.kernelStackFree := by
  unfold System.forkStatus forkStatus
  split
  · rfl
  · split
    · rfl
    · cases k.sched.current with
      | none => rfl
      | some parent =>
        cases pcb with
        | none => rfl
        | some child => exact forkChild_scheduled k inheritMask parent child

section Rebase

variable {orig base : Nat}

/-- The copy, with the bytes behind it that a word in it can reach, as a number. -/
def copyNumber (base : Nat) (mem : ByteMemory) : Nat := numberAt mem (stackSize + 3) base

theorem copyNumber_rebased (mem : ByteMemory) {p v' : Nat} (low : base ≤ p)
    (high : p < base + stackSize)
    (fits : v' < 4294967296) :
    (read32 mem p < v' → copyNumber base mem < copyNumber base (write32 mem p v')) ∧
      (v' < read32 mem p → copyNumber base (write32 mem p v') < copyNumber base mem) := by
  obtain ⟨shift, rfl⟩ := Nat.exists_eq_add_of_le low
  have changed : numberAt (write32 mem (base + shift) v') (stackSize + 3) base +
      read32 mem (base + shift) * 256 ^ shift =
        numberAt mem (stackSize + 3) base + v' * 256 ^ shift :=
    numberAt_write32 fits shift (by omega)
  have place : 0 < 256 ^ shift := Nat.pow_pos (by decide)
  unfold copyNumber
  constructor
  · intro more
    have larger := Nat.mul_lt_mul_of_pos_right more place
    omega
  · intro less
    have smaller := Nat.mul_lt_mul_of_pos_right less place
    omega

/-- How often the number can still move. -/
def movesLeft (orig base : Nat) (mem : ByteMemory) : Nat :=
  if orig < base then rebaseFuel - 1 - copyNumber base mem else copyNumber base mem

theorem copyNumber_lt (base : Nat) (mem : ByteMemory) : copyNumber base mem < rebaseFuel :=
  numberAt_lt

theorem movesLeft_rebased {mem mem' : ByteMemory}
    (up : orig < base → copyNumber base mem < copyNumber base mem')
    (down : ¬ orig < base → copyNumber base mem' < copyNumber base mem) :
    movesLeft orig base mem' < movesLeft orig base mem := by
  have bound := copyNumber_lt base mem'
  unfold movesLeft
  generalize rebaseFuel = fuel at bound ⊢
  split
  · next above =>
    omega
  · next below => exact down below

theorem movesLeft_lt (mem : ByteMemory) : movesLeft orig base mem < rebaseFuel := by
  have bound := copyNumber_lt base mem
  unfold movesLeft
  generalize rebaseFuel = fuel at bound ⊢
  split
  · omega
  · exact bound

/-- The address lies in the stack that starts at `bottom`. -/
def InStack (bottom address : Nat) : Prop := bottom ≤ address ∧ address < bottom + stackSize

theorem rebase_fewer (apart : orig ≠ base) (fitsBase : base + stackSize < 4294967296)
    {mem : ByteMemory} {p : Nat} (inside : InStack base p)
    (isPointer : InStack orig (read32 mem p)) :
    add32 base (sub32 (read32 mem p) orig) = base + (read32 mem p - orig) ∧
      movesLeft orig base (write32 mem p (base + (read32 mem p - orig))) <
        movesLeft orig base mem := by
  obtain ⟨low, high⟩ := isPointer
  have moved : add32 base (sub32 (read32 mem p) orig) = base + (read32 mem p - orig) := by
    rw [sub32_eq low (read32_lt mem p)]
    exact add32_eq (by omega)
  obtain ⟨up, down⟩ := copyNumber_rebased mem inside.1 inside.2
    (add32_lt base (sub32 (read32 mem p) orig))
  rw [moved] at up down
  exact ⟨moved, movesLeft_rebased (fun _ => up (by omega)) (fun _ => down (by omega))⟩

theorem rebaseLoop_succ (apart : orig ≠ base) (fitsOrig : orig + stackSize < 4294967296)
    (fitsBase : base + stackSize < 4294967296) (fuel : Nat) : ∀ (mem : ByteMemory) (p : Nat),
    movesLeft orig base mem < fuel →
      rebaseLoop orig base (fuel + 1) mem p = rebaseLoop orig base fuel mem p := by
  induction fuel with
  | zero => exact fun _ _ enough => absurd enough (Nat.not_lt_zero _)
  | succ fuel ih =>
    intro mem p enough
    rw [rebaseLoop, rebaseLoop.eq_def orig base (fuel + 1), add32_eq fitsOrig, add32_eq fitsBase]
    dsimp only
    split
    · next inside =>
      split
      · rfl
      · next isPointer =>
        rw [not_or, Nat.not_lt, Nat.not_le] at isPointer
        obtain ⟨moved, fewer⟩ := rebase_fewer apart fitsBase inside isPointer
        rw [moved]
        exact ih _ _ (by omega)
    · rfl

theorem rebaseLoop_ends (apart : orig ≠ base) (fitsOrig : orig + stackSize < 4294967296)
    (fitsBase : base + stackSize < 4294967296) (mem : ByteMemory) (p more : Nat) :
    rebaseLoop orig base (rebaseFuel + more) mem p = rebaseLoop orig base rebaseFuel mem p := by
  have left : movesLeft orig base mem < rebaseFuel := movesLeft_lt mem
  generalize rebaseFuel = fuel at left ⊢
  induction more with
  | zero => rfl
  | succ more ih =>
    have enough : movesLeft orig base mem < fuel + more :=
      Nat.lt_of_lt_of_le left (Nat.le_add_right _ _)
    rw [← ih]
    exact rebaseLoop_succ apart fitsOrig fitsBase (fuel + more) mem p enough

/-- The slots of the frame chain of the saved `ebp`, as the stack at `orig` links them. -/
inductive OnChain (mem : ByteMemory) (orig ebp : Nat) : Nat → Prop where
  | first (inside : InStack orig ebp) : OnChain mem orig ebp ebp
  | next {slot : Nat} (chained : OnChain mem orig ebp slot)
      (inside : InStack orig (read32 mem slot)) :
      OnChain mem orig ebp (read32 mem slot)

/-- The stack and its copy lie apart, and frame pointers into it are multiples of four. -/
structure Aligned (mem : ByteMemory) (orig base ebp : Nat) : Prop where
  apart : orig + stackSize ≤ base ∨ base + stackSize ≤ orig
  fitsOrig : orig + stackSize < 4294967296
  fitsBase : base + stackSize < 4294967296
  origWhole : orig % 4 = 0
  baseWhole : base % 4 = 0
  ebpWhole : ebp % 4 = 0
  words : ∀ slot, slot % 4 = 0 → InStack orig slot → InStack orig (read32 mem slot) →
    read32 mem slot % 4 = 0

variable {mem cur : ByteMemory} {ebp slot : Nat} {visited : Nat → Prop}

theorem OnChain.inStack (aligned : Aligned mem orig base ebp)
    (chained : OnChain mem orig ebp slot) :
    InStack orig slot ∧ slot % 4 = 0 := by
  induction chained with
  | first inside => exact ⟨inside, aligned.ebpWhole⟩
  | next _ inside ih => exact ⟨inside, aligned.words _ ih.2 ih.1 inside⟩

/-- The walk stands at the copy of `slot`, and has rebased the words of the visited slots. -/
structure Walked (mem cur : ByteMemory) (orig base ebp : Nat) (visited : Nat → Prop) (slot : Nat) :
    Prop where
  here : OnChain mem orig ebp slot
  chained : ∀ other, visited other → OnChain mem orig ebp other ∧ InStack orig (read32 mem other)
  started : visited ebp ∨ ebp = slot
  closed : ∀ other, visited other → visited (read32 mem other) ∨ read32 mem other = slot
  shifted : ∀ other, visited other →
    read32 cur (base + (other - orig)) = base + (read32 mem other - orig)
  kept : ∀ other, other % 4 = 0 → InStack orig other → ¬visited other →
    read32 cur (base + (other - orig)) = read32 mem other
  outside : ∀ i, ¬InStack base i → cur i = mem i

/-- The words of the chain that point into the stack are shifted, the others are as they were. -/
structure Rebased (mem final : ByteMemory) (orig base ebp : Nat) : Prop where
  shifted : ∀ slot, OnChain mem orig ebp slot → InStack orig (read32 mem slot) →
    read32 final (base + (slot - orig)) = base + (read32 mem slot - orig)
  kept : ∀ slot, slot % 4 = 0 → InStack orig slot →
    ¬(OnChain mem orig ebp slot ∧ InStack orig (read32 mem slot)) →
    read32 final (base + (slot - orig)) = read32 mem slot
  outside : ∀ i, ¬InStack base i → final i = mem i

theorem Walked.round (aligned : Aligned mem orig base ebp)
    (walked : Walked mem cur orig base ebp visited slot)
    (fresh : ¬visited slot) (inside : InStack orig (read32 mem slot)) :
    Walked mem (write32 cur (base + (slot - orig)) (base + (read32 mem slot - orig))) orig base ebp
      (fun other => visited other ∨ other = slot) (read32 mem slot) := by
  obtain ⟨⟨low, high⟩, whole⟩ := walked.here.inStack aligned
  have fits := aligned.fitsBase
  have origWhole := aligned.origWhole
  have baseWhole := aligned.baseWhole
  have elsewhere : ∀ other, other % 4 = 0 → InStack orig other → other ≠ slot →
      base + (slot - orig) + 4 ≤ base + (other - orig) ∨
      base + (other - orig) + 4 ≤ base + (slot - orig) := by
    rintro other multiple ⟨otherLow, otherHigh⟩ different
    omega
  refine ⟨walked.here.next inside, ?_, ?_, ?_, ?_, ?_, ?_⟩
  · rintro other (before | rfl)
    · exact walked.chained other before
    · exact ⟨walked.here, inside⟩
  · exact .inl walked.started
  · rintro other (before | rfl)
    · exact .inl (walked.closed other before)
    · exact .inr rfl
  · rintro other (before | rfl)
    · have place := (walked.chained other before).1.inStack aligned
      rw [read32_write32_other (elsewhere other place.2 place.1 fun same => fresh (same ▸ before))]
      exact walked.shifted other before
    · exact read32_write32_self (by have := inside.2; omega)
  · intro other multiple place unvisited
    rw [not_or] at unvisited
    rw [read32_write32_other (elsewhere other multiple place unvisited.2)]
    exact walked.kept other multiple place unvisited.1
  · intro i away
    unfold InStack at away
    unfold stackSize at away high
    rw [write32_other (by omega)]
    exact walked.outside i (by unfold InStack stackSize; exact away)

theorem Walked.done (walked : Walked mem cur orig base ebp visited slot)
    (stop : visited slot ∨ ¬InStack orig (read32 mem slot)) : Rebased mem cur orig base ebp := by
  have all : ∀ other, OnChain mem orig ebp other → visited other ∨ other = slot := by
    intro other chained
    induction chained with
    | first _ => exact walked.started
    | next _ inside ih =>
      rcases ih with before | rfl
      · exact walked.closed _ before
      · exact walked.closed _ (stop.resolve_right (not_not_intro inside))
  refine ⟨fun other chained inside => ?_, fun other multiple place notMoved => ?_, walked.outside⟩
  · rcases all other chained with before | rfl
    · exact walked.shifted other before
    · exact walked.shifted other (stop.resolve_right (not_not_intro inside))
  · exact walked.kept other multiple place fun before => notMoved (walked.chained other before)

theorem Walked.rebased (aligned : Aligned mem orig base ebp) (fuel : Nat) :
    ∀ {cur : ByteMemory} {visited : Nat → Prop} {slot : Nat},
    Walked mem cur orig base ebp visited slot → movesLeft orig base cur < fuel →
      Rebased mem (rebaseLoop orig base fuel cur (base + (slot - orig))) orig base ebp := by
  have apart := aligned.apart
  induction fuel with
  | zero => exact fun _ enough => absurd enough (Nat.not_lt_zero _)
  | succ fuel ih =>
    intro cur visited slot walked enough
    obtain ⟨⟨low, high⟩, whole⟩ := walked.here.inStack aligned
    have here : InStack base (base + (slot - orig)) := ⟨by omega, by omega⟩
    rw [rebaseLoop, add32_eq aligned.fitsOrig, add32_eq aligned.fitsBase, if_pos ⟨here.1, here.2⟩]
    dsimp only
    by_cases before : visited slot
    · have target := (walked.chained slot before).2
      unfold InStack at target
      rw [if_pos (by rw [walked.shifted slot before]; omega)]
      exact walked.done (.inl before)
    · have word := walked.kept slot whole ⟨low, high⟩ before
      by_cases inside : InStack orig (read32 mem slot)
      · have isPointer : InStack orig (read32 cur (base + (slot - orig))) := by rwa [word]
        obtain ⟨moved, fewer⟩ :=
          rebase_fewer (by unfold stackSize at apart; omega) aligned.fitsBase here isPointer
        unfold InStack at isPointer
        rw [if_neg (by omega), moved, word]
        rw [word] at fewer
        exact ih (walked.round aligned before inside) (by omega)
      · unfold InStack at inside
        rw [if_pos (by rw [word]; omega)]
        exact walked.done (.inr inside)

/-- The walk ends, and exactly the frame pointers of the chain into the stack are shifted. -/
theorem fork_rebases_chain (mem : ByteMemory) (orig base ebp : Nat) (typed : ebp < 4294967296)
    (aligned : Aligned mem orig base ebp) :
    let walk := fun fuel => rebaseLoop orig base fuel (copyBytes stackSize mem base orig)
      (add32 base (sub32 ebp orig))
    (∀ more, walk (rebaseFuel + more) = walk rebaseFuel) ∧
      Rebased mem (walk rebaseFuel) orig base ebp := by
  have apart := aligned.apart
  have fits := aligned.fitsBase
  have origWhole := aligned.origWhole
  have different : orig ≠ base := by
    unfold stackSize at apart
    omega
  have copied : ∀ slot, slot % 4 = 0 → InStack orig slot →
      read32 (copyBytes stackSize mem base orig) (base + (slot - orig)) = read32 mem slot := by
    rintro slot multiple ⟨low, high⟩
    unfold read32
    have byte : ∀ i, i < 4 → copyBytes stackSize mem base orig (base + (slot - orig) + i) =
        mem (slot + i) := by
      intro i few
      have inside : slot - orig + i < stackSize := by
        unfold stackSize at *
        omega
      rw [Nat.add_assoc, copyBytes_self (by omega) inside]
      congr 1
      omega
    have first := byte 0 (by omega)
    rw [Nat.add_zero, Nat.add_zero] at first
    rw [first, byte 1 (by omega), byte 2 (by omega), byte 3 (by omega)]
  have outside : ∀ i, ¬InStack base i → copyBytes stackSize mem base orig i = mem i := by
    intro i away
    unfold InStack at away
    exact copyBytes_other (by omega)
  refine ⟨rebaseLoop_ends different aligned.fitsOrig fits _ _, ?_⟩
  by_cases inside : InStack orig ebp
  · have start : add32 base (sub32 ebp orig) = base + (ebp - orig) := by
      rw [sub32_eq inside.1 typed]
      have := inside.2
      exact add32_eq (by omega)
    dsimp only
    rw [start]
    have begun : Walked mem (copyBytes stackSize mem base orig) orig base ebp
        (fun _ => False) ebp :=
      ⟨.first inside, nofun, .inr rfl, nofun, nofun,
        fun slot multiple place _ => copied slot multiple place,
        outside⟩
    exact begun.rebased aligned _ (movesLeft_lt _)
  · have elsewhere : ¬InStack base (add32 base (sub32 ebp orig)) := by
      have fitsOrig := aligned.fitsOrig
      unfold InStack add32 sub32 at *
      omega
    have noChain : ∀ slot, ¬OnChain mem orig ebp slot := by
      intro slot chained
      induction chained with
      | first isInside => exact inside isInside
      | next _ _ ih => exact ih
    have still : rebaseLoop orig base rebaseFuel (copyBytes stackSize mem base orig)
        (add32 base (sub32 ebp orig)) = copyBytes stackSize mem base orig := by
      have positive : 0 < rebaseFuel := Nat.zero_lt_of_lt (@movesLeft_lt orig base mem)
      obtain ⟨fuel, isFuel⟩ := Nat.exists_eq_succ_of_ne_zero positive.ne'
      rw [isFuel, rebaseLoop, add32_eq fits]
      exact if_neg elsewhere
    dsimp only
    rw [still]
    exact ⟨fun slot chained => absurd chained (noChain slot),
      fun slot multiple place _ => copied slot multiple place, outside⟩

/-- A saved frame pointer that names its own slot. -/
theorem fork_rebases_circle :
    Rebased (write32 (fun _ => 0) 65536 65536) (rebaseLoop 65536 131072 rebaseFuel
      (copyBytes stackSize (write32 (fun _ => 0) 65536 65536) 131072 65536)
      (add32 131072 (sub32 65536 65536))) 65536 131072 65536 := by
  refine (fork_rebases_chain _ 65536 131072 65536 (by decide) ⟨?_, ?_, ?_, ?_, ?_, ?_, ?_⟩).2
  all_goals try decide
  intro slot multiple place inside
  by_cases same : slot = 65536
  · rw [same, read32_write32_self (by decide)]
  · have zero : read32 (write32 (fun _ => 0) 65536 65536) slot = 0 := by
      rw [read32_write32_other (by unfold InStack at place; omega)]
      rfl
    rw [zero]

end Rebase

end M4KK1.Kernel
