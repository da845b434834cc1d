import M4KK1.Kernel.Fork

/-!
# What a fork leaves behind

A fork that fails puts back what it took; the stack pointer of the child is `fork_atomic_iff`.
-/

namespace M4KK1.Kernel

open M4KK1.Lib M4KK1.Mm Function List

/-- What a failed fork has to leave as it was. -/
structure Undone (k k' : System) : Prop where
  registry : k'.sched.allProcs = k.sched.allProcs
  ready : k'.sched.ready = k.sched.ready
  count : k'.sched.processCount = k.sched.processCount
  pages : ∀ page, FreePage k'.pages.zone page ↔ FreePage k.pages.zone page
  blocks : ∀ pfn order, FreeBlock k'.pages.zone pfn order ↔ FreeBlock k.pages.zone pfn order

/-- Where a process has its kernel stack. -/
def Stacks.kernelBottom (own : Stacks) : Nat := sub32 own.kernelStack stackSize

/-- The user's stack pointer in the frame that the process resumes with. -/
def System.savedEsp (k : System) (p : Addr) : Nat := read32 k.mem ((k.stackOf p).threadEsp + 60)

/-- The address is on one of the two stacks. -/
def Stacks.Has (own : Stacks) (address : Nat) : Prop :=
  InStack own.kernelBottom address ∨ own.userStackBase ≠ 0 ∧ InStack own.userStackBase address

/-- The stack pointers of a new process lie in stacks of its own, which were free before. -/
structure OnOwnStacks (k k' : System) (parent child : Addr) : Prop where
  thread : InStack (k'.stackOf child).kernelBottom (k'.stackOf child).threadEsp
  user : (k'.stackOf child).userStackBase ≠ 0 ∧
    InStack (k'.stackOf child).userStackBase (k'.savedEsp child)
  taken : ∀ address, (k'.stackOf child).Has address →
    FreePage k.pages.zone (address / pageSize) ∧ ¬ FreePage k'.pages.zone (address / pageSize)
  apart : ¬ (k.stackOf parent).Has (k'.stackOf child).threadEsp ∧
    ¬ (k.stackOf parent).Has (k'.savedEsp child)

/-- What a call of `mkrn_fork_status` should do. -/
structure ForksRight (k : System) (inheritMask : BitVec 64) (flags : BitVec 32)
    (pcb : Option Addr) :
    Prop where
  undone : (k.forkStatus inheritMask flags pcb).2 = none →
    Undone k (k.forkStatus inheritMask flags pcb).1
  own : ∀ pid parent child, (k.forkStatus inheritMask flags pcb).2 = some pid →
    k.sched.current = some parent → pcb = some child →
    OnOwnStacks k (k.forkStatus inheritMask flags pcb).1 parent child

theorem pushWords_spec (words : List Nat) : ∀ (mem : ByteMemory) (f : Nat),
    4 * words.length ≤ f → f < 4294967296 → (∀ word ∈ words, word < 4294967296) →
      (pushWords mem f words).2 = f - 4 * words.length ∧
      (∀ address, f ≤ address → (pushWords mem f words).1 address = mem address) ∧
      ∀ i (inside : i < words.length),
        read32 (pushWords mem f words).1 (f - 4 * (i + 1)) = words.get ⟨i, inside⟩ := by
  induction words with
  | nil =>
    exact fun _ _ _ _ _ => ⟨rfl, fun _ _ => rfl, fun _ inside => absurd inside (Nat.not_lt_zero _)⟩
  | cons word words ih =>
    intro mem f room small fits
    rw [length_cons] at room
    have down : sub32 f 4 = f - 4 := sub32_eq (by omega) small
    obtain ⟨ends, above, placed⟩ := ih (write32 mem (f - 4) word) (f - 4) (by omega) (by omega)
      fun other member => fits other (mem_cons_of_mem _ member)
    rw [pushWords, down]
    refine ⟨?_, ?_, ?_⟩
    · rw [ends, length_cons]
      omega
    · intro address high
      rw [above address (by omega), write32_other (by omega)]
    · intro i inside
      cases i with
      | zero =>
        have kept : read32 (pushWords (write32 mem (f - 4) word) (f - 4) words).1 (f - 4) =
            read32 (write32 mem (f - 4) word) (f - 4) :=
          read32_congr fun address low _ => above address low
        exact kept.trans (read32_write32_self (fits word mem_cons_self))
      | succ i =>
        have place : f - 4 * (i + 1 + 1) = f - 4 - 4 * (i + 1) := by omega
        rw [place]
        exact placed i (Nat.lt_of_succ_lt_succ inside)

theorem pushWords_resume (mem : ByteMemory) {top esp ebp : Nat} (frame : UserFrame)
    (childRestore : BitVec 32) (room : 68 ≤ top) (small : top < 4294967296)
    (espFits : esp < 4294967296)
    (ebpFits : ebp < 4294967296) :
    (pushWords mem top (resumeWords frame esp ebp childRestore)).2 = top - 68 ∧
      read32 (pushWords mem top (resumeWords frame esp ebp childRestore)).1 (top - 8) = esp := by
  have fits : ∀ word ∈ resumeWords frame esp ebp childRestore, word < 4294967296 := by
    simp only [resumeWords, cons_append, nil_append, forall_mem_cons]
    refine ⟨frame.ss.isLt, espFits, frame.eflags.isLt, frame.cs.isLt, frame.eip.isLt, ebpFits, ?_⟩
    simp [childRestore.isLt]
  obtain ⟨ends, -, placed⟩ := pushWords_spec (resumeWords frame esp ebp childRestore) mem top
    (show 4 * 17 ≤ top from room) small fits
  exact ⟨ends, placed 1 (show 1 < 17 by decide)⟩

section Pages

variable {base nr : Nat} {seeded : Nat → Prop} {blocks : BlockMap 10 base nr} {pages : Pages}
  {live : List (Nat × Nat)}

theorem allocate_stack (geometry : Geometry base nr)
    (conserves : Conserves seeded blocks ⟨pages, live⟩) :
    allocatePages pages stackPages = (pages, 0) ∨
      ∃ (after : Pages) (pfn : Nat) (blocks' : BlockMap 10 base nr),
        allocatePages pages stackPages = (after, pfn * 4096) ∧ base ≤ pfn ∧ pfn + 16 ≤ base + nr ∧
        Conserves seeded blocks' ⟨after, (pfn * 4096, stackPages) :: live⟩ ∧
        ∀ page, pfn ≤ page → page < pfn + 16 → blocks.Covers page := by
  rcases allocatePages_spec geometry (show 1 ≤ stackPages by decide) (by decide)
    conserves.represents conserves.coalesced with failed | ⟨after, pfn, done, low, high, covered, -⟩
  · exact .inl failed
  · have positive := geometry.positive
    have success : pfn * 4096 ≠ 0 := by omega
    obtain ⟨blocks', conserves'⟩ := conserves.allocate geometry (by decide) (by decide) done success
    exact .inr ⟨after, pfn, blocks', done, low, high, conserves', covered⟩

theorem not_free_held (conserves : Conserves seeded blocks ⟨pages, live⟩) {pfn address : Nat}
    (held : (pfn * 4096, stackPages) ∈ live) (inside : InStack (pfn * 4096) address) :
    ¬ FreePage pages.zone (address / pageSize) := by
  have frame : Mm.held (pfn * 4096, stackPages) = (pfn, stackPages) := by simp [Mm.held]
  intro free
  refine conserves.busy _ ⟨_, held, ?_⟩ ((conserves.freePage_iff _).mp free)
  rw [frame]
  unfold InStack stackSize at inside
  unfold Extent.Has pageSize stackPages
  dsimp only
  omega

theorem free_taken (conserves : Conserves seeded blocks ⟨pages, live⟩) {pfn address : Nat}
    (covered : ∀ page, pfn ≤ page → page < pfn + 16 → blocks.Covers page)
    (inside : InStack (pfn * 4096) address) : FreePage pages.zone (address / pageSize) := by
  rw [conserves.freePage_iff]
  unfold InStack stackSize at inside
  unfold pageSize
  exact covered _ (by omega) (by omega)

end Pages

section Fork

variable {k : System} {inheritMask : BitVec 64} {flags : BitVec 32} {pcb : Option Addr}
  {parent child : Addr}

/-- The scheduler's data that a failed fork has to leave as they were. -/
structure SameSched (s s' : State) : Prop where
  registry : s'.allProcs = s.allProcs
  ready : s'.ready = s.ready
  count : s'.processCount = s.processCount

/-- The child's stacks when it has its kernel stack, and before it has a user stack. -/
def ownStacks (k : System) (parent : Addr) : Stacks :=
  { Stacks.zero with
    userFrame := (k.stackOf parent).userFrame
    memKb := (k.stackOf parent).memKb
    kernelStack := add32 (allocatePages k.pages stackPages).2 stackSize }

def userStack (k : System) (parent : Addr) : UserStack :=
  forkUserStack (k.stackOf parent) (ownStacks k parent) (allocatePages k.pages stackPages).1 k.mem

def resumeFrame (k : System) (parent : Addr) : ByteMemory × Nat :=
  pushWords (userStack k parent).mem (ownStacks k parent).kernelStack
    (resumeWords (k.stackOf parent).userFrame (userStack k parent).esp (userStack k parent).ebp
      k.childRestore)

/-- The pages after a fork that a full queue undoes. -/
def undonePages (k : System) (parent : Addr) : Pages :=
  let user := userStack k parent
  let pages := freePages user.pages (sub32 user.own.kernelStack stackSize) stackPages
  if user.own.userStackBase ≠ 0 then freePages pages user.own.userStackBase stackPages else pages

theorem forkChild_cases (k : System) (inheritMask : BitVec 64) (apart : parent ≠ child) :
    (allocatePages k.pages stackPages).2 = 0 ∧ (k.forkChild inheritMask parent child).2 = none ∧
        SameSched k.sched (k.forkChild inheritMask parent child).1.sched ∧
        (k.forkChild inheritMask parent child).1.pages = (allocatePages k.pages stackPages).1 ∨
    (allocatePages k.pages stackPages).2 ≠ 0 ∧ readyQueueSize ≤ k.sched.ready.count ∧
        (k.forkChild inheritMask parent child).2 = none ∧
        SameSched k.sched (k.forkChild inheritMask parent child).1.sched ∧
        (k.forkChild inheritMask parent child).1.pages = undonePages k parent ∨
    (allocatePages k.pages stackPages).2 ≠ 0 ∧ k.sched.ready.count < readyQueueSize ∧
        (k.forkChild inheritMask parent child).2 = some k.sched.nextPid ∧
        (k.forkChild inheritMask parent child).1.pages = (userStack k parent).pages ∧
        (k.forkChild inheritMask parent child).1.mem = (resumeFrame k parent).1 ∧
        (k.forkChild inheritMask parent child).1.stackOf child =
          { (userStack k parent).own with threadEsp := (resumeFrame k parent).2 } := by
  have isParent : update k.stackOf child Stacks.zero parent = k.stackOf parent :=
    update_of_ne apart _ _
  unfold System.forkChild undonePages resumeFrame userStack ownStacks
  dsimp only
  rw [isParent]
  split
  · next failed => exact .inl ⟨failed, rfl, ⟨rfl, rfl, rfl⟩, rfl⟩
  · next got =>
    refine .inr ?_
    split
    · next full =>
      exact .inl ⟨got, full, rfl, ⟨erase_cons_head _ _, rfl, BitVec.add_sub_cancel _ _⟩, rfl⟩
    · next room =>
      exact .inr ⟨got, Nat.lt_of_not_le room, rfl, rfl, rfl, update_self _ _ _⟩

/-- The child gets a user stack of its own: its parent has one, and there are pages for it. -/
def GetsUserStack (k : System) (parent : Addr) : Prop :=
  (k.stackOf parent).userStackBase ≠ 0 ∧
    (allocatePages (allocatePages k.pages stackPages).1 stackPages).2 ≠ 0

def OnUserStack (k : System) (parent : Addr) : Prop :=
  InStack (k.stackOf parent).userStackBase (k.stackOf parent).userFrame.esp.toNat

theorem userStack_cases (k : System) (parent : Addr) :
    ¬ GetsUserStack k parent ∧ (userStack k parent).own = ownStacks k parent ∧
        ((userStack k parent).pages = (allocatePages k.pages stackPages).1 ∨
          (allocatePages (allocatePages k.pages stackPages).1 stackPages).2 = 0 ∧
            (userStack k parent).pages =
              (allocatePages (allocatePages k.pages stackPages).1 stackPages).1) ∧
        (userStack k parent).esp < 4294967296 ∧ (userStack k parent).ebp < 4294967296 ∨
      GetsUserStack k parent ∧ (userStack k parent).own.userStackBase =
          (allocatePages (allocatePages k.pages stackPages).1 stackPages).2 ∧
        (userStack k parent).own.kernelStack = (ownStacks k parent).kernelStack ∧
        (userStack k parent).pages =
          (allocatePages (allocatePages k.pages stackPages).1 stackPages).1 ∧
        (userStack k parent).esp =
          add32 (allocatePages (allocatePages k.pages stackPages).1 stackPages).2
          (sub32 (k.stackOf parent).userFrame.esp.toNat (k.stackOf parent).userStackBase) ∧
        (userStack k parent).ebp < 4294967296 := by
  have espFits := (k.stackOf parent).userFrame.esp.isLt
  have ebpFits := (k.stackOf parent).userFrame.ebp.isLt
  unfold userStack forkUserStack GetsUserStack
  split
  · next missing => exact .inl ⟨fun gets => gets.1 missing, rfl, .inl rfl, espFits, ebpFits⟩
  · next present =>
    dsimp only
    split
    · next failed =>
        exact .inl ⟨fun gets => gets.2 failed, rfl, .inr ⟨failed, rfl⟩, espFits, ebpFits⟩
    · next got => exact .inr ⟨⟨present, got⟩, rfl, rfl, rfl, rfl, add32_lt _ _⟩

/-- The stacks of a process are memory that is in use. -/
structure HoldsStacks (k : System) (p : Addr) : Prop where
  fits : (k.stackOf p).userStackBase + stackSize ≤ 4294967296
  busy : ∀ address, (k.stackOf p).Has address → ¬ FreePage k.pages.zone (address / pageSize)

/-! ### A fork that fails -/

section Undone

variable {base nr : Nat} {seeded : Nat → Prop} {blocks : BlockMap 10 base nr}
    {live : List (Nat × Nat)}

theorem live_of_perm {pages pages' : Pages} {left right : List (Nat × Nat)} (same : left.Perm right)
    (page : Nat) : PageSystem.Live ⟨pages, left⟩ page ↔ PageSystem.Live ⟨pages', right⟩ page := by
  simp only [PageSystem.Live, same.mem_iff]

theorem undonePages_kernel (geometry : Geometry base nr)
    {pages : Pages} (conserves : Conserves seeded blocks ⟨pages, live⟩)
    {blocks' : BlockMap 10 base nr}
    {after : Pages} {address : Nat}
    (conserves' : Conserves seeded blocks' ⟨after, (address, stackPages) :: live⟩)
    (pfn order : Nat) :
    FreeBlock (freePages after address stackPages).zone pfn order ↔
    FreeBlock pages.zone pfn order := by
  obtain ⟨restored, back⟩ := conserves'.free geometry mem_cons_self
  refine back.freeBlock_of_live conserves (fun page => ?_) pfn order
  apply live_of_perm
  dsimp only
  rw [erase_cons_head]

theorem undonePages_both (geometry : Geometry base nr)
    {pages : Pages} (conserves : Conserves seeded blocks ⟨pages, live⟩)
    {blocks' : BlockMap 10 base nr}
    {after : Pages} {kernel user : Nat}
    (conserves' :
      Conserves seeded blocks' ⟨after, (user, stackPages) :: (kernel, stackPages) :: live⟩)
    (pfn order : Nat) :
    FreeBlock (freePages (freePages after kernel stackPages) user stackPages).zone pfn order ↔
      FreeBlock pages.zone pfn order := by
  have swapped : ((user, stackPages) :: (kernel, stackPages) :: live).Perm
      ((kernel, stackPages) :: (user, stackPages) :: live) := List.Perm.swap _ _ _
  have kept : (((user, stackPages) :: (kernel, stackPages) :: live).erase (kernel, stackPages)).Perm
      ((user, stackPages) :: live) := by
    have erased := swapped.erase (kernel, stackPages)
    rwa [erase_cons_head] at erased
  obtain ⟨first, back⟩ := conserves'.free geometry (mem_cons_of_mem _ mem_cons_self)
  obtain ⟨restored, back'⟩ := back.free geometry (kept.mem_iff.mpr mem_cons_self)
  refine back'.freeBlock_of_live conserves (fun page => ?_) pfn order
  apply live_of_perm
  have erased := kept.erase (user, stackPages)
  rwa [erase_cons_head] at erased

theorem freePage_of_freeBlock {z z' : Zone}
    (same : ∀ pfn order, FreeBlock z' pfn order ↔ FreeBlock z pfn order) (page : Nat) :
    FreePage z' page ↔ FreePage z page := by
  simp only [FreePage, same]

theorem stack_fits {pfn : Nat} (below : base + nr < 1048576) (high : pfn + 16 ≤ base + nr) :
    pfn * 4096 + stackSize < 4294967296 := by
  unfold stackSize
  omega

theorem ownStacks_bottom (k : System) (parent : Addr) {address : Nat}
    (isFirst : (allocatePages k.pages stackPages).2 = address)
    (fits : address + stackSize < 4294967296) :
    (ownStacks k parent).kernelStack = address + stackSize ∧
      sub32 (ownStacks k parent).kernelStack stackSize = address := by
  have top : (ownStacks k parent).kernelStack = address + stackSize := by
    rw [ownStacks, isFirst]
    exact add32_eq fits
  refine ⟨top, ?_⟩
  rw [top, sub32_eq (Nat.le_add_left _ _) fits, Nat.add_sub_cancel]

theorem undonePages_blocks (geometry : Geometry base nr) (below : base + nr < 1048576)
    (conserves : Conserves seeded blocks ⟨k.pages, live⟩)
    (got : (allocatePages k.pages stackPages).2 ≠ 0) (pfn order : Nat) :
    FreeBlock (undonePages k parent).zone pfn order ↔ FreeBlock k.pages.zone pfn order := by
  rcases allocate_stack geometry conserves with failed | ⟨after, first, blocks', done, low, high,
    conserves', -⟩
  · rw [failed] at got
    exact absurd rfl got
  · have isFirst : (allocatePages k.pages stackPages).2 = first * 4096 := by rw [done]
    obtain ⟨-, bottom⟩ := ownStacks_bottom k parent isFirst (stack_fits below high)
    rw [undonePages]
    rcases userStack_cases k parent with ⟨-, own, pages, -⟩ | ⟨⟨-, gets⟩, isBase, top, pages, -⟩
    · have none : (userStack k parent).own.userStackBase = 0 := by rw [own]; rfl
      have same : (userStack k parent).pages = after := by
        rcases pages with same | ⟨failed, same⟩
        · rw [same, done]
        · rw [done] at failed same
          rcases allocate_stack geometry conserves' with unchanged | ⟨_, second, _, done', low', -⟩
          · rw [same, unchanged]
          · rw [done'] at failed
            have positive := geometry.positive
            omega
      simp only [none, ne_eq, not_true_eq_false, if_false]
      rw [same, own, bottom]
      exact undonePages_kernel geometry conserves conserves' pfn order
    · rw [done] at gets isBase pages
      rcases allocate_stack geometry conserves' with
        failed | ⟨after', second, blocks'', done', -, -, conserves'', -⟩
      · rw [failed] at gets
        exact absurd rfl gets
      · rw [done'] at gets isBase pages
        simp only [isBase, ne_eq, gets, not_false_eq_true, if_true]
        rw [pages, top, bottom]
        exact undonePages_both geometry conserves conserves'' pfn order

theorem forkChild_undone (inheritMask : BitVec 64) (geometry : Geometry base nr)
    (below : base + nr < 1048576)
    (conserves : Conserves seeded blocks ⟨k.pages, live⟩) (apart : parent ≠ child)
    (failed : (k.forkChild inheritMask parent child).2 = none) :
    Undone k (k.forkChild inheritMask parent child).1 := by
  rcases forkChild_cases k inheritMask apart with
    ⟨noStack, -, same, pages⟩ | ⟨got, -, -, same, pages⟩ | ⟨-, -, success, -⟩
  · have unchanged : (allocatePages k.pages stackPages).1 = k.pages := by
      rcases allocate_stack geometry conserves with unchanged | ⟨_, first, _, done, low, -⟩
      · rw [unchanged]
      · rw [done] at noStack
        have positive := geometry.positive
        omega
    refine ⟨same.registry, same.ready, same.count, ?_, ?_⟩
    · rw [pages, unchanged]
      exact fun _ => Iff.rfl
    · rw [pages, unchanged]
      exact fun _ _ => Iff.rfl
  · have blocks : ∀ pfn order,
      FreeBlock (k.forkChild inheritMask parent child).1.pages.zone pfn order ↔
        FreeBlock k.pages.zone pfn order := by
      rw [pages]
      exact undonePages_blocks geometry below conserves got
    exact ⟨same.registry, same.ready, same.count, freePage_of_freeBlock blocks, blocks⟩
  · rw [success] at failed
    exact nomatch failed

end Undone

/-! ### A fork that succeeds -/

section Success

variable {base nr : Nat} {seeded : Nat → Prop} {blocks : BlockMap 10 base nr}
    {live : List (Nat × Nat)}

theorem covers_of_held {pages after : Pages} {blocks' : BlockMap 10 base nr} {block : Nat × Nat}
    (conserves : Conserves seeded blocks ⟨pages, live⟩)
    (conserves' : Conserves seeded blocks' ⟨after, block :: live⟩) {page : Nat}
    (covers : blocks'.Covers page) : blocks.Covers page := by
  obtain ⟨isSeeded, idle⟩ := (conserves'.covers_iff page).mp covers
  refine (conserves.covers_iff page).mpr ⟨isSeeded, ?_⟩
  rintro ⟨other, member, inOther⟩
  exact idle ⟨other, mem_cons_of_mem _ member, inOther⟩

theorem inStack_rebased {copy orig esp : Nat} (fits : copy + stackSize < 4294967296)
    (fits' : orig + stackSize ≤ 4294967296) (small : esp < 4294967296) :
    InStack copy (add32 copy (sub32 esp orig)) ↔ InStack orig esp := by
  unfold InStack add32 sub32 stackSize at *
  omega

theorem resumeFrame_spec (parent : Addr) {address : Nat}
    (isFirst : (allocatePages k.pages stackPages).2 = address)
    (fits : address + stackSize < 4294967296) :
    (resumeFrame k parent).2 = address + stackSize - 68 ∧
      read32 (resumeFrame k parent).1 ((resumeFrame k parent).2 + 60) =
        (userStack k parent).esp := by
  obtain ⟨top, -⟩ := ownStacks_bottom k parent isFirst fits
  have espFits : (userStack k parent).esp < 4294967296 := by
    rcases userStack_cases k parent with ⟨-, -, -, small, -⟩ | ⟨-, -, -, -, isEsp, -⟩
    · exact small
    · rw [isEsp]
      exact add32_lt _ _
  have ebpFits : (userStack k parent).ebp < 4294967296 := by
    rcases userStack_cases k parent with ⟨-, -, -, -, small⟩ | ⟨-, -, -, -, -, small⟩
    · exact small
    · exact small
  have room : 68 ≤ address + stackSize := by
    unfold stackSize
    omega
  rw [resumeFrame, top]
  obtain ⟨ends, second⟩ := pushWords_resume (userStack k parent).mem (k.stackOf parent).userFrame
    k.childRestore room fits espFits ebpFits
  refine ⟨ends, ?_⟩
  have place : address + stackSize - 68 + 60 = address + stackSize - 8 := by omega
  rw [ends, place]
  exact second

theorem forkChild_own (inheritMask : BitVec 64) (geometry : Geometry base nr)
    (below : base + nr < 1048576)
    (conserves : Conserves seeded blocks ⟨k.pages, live⟩) (apart : parent ≠ child)
    (holds : HoldsStacks k parent) {pid : BitVec 32}
    (success : (k.forkChild inheritMask parent child).2 = some pid) :
    OnOwnStacks k (k.forkChild inheritMask parent child).1 parent child ↔
      GetsUserStack k parent ∧ OnUserStack k parent := by
  rcases forkChild_cases k inheritMask apart with
    ⟨-, failed, -⟩ | ⟨-, -, failed, -⟩ | ⟨got, -, -, pages, mem, own⟩
  · rw [failed] at success
    exact nomatch success
  · rw [failed] at success
    exact nomatch success
  generalize (k.forkChild inheritMask parent child).1 = k' at pages mem own
  rcases allocate_stack geometry conserves with failed | ⟨after, first, blocks', done, low, high,
    conserves', covered⟩
  · rw [failed] at got
    exact absurd rfl got
  have isFirst : (allocatePages k.pages stackPages).2 = first * 4096 := by rw [done]
  have fits := stack_fits below high
  obtain ⟨top, bottom⟩ := ownStacks_bottom k parent isFirst fits
  obtain ⟨isThread, isSaved⟩ := resumeFrame_spec parent isFirst fits
  have saved : k'.savedEsp child = (userStack k parent).esp := by
    rw [System.savedEsp, own, mem]
    exact isSaved
  have thread : InStack (first * 4096) (k'.stackOf child).threadEsp := by
    rw [own]
    dsimp only
    rw [isThread]
    unfold InStack stackSize
    omega
  rcases userStack_cases k parent with ⟨without, isOwn, -⟩ | ⟨gets, isBase, isTop, isPages, isEsp,
    -⟩
  · refine ⟨fun onOwn => ?_, fun both => absurd both.1 without⟩
    have base := onOwn.user.1
    rw [own, isOwn] at base
    exact absurd rfl base
  · have kernel : (k'.stackOf child).kernelBottom = first * 4096 := by
      rw [Stacks.kernelBottom, own]
      dsimp only
      rw [isTop]
      exact bottom
    have noFail := gets.2
    rw [done] at noFail isBase isPages isEsp
    rcases allocate_stack geometry conserves' with
      failed | ⟨after', second, blocks'', done', low', high', conserves'', covered'⟩
    · rw [failed] at noFail
      exact absurd rfl noFail
    rw [done'] at noFail isBase isPages isEsp
    have user : (k'.stackOf child).userStackBase = second * 4096 := by
      rw [own]
      exact isBase
    have fits' := stack_fits below high'
    have rebased := inStack_rebased fits' holds.fits (k.stackOf parent).userFrame.esp.isLt
    rw [← isEsp, ← saved] at rebased
    constructor
    · intro onOwn
      have inUser := onOwn.user.2
      rw [user] at inUser
      exact ⟨gets, rebased.mp inUser⟩
    · rintro ⟨-, onUser⟩
      have inUser := rebased.mpr onUser
      have wasFree : ∀ address, (k'.stackOf child).Has address →
          FreePage k.pages.zone (address / pageSize) ∧
          ¬ FreePage k'.pages.zone (address / pageSize) := by
        intro address has
        rw [pages, isPages]
        rcases has with inKernel | ⟨-, inUser⟩
        · rw [kernel] at inKernel
          exact ⟨free_taken conserves covered inKernel,
            not_free_held conserves'' (mem_cons_of_mem _ mem_cons_self) inKernel⟩
        · rw [user] at inUser
          refine ⟨?_, not_free_held conserves'' mem_cons_self inUser⟩
          exact free_taken conserves
            (fun page low high => covers_of_held conserves conserves' (covered' page low high))
              inUser
      have hasThread : (k'.stackOf child).Has (k'.stackOf child).threadEsp := .inl (kernel ▸ thread)
      have hasSaved : (k'.stackOf child).Has (k'.savedEsp child) :=
        .inr ⟨user ▸ noFail, user ▸ inUser⟩
      refine ⟨kernel ▸ thread, ⟨user ▸ noFail, user ▸ inUser⟩, wasFree, ?_, ?_⟩
      · exact fun inParent => holds.busy _ inParent (wasFree _ hasThread).1
      · exact fun inParent => holds.busy _ inParent (wasFree _ hasSaved).1

end Success

/-! ### The calls -/

/-- A call that gets everything that it must have. -/
structure Forks (k : System) (inheritMask : BitVec 64) (flags : BitVec 32) (pcb : Option Addr) :
    Prop where
  wanted : flags &&& rfproc ≠ 0
  allowed : inheritMask &&& (Tag.zombie.mask ||| Tag.idle.mask ||| stateReserved) = 0
  caller : k.sched.current ≠ none
  block : pcb ≠ none
  stack : (allocatePages k.pages stackPages).2 ≠ 0
  room : k.sched.ready.count < readyQueueSize

theorem Undone.refl (k : System) : Undone k k :=
  ⟨rfl, rfl, rfl, fun _ => Iff.rfl, fun _ _ => Iff.rfl⟩

theorem forkStatus_reaches (k : System) (inheritMask : BitVec 64) (flags : BitVec 32)
    (pcb : Option Addr) :
    k.forkStatus inheritMask flags pcb = (k, none) ∧ ¬ Forks k inheritMask flags pcb ∨
      ∃ parent child, k.sched.current = some parent ∧ pcb = some child ∧
        k.forkStatus inheritMask flags pcb = k.forkChild inheritMask parent child ∧
        (Forks k inheritMask flags pcb ↔ (allocatePages k.pages stackPages).2 ≠ 0 ∧
          k.sched.ready.count < readyQueueSize) := by
  rw [System.forkStatus]
  split
  · next unwanted => exact .inl ⟨rfl, fun forks => forks.wanted unwanted⟩
  · next wanted =>
    split
    · next forbidden => exact .inl ⟨rfl, fun forks => forbidden forks.allowed⟩
    · next allowed =>
      cases isCurrent : k.sched.current with
      | none => exact .inl ⟨rfl, fun forks => forks.caller isCurrent⟩
      | some parent =>
        cases pcb with
        | none => exact .inl ⟨rfl, fun forks => forks.block rfl⟩
        | some child =>
          refine .inr ⟨parent, child, rfl, rfl, rfl, fun forks => ⟨forks.stack, forks.room⟩, ?_⟩
          rintro ⟨stack, room⟩
          exact ⟨wanted, not_not.mp allowed, by rw [isCurrent]; nofun, nofun, stack, room⟩

/-- A fork is all or nothing exactly when a call that gets all it must have also gets a user
stack. -/
theorem fork_atomic_iff {base nr : Nat} (geometry : Geometry base nr) (below : base + nr < 1048576)
    {k : System} {live : List (Nat × Nat)} (reachable : ReachablePages base nr ⟨k.pages, live⟩)
    (inheritMask : BitVec 64) (flags : BitVec 32) (pcb : Option Addr)
    (fresh : ∀ child, pcb = some child → k.sched.current ≠ some child)
    (holds : ∀ parent, k.sched.current = some parent → HoldsStacks k parent) :
    ForksRight k inheritMask flags pcb ↔ (Forks k inheritMask flags pcb →
      ∀ parent, k.sched.current = some parent → GetsUserStack k parent ∧ OnUserStack k parent) := by
  obtain ⟨ranges, start, actions, seeds, isFresh, run⟩ := reachable
  obtain ⟨blocks, conserves⟩ := reachable_conserves geometry seeds isFresh run
  rcases forkStatus_reaches k inheritMask flags pcb with
    ⟨refused, failed⟩ | ⟨parent, child, isCurrent, rfl, reaches, forksIff⟩
  · refine ⟨fun _ forks => absurd forks failed, fun _ => ⟨?_, ?_⟩⟩
    · rw [refused]
      exact fun _ => Undone.refl k
    · rw [refused]
      exact fun _ _ _ success => nomatch success
  · have apart : parent ≠ child := by
      rintro rfl
      exact fresh parent rfl isCurrent
    have undone := forkChild_undone inheritMask geometry below conserves apart
    have own : ∀ {pid}, (k.forkChild inheritMask parent child).2 = some pid →
        (OnOwnStacks k (k.forkChild inheritMask parent child).1 parent child ↔
          GetsUserStack k parent ∧ OnUserStack k parent) :=
      forkChild_own inheritMask geometry below conserves apart (holds parent isCurrent)
    have ends := forkChild_cases k inheritMask apart
    rw [forksIff]
    constructor
    · rintro ⟨-, onOwn⟩ ⟨stack, room⟩ other isOther
      obtain rfl := Option.some.inj (isCurrent.symm.trans isOther)
      rcases ends with ⟨failed, -⟩ | ⟨-, full, -⟩ | ⟨-, -, success, -⟩
      · exact absurd failed stack
      · exact absurd full (Nat.not_le_of_lt room)
      · rw [reaches] at onOwn
        exact (own success).mp (onOwn _ parent child success isCurrent rfl)
    · intro condition
      refine ⟨?_, ?_⟩
      · rw [reaches]
        exact undone
      · rw [reaches]
        intro pid other child' success isOther isChild
        obtain rfl := Option.some.inj (isCurrent.symm.trans isOther)
        obtain rfl := Option.some.inj isChild
        refine (own success).mpr (condition ?_ parent isCurrent)
        rcases ends with ⟨-, failed, -⟩ | ⟨-, -, failed, -⟩ | ⟨stack, room, -⟩
        · rw [failed] at success
          exact nomatch success
        · rw [failed] at success
          exact nomatch success
        · exact ⟨stack, room⟩

end Fork

def bootStacks : Stacks :=
  ⟨0x10FFBC, 0x110000, 0x120000, ⟨0x400000, 0x23, 0x202, 0x12FF00, 0x2B, 0x12FF20⟩, 64⟩

/-- The first process, with these pages. -/
def bootSystem (pages : Pages) : System where
  sched := boot 4096
  stackOf := fun _ => bootStacks
  pages := pages
  mem := fun _ => 0
  childRestore := 0

theorem bootSystem_holds {pages : Pages} (zone : pages.zone.basePfn = 16384) (parent : Addr) :
    HoldsStacks (bootSystem pages) parent := by
  refine ⟨show bootStacks.userStackBase + stackSize ≤ 4294967296 by decide, ?_⟩
  rintro address has ⟨pfn, order, ⟨low, -⟩, inBlock, -⟩
  have isZone : (bootSystem pages).pages.zone.basePfn = 16384 := zone
  rw [isZone] at low
  have outside : address < 0x130000 := by
    have kernel : bootStacks.kernelBottom + stackSize = 0x110000 := by decide
    have user : bootStacks.userStackBase + stackSize = 0x130000 := by decide
    rcases has with ⟨-, below⟩ | ⟨-, -, below⟩
    · exact Nat.lt_trans (Nat.lt_of_lt_of_eq below kernel) (by decide)
    · exact Nat.lt_of_lt_of_eq below user
  unfold pageSize at inBlock
  dsimp only at inBlock
  omega

def roomyPages : Pages :=
  ⟨seed (emptyZone 16384 64 (fun _ => 0) fun _ => 0) [(16384, 64)], 262144, 0⟩

theorem roomyPages_reachable : ReachablePages 16384 64 ⟨roomyPages, []⟩ := by
  refine ⟨[(16384, 64)], ⟨roomyPages, []⟩, [], ⟨?_, pairwise_singleton _ _⟩, ?_, Steps.refl⟩
  · intro range member
    obtain rfl := mem_singleton.mp member
    exact ⟨Nat.le_refl _, Nat.le_refl _⟩
  · exact ⟨⟨fun _ => 0, fun _ => 0, rfl⟩, rfl⟩

/-- With pages to spare the fork of the first process succeeds. -/
theorem fork_atomic_roomy : ForksRight (bootSystem roomyPages) 0 1 (some 8192) := by
  refine (fork_atomic_iff ⟨by decide, by decide⟩ (by decide) roomyPages_reachable 0 1 (some 8192)
    ?_ ?_).mpr ?_
  · rintro child isChild isCurrent
    obtain rfl := Option.some.inj isChild
    exact absurd isCurrent (by decide)
  · exact fun parent _ => bootSystem_holds (by decide +kernel) parent
  · intro forks parent isCurrent
    have onUser : InStack bootStacks.userStackBase bootStacks.userFrame.esp.toNat :=
      ⟨by decide, by decide⟩
    exact ⟨⟨show bootStacks.userStackBase ≠ 0 by decide, by decide +kernel⟩, onUser⟩

/-- When there are sixteen pages left, the child has the stack pointer of its parent. -/
theorem not_fork_atomic : ¬ ∀ (k : System) (live : List (Nat × Nat)),
    ReachablePages 16384 16 ⟨k.pages, live⟩ →
    (∀ parent, k.sched.current = some parent → HoldsStacks k parent) →
    ∀ inheritMask flags pcb, (∀ child, pcb = some child → k.sched.current ≠ some child) →
      ForksRight k inheritMask flags pcb := by
  intro right
  have forks := right (bootSystem smallSystem.pages) []
    ⟨_, _, _, smallSystem_fresh.1, smallSystem_fresh.2, Steps.refl⟩
    (fun parent _ => bootSystem_holds (by decide +kernel) parent) 0 1 (some 8192) (by
      rintro child isChild isCurrent
      obtain rfl := Option.some.inj isChild
      exact absurd isCurrent (by decide))
  have own := forks.own 2 4096 8192 (by decide +kernel) rfl rfl
  have nothing : (((bootSystem smallSystem.pages).forkStatus 0 1 (some 8192)).1.stackOf
      8192).userStackBase = 0 := by decide +kernel
  exact own.user.1 nothing

end M4KK1.Kernel
