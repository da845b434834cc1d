import M4KK1.Vfs.Boot
import M4KK1.Vfs.Pipes

/-!
# The lifetime of pipes

In `PipeWorld` a pipe has a name; the code has its slot and a flag for each end.
-/

namespace M4KK1.Vfs

open Lib Yafs Function

inductive PipeEnd where
  | read
  | write
deriving DecidableEq, Repr

/-- The end that a descriptor stands for, the bytes in each pipe, the name of the next. -/
structure PipeWorld where
  refs : Nat → Option (Nat × PipeEnd)
  queue : Nat → List UInt8
  next : Nat

namespace PipeWorld

def initial : PipeWorld := ⟨fun _ => none, fun _ => [], 0⟩

def setQueue (w : PipeWorld) (name : Nat) (bytes : List UInt8) : PipeWorld :=
  { w with queue := update w.queue name bytes }

/-- What a descriptor stands for replaced. -/
def setRef (w : PipeWorld) (fd : Nat) (ref : Option (Nat × PipeEnd)) : PipeWorld :=
  { w with refs := update w.refs fd ref }

def apply (w : PipeWorld) : FdCall → PipeWorld
  | .pipe (some (rfd, wfd)) =>
    { refs := update (update w.refs rfd (some (w.next, .read))) wfd
        (some (w.next, .write))
      queue := update w.queue w.next []
      next := w.next + 1 }
  | .dup2 oldfd newfd (some _) => w.setRef newfd (w.refs oldfd)
  | .close fd true => w.setRef fd none
  | .read fd _ (.done bytes) =>
    match w.refs fd with
    | some (name, _) => w.setQueue name ((w.queue name).drop bytes.length)
    | none => w
  | .write fd buf (.done written) =>
    match w.refs fd with
    | some (name, _) => w.setQueue name (w.queue name ++ buf.take written)
    | none => w
  | _ => w

end PipeWorld

/-- A write end takes what there is room for, a read end returns what is at the front. -/
structure Delivers (s : FdState) (w : PipeWorld) : Prop where
  write : ∀ {fd name}, w.refs fd = some (name, .write) → ∀ buf, ∃ s', vfsWrite s fd buf =
    .ok (s', .done (min buf.length (pipeBufSize - (w.queue name).length)))
  read : ∀ {fd name}, w.refs fd = some (name, .read) → ∀ count, ∃ s', vfsRead s fd count =
    .ok (s', .done ((w.queue name).take count))
  own : ∀ {fd name side}, w.refs fd = some (name, side) → ∀ {count s' bytes},
    vfsRead s fd count = .ok (s', .done bytes) → bytes = (w.queue name).take count

def FileDesc.pipeEnd (d : FileDesc) : PipeEnd := if d.isWriteEnd then .write else .read

/-- Two descriptors of one end of a pipe. -/
def SharesEnd (d d' : FileDesc) : Prop :=
  d.IsPipe ∧ d'.IsPipe ∧ d.inUse = true ∧ d'.inUse = true ∧ d.offset = d'.offset ∧
    d.pipeEnd = d'.pipeEnd

/-- No other descriptor stands for the same end as `fd`. -/
def LastOfEnd (s : FdState) (fd : Nat) : Prop :=
  ∀ slot other : Fin maxFds, slot.val = fd → other ≠ slot →
    ¬ SharesEnd (s.fdTable slot) (s.fdTable other)

/-- The calls on pipes that close no end while another descriptor stands for it. -/
def EndsKept (s : FdState) : FdCall → Prop
  | .open _ _ _ _ => False
  | .pipe _ => True
  | .dup2 oldfd newfd _ => oldfd ≠ newfd → LastOfEnd s newfd
  | .close fd _ => LastOfEnd s fd
  | .read _ _ _ => True
  | .write _ _ _ => True

/-- A system on which no pipe has been made and no special file is open. -/
structure NoPipes (s : FdState) : Prop where
  ready : s.vfs.initialized = true
  plain : ∀ fd, s.backend fd = none
  noPipe : ∀ p, (s.pipes p).inUse = false
  noEnd : ∀ fd, ¬ (s.fdTable fd).IsPipe

section Files

variable {s s' : FdState} {number : Nat}

theorem vfsRead_file {count : Nat} {reply : Reply (List UInt8)}
    (noPipe : ∀ inside : number < maxFds, ¬ (s.fdTable ⟨number, inside⟩).IsPipe)
    (ran : vfsRead s number count = .ok (s', reply)) :
    s' = s ∨ ∃ (slot : Fin maxFds) (d : FileDesc), slot.val = number ∧ ¬ d.IsPipe ∧
      s' = s.setFd slot d := by
  obtain rfl | ⟨slot, rfl, isPipe, -⟩ | ⟨slot, offset, rfl, isFile, rfl⟩ := vfsRead_cases ran
  · exact .inl rfl
  · exact absurd isPipe (noPipe slot.isLt)
  · refine .inr ⟨slot, { s.fdTable slot with offset := offset }, rfl, ?_, rfl⟩
    exact fun isPipe => isFile isPipe.2

theorem vfsWrite_file {buf : List UInt8} {reply : Reply Nat}
    (noPipe : ∀ inside : number < maxFds, ¬ (s.fdTable ⟨number, inside⟩).IsPipe)
    (ran : vfsWrite s number buf = .ok (s', reply)) :
    ∃ vfs : State, vfs.initialized = s.vfs.initialized ∧
      (s' = { s with vfs := vfs } ∨ ∃ (slot : Fin maxFds) (d : FileDesc), slot.val = number ∧
        ¬ d.IsPipe ∧ s' = ({ s with vfs := vfs } : FdState).setFd slot d) := by
  obtain rfl | ⟨slot, rfl, isPipe, -⟩ | ⟨slot, out, rfl, isFile, -, ends⟩ := vfsWrite_cases ran
  · exact ⟨s'.vfs, rfl, .inl rfl⟩
  · exact absurd isPipe (noPipe slot.isLt)
  · refine ⟨{ s.vfs with yafs := out.state }, rfl, ?_⟩
    obtain rfl | ⟨offset, rfl⟩ := ends
    · exact .inl rfl
    · refine .inr ⟨slot, { s.fdTable slot with offset := offset }, rfl, ?_, rfl⟩
      exact fun isPipe => isFile isPipe.2

end Files

def PipeBuffer.closedAt (pipe : PipeBuffer) : PipeEnd → Bool
  | .read => pipe.readClosed
  | .write => pipe.writeClosed

theorem FileDesc.offset_of_pipeIndex {d : FileDesc} {p : Fin maxPipes}
    (index : d.pipeIndex = some p) : d.offset = p := by
  unfold FileDesc.pipeIndex at index
  split at index
  next => cases index; rfl
  next => cases index

theorem closePipe_setFd (s : FdState) (d entry : FileDesc) (fd : Fin maxFds) :
    (closePipe s d).setFd fd entry = closePipe (s.setFd fd entry) d := by
  unfold closePipe
  split
  next =>
    split
    next => rfl
    next p found =>
      rw [FdState.setFd_pipes]
      split <;> rfl
  next => rfl

theorem PipeBuffer.closeEnd_cases (pipe : PipeBuffer) (d : FileDesc) :
    (pipe.closeEnd d.isWriteEnd = PipeBuffer.zero ∧ ∀ side, side ≠ d.pipeEnd →
      pipe.closedAt side = true) ∨
    ((pipe.closeEnd d.isWriteEnd).inUse = pipe.inUse ∧
      (∀ queue, Holds pipe queue → Holds (pipe.closeEnd d.isWriteEnd) queue) ∧
      ∀ side, side ≠ d.pipeEnd → (pipe.closeEnd d.isWriteEnd).closedAt side =
        pipe.closedAt side) := by
  unfold PipeBuffer.closeEnd FileDesc.pipeEnd
  cases d.isWriteEnd with
  | true =>
    cases closed : pipe.readClosed with
    | true =>
      refine .inl ⟨by simp, ?_⟩
      rintro (_ | _) other
      · exact closed
      · exact absurd rfl other
    | false =>
      refine .inr ⟨by simp, ?_, ?_⟩
      · intro queue holds
        simpa [closed] using { holds with }
      · rintro (_ | _) other
        · simp [closed, PipeBuffer.closedAt]
        · exact absurd rfl other
  | false =>
    cases closed : pipe.writeClosed with
    | true =>
      refine .inl ⟨by simp, ?_⟩
      rintro (_ | _) other
      · exact absurd rfl other
      · exact closed
    | false =>
      refine .inr ⟨by simp, ?_, ?_⟩
      · intro queue holds
        simpa [closed] using { holds with }
      · rintro (_ | _) other
        · exact absurd rfl other
        · simp [closed, PipeBuffer.closedAt]

/-- The entry stands for an open end of the pipe in slot `p`, which is `name`. -/
structure StandsFor (pipes : Fin maxPipes → PipeBuffer) (owner : Fin maxPipes → Option Nat)
    (d : FileDesc) (ref : Option (Nat × PipeEnd)) (p : Fin maxPipes) (name : Nat) : Prop where
  isPipe : d.IsPipe
  inUse : d.inUse = true
  index : d.pipeIndex = some p
  owned : owner p = some name
  ref : ref = some (name, d.pipeEnd)
  isOpen : (pipes p).closedAt d.pipeEnd = false

/-- An entry of the table and what the world has for it. -/
def Agrees (pipes : Fin maxPipes → PipeBuffer) (owner : Fin maxPipes → Option Nat) (d : FileDesc)
    (ref : Option (Nat × PipeEnd)) : Prop :=
  (∃ p name, StandsFor pipes owner d ref p name) ∨ (¬ d.IsPipe ∧ ref = none)

/-- The slot of each pipe that is in use, and its descriptors, are those of the world. -/
structure Tracks (s : FdState) (w : PipeWorld) (owner : Fin maxPipes → Option Nat) : Prop where
  ready : s.vfs.initialized = true
  plain : ∀ fd, s.backend fd = none
  agrees : ∀ fd : Fin maxFds, Agrees s.pipes owner (s.fdTable fd) (w.refs fd)
  inside : ∀ fd, maxFds ≤ fd → w.refs fd = none
  named : ∀ {p name}, owner p = some name → name < w.next
  used : ∀ {p name}, owner p = some name → (s.pipes p).inUse = true
  holds : ∀ {p name}, owner p = some name → Holds (s.pipes p) (w.queue name)
  free : ∀ {p}, owner p = none → (s.pipes p).inUse = false
  distinct : ∀ {p p' name}, owner p = some name → owner p' = some name → p = p'

theorem NoPipes.tracks {s : FdState} (fresh : NoPipes s) :
    Tracks s PipeWorld.initial fun _ => none where
  ready := fresh.ready
  plain := fresh.plain
  agrees fd := .inr ⟨fresh.noEnd fd, rfl⟩
  inside _ _ := rfl
  named owned := by cases owned
  used owned := by cases owned
  holds owned := by cases owned
  free _ := fresh.noPipe _
  distinct owned := by cases owned

namespace Tracks

variable {s s' : FdState} {w : PipeWorld} {owner : Fin maxPipes → Option Nat} {fd : Fin maxFds}
  {p : Fin maxPipes} {name : Nat}

theorem reaches (tracks : Tracks s w owner)
    (stands : StandsFor s.pipes owner (s.fdTable fd) (w.refs fd) p name) : Reaches s fd p :=
  ⟨tracks.ready, tracks.plain _, stands.isPipe, stands.index, tracks.used stands.owned⟩

theorem standsFor (tracks : Tracks s w owner) {number : Nat} {side : PipeEnd}
    (ref : w.refs number = some (name, side)) :
    ∃ (fd : Fin maxFds) (p : Fin maxPipes), fd.val = number ∧
      StandsFor s.pipes owner (s.fdTable fd) (w.refs fd) p name ∧
      (s.fdTable fd).pipeEnd = side := by
  by_cases inside : number < maxFds
  · rcases tracks.agrees ⟨number, inside⟩ with ⟨p, other, stands⟩ | ⟨_, nothing⟩
    · have same := stands.ref.symm.trans ref
      simp only [Option.some.injEq, Prod.mk.injEq] at same
      obtain ⟨rfl, rfl⟩ := same
      exact ⟨⟨number, inside⟩, p, rfl, stands, rfl⟩
    · cases nothing.symm.trans ref
  · cases (tracks.inside number (by omega)).symm.trans ref

theorem delivers (tracks : Tracks s w owner) : Delivers s w where
  write := by
    intro number name ref buf
    obtain ⟨fd, p, rfl, stands, side⟩ := tracks.standsFor ref
    have isOpen := stands.isOpen
    rw [side] at isOpen
    obtain ⟨_, ran, -, -⟩ :=
      (tracks.reaches stands).write isOpen (tracks.holds stands.owned) buf
    exact ⟨_, ran⟩
  read := by
    intro number name ref count
    obtain ⟨fd, p, rfl, stands, side⟩ := tracks.standsFor ref
    have isOpen := stands.isOpen
    rw [side] at isOpen
    obtain ⟨_, ran, -, -⟩ :=
      (tracks.reaches stands).read isOpen (tracks.holds stands.owned) count
    exact ⟨_, ran⟩
  own := by
    intro number name side ref count s' bytes ran
    obtain ⟨fd, p, rfl, stands, -⟩ := tracks.standsFor ref
    cases closed : (s.pipes p).readClosed with
    | false =>
      obtain ⟨_, reading, -, -⟩ :=
        (tracks.reaches stands).read closed (tracks.holds stands.owned) count
      rw [reading] at ran
      cases ran
      rfl
    | true =>
      rw [(tracks.reaches stands).read_refused closed] at ran
      cases ran

section

variable (tracks : Tracks s w owner)

include tracks

theorem congr (ready : s'.vfs.initialized = true)
    (sameOwners : s'.backend = s.backend) (sameTable : s'.fdTable = s.fdTable)
    (samePipes : s'.pipes = s.pipes) : Tracks s' w owner where
  ready := ready
  plain := by
    rw [sameOwners]
    exact tracks.plain
  agrees := by
    rw [sameTable, samePipes]
    exact tracks.agrees
  inside := tracks.inside
  named := tracks.named
  used := by
    rw [samePipes]
    exact tracks.used
  holds := by
    rw [samePipes]
    exact tracks.holds
  free := by
    rw [samePipes]
    exact tracks.free
  distinct := tracks.distinct

theorem setFd (fd : Fin maxFds) {d : FileDesc}
    {ref : Option (Nat × PipeEnd)} (agrees : Agrees s.pipes owner d ref) :
    Tracks (s.setFd fd d) (w.setRef fd ref) owner where
  ready := tracks.ready
  plain := tracks.plain
  agrees other := by
    by_cases same : other = fd
    · subst same
      simpa [PipeWorld.setRef] using agrees
    · have apart : (other : Nat) ≠ fd := fun equal => same (Fin.ext equal)
      simpa [PipeWorld.setRef, update_of_ne same, update_of_ne apart]
        using tracks.agrees other
  inside number beyond := by
    have apart : number ≠ fd := by
      have below := fd.isLt
      omega
    simpa [PipeWorld.setRef, update_of_ne apart] using tracks.inside number beyond
  named := tracks.named
  used := tracks.used
  holds := tracks.holds
  free := tracks.free
  distinct := tracks.distinct

theorem setOwned (owned : owner p = some name) {pipe : PipeBuffer}
    {bytes : List UInt8} (holds : Holds pipe bytes) (inUse : pipe.inUse = true)
    (isOpen : ∀ fd, (s.fdTable fd).IsPipe → (s.fdTable fd).pipeIndex = some p →
      pipe.closedAt (s.fdTable fd).pipeEnd = false) :
    Tracks (s.setPipe p pipe) (w.setQueue name bytes) owner where
  ready := tracks.ready
  plain := tracks.plain
  agrees fd := by
    rcases tracks.agrees fd with ⟨p', name', stands⟩ | nothing
    · refine .inl ⟨p', name', stands.isPipe, stands.inUse, stands.index, stands.owned, stands.ref,
        ?_⟩
      by_cases same : p' = p
      · subst same
        simpa using isOpen fd stands.isPipe stands.index
      · simpa [update_of_ne same] using stands.isOpen
    · exact .inr nothing
  inside := tracks.inside
  named := tracks.named
  used := by
    intro p' name' owned'
    by_cases same : p' = p
    · subst same
      simpa using inUse
    · simpa [update_of_ne same] using tracks.used owned'
  holds := by
    intro p' name' owned'
    by_cases same : p' = p
    · subst same
      cases owned.symm.trans owned'
      simpa [PipeWorld.setQueue] using holds
    · have other : name' ≠ name := by
        rintro rfl
        exact same (tracks.distinct owned' owned)
      simpa [PipeWorld.setQueue, update_of_ne same, update_of_ne other]
        using tracks.holds owned'
  free := by
    intro p' unowned
    have same : p' ≠ p := by
      rintro rfl
      cases unowned.symm.trans owned
    simpa [update_of_ne same] using tracks.free unowned
  distinct := tracks.distinct

theorem open_of_index (isPipe : (s.fdTable fd).IsPipe) (index : (s.fdTable fd).pipeIndex = some p) :
    (s.pipes p).closedAt (s.fdTable fd).pipeEnd = false := by
  rcases tracks.agrees fd with ⟨p', name', stands⟩ | ⟨noPipe, -⟩
  · cases index.symm.trans stands.index
    exact stands.isOpen
  · exact absurd isPipe noPipe

theorem setQueue (owned : owner p = some name) {pipe : PipeBuffer}
    {bytes : List UInt8} (holds : Holds pipe bytes) (ends : SameEnds (s.pipes p) pipe) :
    Tracks (s.setPipe p pipe) (w.setQueue name bytes) owner := by
  refine tracks.setOwned owned holds (ends.inUse.trans (tracks.used owned)) ?_
  intro fd isPipe index
  rw [← tracks.open_of_index isPipe index]
  cases (s.fdTable fd).pipeEnd with
  | read => exact ends.readClosed
  | write => exact ends.writeClosed

theorem release (nobody : ∀ fd, (s.fdTable fd).IsPipe → (s.fdTable fd).pipeIndex ≠ some p)
    {pipe : PipeBuffer} (unused : pipe.inUse = false) :
    Tracks (s.setPipe p pipe) w (update owner p none) := by
  have apart {p' : Fin maxPipes} {name' : Nat}
      (owned : update owner p none p' = some name') :
      p' ≠ p ∧ owner p' = some name' := by
    have same : p' ≠ p := by
      rintro rfl
      simp at owned
    rw [update_of_ne same] at owned
    exact ⟨same, owned⟩
  refine ⟨tracks.ready, tracks.plain, ?_, tracks.inside, ?_, ?_, ?_, ?_, ?_⟩
  · intro fd
    rcases tracks.agrees fd with ⟨p', name', stands⟩ | nothing
    · have same : p' ≠ p := by
        rintro rfl
        exact nobody fd stands.isPipe stands.index
      refine .inl ⟨p', name', stands.isPipe, stands.inUse, stands.index, ?_, stands.ref, ?_⟩
      · rw [update_of_ne same]
        exact stands.owned
      · simpa [update_of_ne same] using stands.isOpen
    · exact .inr nothing
  · intro p' name' owned
    exact tracks.named (apart owned).2
  · intro p' name' owned
    obtain ⟨same, owned⟩ := apart owned
    simpa [update_of_ne same] using tracks.used owned
  · intro p' name' owned
    obtain ⟨same, owned⟩ := apart owned
    simpa [update_of_ne same] using tracks.holds owned
  · intro p' unowned
    by_cases same : p' = p
    · subst same
      simpa using unused
    · rw [update_of_ne same] at unowned
      simpa [update_of_ne same] using tracks.free unowned
  · intro p₁ p₂ name' owned₁ owned₂
    exact tracks.distinct (apart owned₁).2 (apart owned₂).2

theorem nobody_of_unowned (unowned : owner p = none)
    (isPipe : (s.fdTable fd).IsPipe) : (s.fdTable fd).pipeIndex ≠ some p := by
  intro index
  rcases tracks.agrees fd with ⟨p', name', stands⟩ | ⟨noPipe, -⟩
  · cases index.symm.trans stands.index
    cases unowned.symm.trans stands.owned
  · exact noPipe isPipe

theorem newPipe (unowned : owner p = none) :
    Tracks (s.setPipe p { PipeBuffer.zero with inUse := true })
      { w with queue := update w.queue w.next [], next := w.next + 1 }
      (update owner p (some w.next)) := by
  have old {p' : Fin maxPipes} {name' : Nat} (owned : owner p' = some name') :
      p' ≠ p ∧ name' ≠ w.next := by
    constructor
    · rintro rfl
      cases unowned.symm.trans owned
    · exact Nat.ne_of_lt (tracks.named owned)
  refine ⟨tracks.ready, tracks.plain, ?_, tracks.inside, ?_, ?_, ?_, ?_, ?_⟩
  · intro fd
    rcases tracks.agrees fd with ⟨p', name', stands⟩ | nothing
    · have same := (old stands.owned).1
      refine .inl ⟨p', name', stands.isPipe, stands.inUse, stands.index, ?_, stands.ref, ?_⟩
      · rw [update_of_ne same]
        exact stands.owned
      · simpa [update_of_ne same] using stands.isOpen
    · exact .inr nothing
  · intro p' name' owned
    by_cases same : p' = p
    · subst same
      rw [update_self] at owned
      cases owned
      exact Nat.lt_succ_self _
    · rw [update_of_ne same] at owned
      exact Nat.lt_succ_of_lt (tracks.named owned)
  · intro p' name' owned
    by_cases same : p' = p
    · subst same
      simp
    · rw [update_of_ne same] at owned
      simpa [update_of_ne same] using tracks.used owned
  · intro p' name' owned
    by_cases same : p' = p
    · subst same
      rw [update_self] at owned
      cases owned
      simpa using Holds.opened
    · rw [update_of_ne same] at owned
      simpa [update_of_ne same, update_of_ne (old owned).2]
        using tracks.holds owned
  · intro p' free
    have same : p' ≠ p := by
      rintro rfl
      simp at free
    rw [update_of_ne same] at free
    simpa [update_of_ne same] using tracks.free free
  · intro p₁ p₂ name' owned₁ owned₂
    by_cases first : p₁ = p <;> by_cases second : p₂ = p
    · rw [first, second]
    · subst first
      rw [update_self] at owned₁
      rw [update_of_ne second] at owned₂
      cases owned₁
      exact absurd rfl (old owned₂).2
    · subst second
      rw [update_self] at owned₂
      rw [update_of_ne first] at owned₁
      cases owned₂
      exact absurd rfl (old owned₁).2
    · rw [update_of_ne first] at owned₁
      rw [update_of_ne second] at owned₂
      exact tracks.distinct owned₁ owned₂

end

section

variable (tracks : Tracks s w owner)

include tracks

theorem closePipe {d : FileDesc} {ref : Option (Nat × PipeEnd)}
    (stands : StandsFor s.pipes owner d ref p name)
    (nobody : ∀ fd, (s.fdTable fd).IsPipe → (s.fdTable fd).pipeIndex = some p →
      (s.fdTable fd).pipeEnd ≠ d.pipeEnd) :
    ∃ owner', Tracks (closePipe s d) w owner' := by
  have used := tracks.used stands.owned
  rw [closePipe_eq stands.isPipe stands.index used]
  rcases (s.pipes p).closeEnd_cases d with ⟨cleared, closed⟩ | ⟨inUse, keeps, others⟩
  · refine ⟨_, tracks.release ?_ (by rw [cleared]; rfl)⟩
    intro fd isPipe index
    have isOpen := tracks.open_of_index isPipe index
    rw [closed _ (nobody fd isPipe index)] at isOpen
    cases isOpen
  · have same : w.setQueue name (w.queue name) = w := by simp [PipeWorld.setQueue]
    rw [← same]
    refine ⟨owner, tracks.setOwned stands.owned (keeps _ (tracks.holds stands.owned))
      (inUse.trans used) ?_⟩
    intro fd isPipe index
    rw [others _ (nobody fd isPipe index)]
    exact tracks.open_of_index isPipe index

theorem closeEntry (last : LastOfEnd s fd) :
    ∃ owner', Tracks ((Vfs.closePipe s (s.fdTable fd)).setFd fd FileDesc.zero) (w.setRef fd none)
      owner' := by
  have removed : Tracks (s.setFd fd FileDesc.zero) (w.setRef fd none) owner :=
    tracks.setFd fd (.inr ⟨by decide, rfl⟩)
  rcases tracks.agrees fd with ⟨p, name, stands⟩ | ⟨noPipe, -⟩
  · rw [closePipe_setFd]
    refine removed.closePipe stands ?_
    intro other isPipe index sameEnd
    have apart : other ≠ fd := by
      rintro rfl
      simp [FileDesc.IsPipe, FileDesc.zero] at isPipe
    simp only [FdState.setFd_fdTable, update_of_ne apart] at isPipe index sameEnd
    refine last fd other rfl apart ⟨stands.isPipe, isPipe, stands.inUse, ?_, ?_, sameEnd.symm⟩
    · rcases tracks.agrees other with ⟨_, _, others⟩ | ⟨noPipe, -⟩
      · exact others.inUse
      · exact absurd isPipe noPipe
    · rw [FileDesc.offset_of_pipeIndex stands.index, FileDesc.offset_of_pipeIndex index]
  · refine ⟨owner, ?_⟩
    rwa [Vfs.closePipe, if_neg noPipe]

theorem close {number : Nat} {ok : Bool} (last : LastOfEnd s number)
    (ran : vfsClose s number = (s', ok)) : ∃ owner',
      Tracks s' (w.apply (.close number ok)) owner' := by
  obtain ⟨rfl, rfl⟩ | ⟨_, special, -⟩ | ⟨fd, rfl, -, -, rfl, rfl⟩ := vfsClose_cases ran
  · exact ⟨owner, tracks⟩
  · cases (tracks.plain number).symm.trans special
  · exact tracks.closeEntry last

theorem pipe {result : Option (Fin maxFds × Fin maxFds)}
    (ran : vfsPipe s = (s', result)) : ∃ owner', Tracks s' (w.apply (.pipe result)) owner' := by
  have unowned {p : Fin maxPipes} (free : (s.pipes p).inUse = false) : owner p = none := by
    cases owned : owner p with
    | none => rfl
    | some name => cases free.symm.trans (tracks.used owned)
  obtain ⟨rfl, rfl⟩ | ⟨rfl, p, cursor, free, rfl⟩ | ⟨p, rfd, wfd, rfl, free, -, -, rfl⟩ :=
    vfsPipe_cases ran
  · exact ⟨owner, tracks⟩
  · have cleared : Tracks (s.setPipe p PipeBuffer.zero) w _ :=
      tracks.release (fun fd => tracks.nobody_of_unowned (unowned free)) rfl
    exact ⟨_, cleared.congr tracks.ready rfl rfl rfl⟩
  · have entry (flags : Nat) (side : PipeEnd)
        (isSide : (FileDesc.mk (some 0) p flags true 0).pipeEnd = side) :
        Agrees (update s.pipes p { PipeBuffer.zero with inUse := true })
          (update owner p (some w.next)) ⟨some 0, p, flags, true, 0⟩
          (some (w.next, side)) := by
      subst isSide
      refine .inl ⟨p, w.next, ⟨rfl, rfl⟩, rfl, dif_pos p.isLt, update_self .., rfl, ?_⟩
      rw [update_self]
      cases (FileDesc.mk (some 0) p flags true 0).pipeEnd with
      | read => rfl
      | write => rfl
    have readEnd : (FileDesc.mk (some 0) p oRdonly true 0).pipeEnd = .read := by
      simp [FileDesc.pipeEnd, FileDesc.isWriteEnd, oRdonly, oWronly]
    have writeEnd : (FileDesc.mk (some 0) p oWronly true 0).pipeEnd = .write := by
      simp [FileDesc.pipeEnd, FileDesc.isWriteEnd, oWronly]
    have made := ((tracks.newPipe (unowned free)).setFd rfd (entry _ _ readEnd)).setFd wfd
      (entry _ _ writeEnd)
    refine ⟨_, made.congr ?_ ?_ ?_ ?_⟩
    · exact tracks.ready
    · rfl
    · rfl
    · rfl

theorem vacate (last : LastOfEnd s fd) :
    ∃ owner', Tracks (if (s.fdTable fd).inUse then (vfsClose s fd).1 else s) (w.setRef fd none)
      owner' := by
  by_cases used : (s.fdTable fd).inUse = true
  · rw [if_pos used, vfsClose_entry tracks.ready (tracks.plain fd) used]
    exact tracks.closeEntry last
  · rw [if_neg used]
    refine ⟨owner, ?_⟩
    rcases tracks.agrees fd with ⟨_, _, stands⟩ | ⟨-, nothing⟩
    · exact absurd stands.inUse used
    · rwa [PipeWorld.setRef, ← nothing, update_eq_self]

theorem dup2 {oldfd newfd : Nat} {result : Option Nat}
    (last : oldfd ≠ newfd → LastOfEnd s newfd) (ran : vfsDup2 s oldfd newfd = (s', result)) :
    ∃ owner', Tracks s' (w.apply (.dup2 oldfd newfd result)) owner' := by
  unfold vfsDup2 at ran
  split at ran
  next inside =>
    dsimp only at ran
    split at ran
    next => cases ran; exact ⟨owner, tracks⟩
    next used =>
      split at ran
      next same =>
        cases ran
        refine ⟨owner, ?_⟩
        subst same
        simpa [PipeWorld.apply, PipeWorld.setRef] using tracks
      next apart =>
        cases ran
        have target : LastOfEnd s (⟨newfd, inside.2⟩ : Fin maxFds) := last apart
        obtain ⟨owner', vacated⟩ := tracks.vacate target
        refine ⟨owner', ?_⟩
        have copied := vacated.setFd ⟨newfd, inside.2⟩ (vacated.agrees ⟨oldfd, inside.1⟩)
        simpa [PipeWorld.apply, PipeWorld.setRef, update_of_ne apart] using copied
  next => cases ran; exact ⟨owner, tracks⟩

theorem noPipe_of_ref {number : Nat} (nothing : w.refs number = none)
    (inside : number < maxFds) : ¬ (s.fdTable ⟨number, inside⟩).IsPipe := by
  rcases tracks.agrees ⟨number, inside⟩ with ⟨_, _, stands⟩ | ⟨noPipe, -⟩
  · cases nothing.symm.trans stands.ref
  · exact noPipe

theorem setFile (nothing : w.refs fd = none) {d : FileDesc}
    (noPipe : ¬ d.IsPipe) : Tracks (s.setFd fd d) w owner := by
  have changed := tracks.setFd fd (.inr ⟨noPipe, rfl⟩)
  rwa [PipeWorld.setRef, ← nothing, update_eq_self] at changed

theorem read {number count : Nat} {reply : Reply (List UInt8)}
    (ran : vfsRead s number count = .ok (s', reply)) :
    ∃ owner', Tracks s' (w.apply (.read number count reply)) owner' := by
  refine ⟨owner, ?_⟩
  cases ref : w.refs number with
  | none =>
    have kept : w.apply (.read number count reply) = w := by
      cases reply <;> simp [PipeWorld.apply, ref]
    rw [kept]
    rcases vfsRead_file (tracks.noPipe_of_ref ref) ran with rfl | ⟨slot, d, rfl, noPipe, rfl⟩
    · exact tracks
    · exact tracks.setFile ref noPipe
  | some target =>
    obtain ⟨name, side⟩ := target
    obtain ⟨fd, p, rfl, stands, -⟩ := tracks.standsFor ref
    cases closed : (s.pipes p).readClosed with
    | true =>
      rw [(tracks.reaches stands).read_refused closed] at ran
      cases ran
      exact tracks
    | false =>
      obtain ⟨pipe, reading, rest, ends⟩ :=
        (tracks.reaches stands).read closed (tracks.holds stands.owned) count
      rw [reading] at ran
      cases ran
      have taken := tracks.setQueue stands.owned rest ends
      have clipped : (w.queue name).drop (min count (w.queue name).length) =
          (w.queue name).drop count := List.drop_eq_drop_iff.mpr (by omega)
      simpa [PipeWorld.apply, ref, clipped] using taken

theorem write {number : Nat} {buf : List UInt8} {reply : Reply Nat}
    (ran : vfsWrite s number buf = .ok (s', reply)) :
    ∃ owner', Tracks s' (w.apply (.write number buf reply)) owner' := by
  refine ⟨owner, ?_⟩
  cases ref : w.refs number with
  | none =>
    have kept : w.apply (.write number buf reply) = w := by
      cases reply <;> simp [PipeWorld.apply, ref]
    rw [kept]
    obtain ⟨vfs, ready, rfl | ⟨slot, d, rfl, noPipe, rfl⟩⟩ :=
      vfsWrite_file (tracks.noPipe_of_ref ref) ran
    · exact tracks.congr (ready.trans tracks.ready) rfl rfl rfl
    · have written : Tracks { s with vfs := vfs } w owner :=
        tracks.congr (ready.trans tracks.ready) rfl rfl rfl
      exact written.setFile ref noPipe
  | some target =>
    obtain ⟨name, side⟩ := target
    obtain ⟨fd, p, rfl, stands, -⟩ := tracks.standsFor ref
    cases closed : (s.pipes p).writeClosed with
    | true =>
      rw [(tracks.reaches stands).write_refused closed] at ran
      cases ran
      exact tracks
    | false =>
      obtain ⟨pipe, writing, stored, ends⟩ :=
        (tracks.reaches stands).write closed (tracks.holds stands.owned) buf
      rw [writing] at ran
      cases ran
      have appended := tracks.setQueue stands.owned stored ends
      have clipped : buf.take (min buf.length (pipeBufSize - (w.queue name).length)) =
          buf.take (pipeBufSize - (w.queue name).length) := List.take_eq_take_iff.mpr (by omega)
      simpa [PipeWorld.apply, ref, clipped] using appended

theorem step {call : FdCall} (taken : Guarded FdStep EndsKept s call s') :
    ∃ owner', Tracks s' (w.apply call) owner' := by
  obtain ⟨kept, step⟩ := taken
  cases step with
  | «open» => exact kept.elim
  | pipe ran => exact tracks.pipe ran
  | dup2 ran => exact tracks.dup2 kept ran
  | close ran => exact tracks.close kept ran
  | read ran => exact tracks.read ran
  | write ran => exact tracks.write ran

end

end Tracks

/-- When no end is closed while another descriptor stands for it, each descriptor keeps its pipe. -/
theorem pipe_lifetime {start final : FdState} {calls : List FdCall} (fresh : NoPipes start)
    (run : Steps (Guarded FdStep EndsKept) start calls final) :
    Delivers final (calls.foldl PipeWorld.apply PipeWorld.initial) := by
  obtain ⟨owner, tracks⟩ := run.history
    (fun calls state => ∃ owner, Tracks state (calls.foldl PipeWorld.apply PipeWorld.initial) owner)
    (fun calls state call next ⟨owner, tracks⟩ taken => by
      rw [List.foldl_append]
      exact tracks.step taken)
    ⟨_, fresh.tracks⟩
  exact tracks.delivers

theorem initial_noPipes {vfs : State} (ready : vfs.initialized = true) :
    NoPipes (initialFds vfs) where
  ready := ready
  plain := initial_plain vfs
  noPipe _ := rfl
  noEnd _ := fun isPipe => nomatch isPipe.1

/-- The state in which the first pipe was made on 3 and 4, and 4 was copied to 9. -/
def endCopied (vfs : State) : FdState :=
  { initialFds vfs with
    fdSearchStart := 5
    fdTable := update (update (update (fun _ => FileDesc.zero)
      3 ⟨some 0, 0, oRdonly, true, 0⟩) 4 ⟨some 0, 0, oWronly, true, 0⟩) 9
        ⟨some 0, 0, oWronly, true, 0⟩
    pipes := update (fun _ => PipeBuffer.zero) 0 { PipeBuffer.zero with inUse := true } }

theorem vfsPipe_initial (vfs : State) :
    vfsPipe (initialFds vfs) = ((vfsPipe (initialFds vfs)).1, some (3, 4)) := rfl

theorem vfsDup2_initial (vfs : State) :
    vfsDup2 (vfsPipe (initialFds vfs)).1 4 9 = (endCopied vfs, some 9) := rfl

/-- A write end copied to descriptor 9. -/
theorem pipe_lifetime_copied :
    ∃ start final, boot (fun _ => .data fun _ => 0) = .ok start ∧
      Steps (Guarded FdStep EndsKept) (initialFds start)
        [.pipe (some (3, 4)), .dup2 4 9 (some 9)] final ∧
      Delivers final ([.pipe (some (3, 4)), .dup2 4 9 (some 9)].foldl PipeWorld.apply
        PipeWorld.initial) := by
  obtain ⟨start, _, booted, _, _, ready, _⟩ := boot_built (fun _ => .data fun _ => 0)
  have free : LastOfEnd (vfsPipe (initialFds start)).1 9 := by
    rintro slot other number - ⟨⟨isTable, -⟩, -⟩
    obtain rfl : slot = 9 := Fin.ext number
    cases isTable
  have run : Steps (Guarded FdStep EndsKept) (initialFds start)
      ([] ++ [.pipe (some (3, 4))] ++ [.dup2 4 9 (some 9)]) (endCopied start) :=
    .step (.step .refl ⟨trivial, .pipe (vfsPipe_initial start)⟩)
      ⟨fun _ => free, .dup2 (vfsDup2_initial start)⟩
  exact ⟨start, _, booted, run, pipe_lifetime (initial_noPipes ready) run⟩

section Copied

variable {vfs : State}

def copyKept (vfs : State) : FdState :=
  ((endCopied vfs).setPipe 0 { PipeBuffer.zero with inUse := true, writeClosed := true }).setFd 4
    FileDesc.zero

/-- The state after 3 is closed as well. -/
def slotFreed (vfs : State) : FdState :=
  ((copyKept vfs).setPipe 0 PipeBuffer.zero).setFd 3 FileDesc.zero

section

variable (ready : vfs.initialized = true)

include ready

theorem close_original : vfsClose (endCopied vfs) 4 = (copyKept vfs, true) := by
  have reaches : Reaches (endCopied vfs) 4 0 := .of_entry ready (initial_plain vfs 4) rfl rfl
  refine (reaches.close rfl).trans ?_
  rw [show decide (oWronly &&& oWronly ≠ 0) = true by decide]
  rfl

theorem close_reader : vfsClose (copyKept vfs) 3 = (slotFreed vfs, true) := by
  have reaches : Reaches (copyKept vfs) 3 0 := .of_entry ready (initial_plain vfs 3) rfl rfl
  refine (reaches.close rfl).trans ?_
  rw [show decide (oRdonly &&& oWronly ≠ 0) = false by decide]
  rfl

theorem write_copy : vfsWrite (copyKept vfs) 9 [7] = .ok (copyKept vfs, .refused) := by
  have reaches : Reaches (copyKept vfs) 9 0 := .of_entry ready (initial_plain vfs 9) rfl rfl
  exact reaches.write_refused rfl [7]

theorem slot_reused : ∃ later, Steps FdStep (slotFreed vfs)
      [.pipe (some (5, 6)), .write 9 [7] (.done 1), .read 5 1 (.done [7])] later := by
  have made : vfsPipe (slotFreed vfs) = ((vfsPipe (slotFreed vfs)).1, some (5, 6)) := rfl
  have writes : Reaches (vfsPipe (slotFreed vfs)).1 9 0 :=
    .of_entry ready (initial_plain vfs 9) rfl rfl
  have reads : Reaches (vfsPipe (slotFreed vfs)).1 5 0 :=
    .of_entry ready (initial_plain vfs 5) rfl rfl
  have holds : Holds ((vfsPipe (slotFreed vfs)).1.pipes 0) [] := Holds.opened
  obtain ⟨pipe, written, stored, ends⟩ := writes.write rfl holds [7]
  have readOpen : (((vfsPipe (slotFreed vfs)).1.setPipe 0 pipe).pipes 0).readClosed = false := by
    rw [FdState.setPipe_pipes, update_self, ends.readClosed]
    rfl
  have content : Holds (((vfsPipe (slotFreed vfs)).1.setPipe 0 pipe).pipes 0) [7] := by
    simpa [pipeBufSize] using stored
  obtain ⟨_, read, -, -⟩ := (reads.setPipe ends).read readOpen content 1
  exact ⟨_, ((Steps.refl.step (.pipe made)).step (.write written)).step (.read read)⟩

end

end Copied

/-- The write end is copied to 9 and closed; in the end the next pipe is written to through 9. -/
theorem copied_end_lost :
    ∃ start final later, boot (fun _ => .data fun _ => 0) = .ok start ∧
      Steps FdStep (initialFds start)
        [.pipe (some (3, 4)), .dup2 4 9 (some 9), .close 4 true] final ∧
      vfsWrite final 9 [7] = .ok (final, .refused) ∧
      ¬ Delivers final ([.pipe (some (3, 4)), .dup2 4 9 (some 9), .close 4 true].foldl
        PipeWorld.apply PipeWorld.initial) ∧
      Steps FdStep final
        [.close 3 true, .pipe (some (5, 6)), .write 9 [7] (.done 1), .read 5 1 (.done [7])]
        later := by
  obtain ⟨start, _, booted, _, _, ready, _⟩ := boot_built (fun _ => .data fun _ => 0)
  have run := ((Steps.refl.step (FdStep.pipe (vfsPipe_initial start))).step
    (FdStep.dup2 (vfsDup2_initial start))).step (FdStep.close (close_original ready))
  obtain ⟨later, reused⟩ := slot_reused ready
  have closed : Steps FdStep (copyKept start) [.close 3 true] (slotFreed start) :=
    Steps.refl.step (FdStep.close (close_reader ready))
  refine ⟨start, _, later, booted, run, write_copy ready, ?_, closed.trans reused⟩
  intro delivers
  have ref : ([.pipe (some (3, 4)), .dup2 4 9 (some 9), .close 4 true].foldl
      PipeWorld.apply PipeWorld.initial).refs 9 = some (0, .write) := rfl
  obtain ⟨_, written⟩ := delivers.write ref [7]
  cases (write_copy ready).symm.trans written

end M4KK1.Vfs
