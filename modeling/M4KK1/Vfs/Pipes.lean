import M4KK1.Lib.RingBuffer
import M4KK1.Vfs.Descriptors

/-!
# Pipes as bounded queues

A read takes bytes from the front of a ring and a write appends what there is room for.
-/

namespace M4KK1.Vfs

open Lib Yafs Function List

/-- The ring of the pipe holds the queue. -/
structure Holds (pipe : PipeBuffer) (queue : List UInt8) : Prop where
  window : Window pipe.data pipe.readPos queue
  count : pipe.bytes = queue.length
  fits : queue.length ≤ pipeBufSize
  reader : pipe.readPos < pipeBufSize
  writer : pipe.writePos = (pipe.readPos + pipe.bytes) % pipeBufSize

structure SameEnds (pipe pipe' : PipeBuffer) : Prop where
  inUse : pipe'.inUse = pipe.inUse
  readClosed : pipe'.readClosed = pipe.readClosed
  writeClosed : pipe'.writeClosed = pipe.writeClosed

theorem SameEnds.refl (pipe : PipeBuffer) : SameEnds pipe pipe := ⟨rfl, rfl, rfl⟩

namespace Holds

variable {pipe : PipeBuffer} {queue : List UInt8}

theorem opened : Holds { PipeBuffer.zero with inUse := true } [] where
  window := .nil
  count := rfl
  fits := Nat.zero_le _
  reader := by decide
  writer := by decide

theorem writePos_lt (holds : Holds pipe queue) : pipe.writePos < pipeBufSize := by
  rw [holds.writer]
  exact Nat.mod_lt _ (by decide)

theorem segment_eq (holds : Holds pipe queue) {seg : Nat} (short : seg ≤ queue.length)
    (straight : pipe.readPos + seg ≤ pipeBufSize) :
    (List.range seg).map (fun index => pipe.data.cell (pipe.readPos + index)) = queue.take seg := by
  apply ext_getElem
  · simp [short]
  · intro index inside _
    have before : index < seg := by simpa using inside
    rw [getElem_map, getElem_range, List.getElem_take,
      ← holds.window index (by omega), Nat.mod_eq_of_lt (by omega)]

theorem advance (holds : Holds pipe queue) {seg : Nat} (short : seg ≤ queue.length) :
    Holds { pipe with readPos := (pipe.readPos + seg) % pipeBufSize, bytes := pipe.bytes - seg }
      (queue.drop seg) where
  window := by
    have split := holds.window
    rw [← take_append_drop seg queue, Window.append_iff, List.length_take,
      Nat.min_eq_left short] at split
    exact split.2.congr_start (Nat.mod_mod _ _).symm
  count := by
    show pipe.bytes - seg = _
    rw [length_drop, holds.count]
  fits := by
    have fits := holds.fits
    rw [length_drop]
    omega
  reader := Nat.mod_lt _ (by decide)
  writer := by
    show pipe.writePos = ((pipe.readPos + seg) % pipeBufSize + (pipe.bytes - seg)) % pipeBufSize
    have count := holds.count
    rw [holds.writer, Nat.mod_add_mod]
    congr 1
    omega

theorem readLoop (rounds : Nat) : ∀ {pipe : PipeBuffer} {queue : List UInt8} (remaining : Nat)
    (out : List UInt8), Holds pipe queue → remaining ≤ rounds →
    ∃ pipe', pipeReadLoop rounds pipe remaining out = (pipe', out ++ queue.take remaining) ∧
      Holds pipe' (queue.drop remaining) ∧ SameEnds pipe pipe' := by
  induction rounds with
  | zero =>
    intro pipe queue remaining out holds enough
    obtain rfl : remaining = 0 := by omega
    exact ⟨pipe, by simp [pipeReadLoop], holds, .refl pipe⟩
  | succ rounds ih =>
    intro pipe queue remaining out holds enough
    have count := holds.count
    have reader := holds.reader
    rw [pipeReadLoop]
    by_cases more : 0 < remaining ∧ 0 < pipe.bytes
    · rw [if_pos more]
      obtain ⟨seg, isSeg⟩ :
          ∃ seg, seg = min (min (pipeBufSize - pipe.readPos) pipe.bytes) remaining := ⟨_, rfl⟩
      simp only [← isSeg]
      have short : seg ≤ queue.length := by omega
      obtain ⟨pipe', ran, rest, ends⟩ :=
        ih (remaining - seg) (out ++ queue.take seg) (holds.advance short) (by omega)
      refine ⟨pipe', ?_, ?_, { ends with }⟩
      · rw [holds.segment_eq short (by omega), ran, append_assoc, ← take_add,
          Nat.add_sub_cancel' (by omega)]
      · rwa [drop_drop, Nat.add_sub_cancel' (by omega)] at rest
    · rw [if_neg more]
      refine ⟨pipe, ?_, ?_, .refl pipe⟩
      · rw [take_eq_nil_iff.mpr, append_nil]
        rcases Nat.eq_zero_or_pos remaining with none | some
        · exact .inl none
        · exact .inr (length_eq_zero_iff.mp (by omega))
      · rcases Nat.eq_zero_or_pos remaining with none | some
        · rwa [none, drop_zero]
        · obtain rfl : queue = [] := length_eq_zero_iff.mp (by omega)
          rwa [drop_nil]

theorem store_keeps (holds : Holds pipe queue) {chunk : List UInt8}
    (room : queue.length + chunk.length ≤ pipeBufSize)
    (straight : pipe.writePos + chunk.length ≤ pipeBufSize) :
    Window (pipe.store pipe.writePos chunk) pipe.readPos queue := by
  intro index inside
  have bytes := holds.count
  rw [← holds.window index inside, PipeBuffer.store]
  apply if_neg
  rintro ⟨above, below⟩
  -- The cell would be both the `index`-th of the queue and one of the segment behind it.
  obtain ⟨offset, isOffset⟩ :
      ∃ offset, (pipe.readPos + index) % pipeBufSize = pipe.writePos + offset :=
    ⟨_, (Nat.add_sub_cancel' above).symm⟩
  have far : (pipe.readPos + (queue.length + offset)) % pipeBufSize = pipe.writePos + offset := by
    have writer := holds.writer
    rw [bytes] at writer
    rw [← Nat.add_assoc, Nat.add_mod, ← writer,
      Nat.mod_eq_of_lt (show offset < pipeBufSize by omega),
      Nat.mod_eq_of_lt (by omega)]
  exact ring_slot_ne (show index < queue.length + offset by omega) (by omega)
    (isOffset.trans far.symm)

theorem store_window {chunk : List UInt8} (pos : Nat)
    (straight : pos + chunk.length ≤ pipeBufSize) :
    Window (pipe.store pos chunk) pos chunk := by
  intro index inside
  rw [Nat.mod_eq_of_lt (by omega), PipeBuffer.store]
  dsimp only
  rw [if_pos (by omega), Nat.add_sub_cancel_left, getD_eq_getElem _ _ inside]

theorem append (holds : Holds pipe queue) {chunk : List UInt8}
    (room : queue.length + chunk.length ≤ pipeBufSize)
    (straight : pipe.writePos + chunk.length ≤ pipeBufSize) :
    Holds
      { pipe with
        data := pipe.store pipe.writePos chunk
        writePos := (pipe.writePos + chunk.length) % pipeBufSize
        bytes := pipe.bytes + chunk.length }
      (queue ++ chunk) where
  window := by
    refine Window.append_iff.mpr ⟨holds.store_keeps room straight, ?_⟩
    refine (store_window pipe.writePos straight).congr_start ?_
    rw [holds.writer, holds.count, Nat.mod_mod]
  count := by
    show pipe.bytes + chunk.length = _
    rw [length_append, holds.count]
  fits := by rwa [length_append]
  reader := holds.reader
  writer := by
    show (pipe.writePos + chunk.length) % pipeBufSize =
      (pipe.readPos + (pipe.bytes + chunk.length)) % _
    rw [holds.writer, Nat.mod_add_mod, Nat.add_assoc]

theorem writeLoop (rounds : Nat) : ∀ {pipe : PipeBuffer} {queue : List UInt8} (rest : List UInt8)
    (total : Nat), Holds pipe queue → rest.length ≤ rounds →
    ∃ pipe', pipeWriteLoop rounds pipe rest total =
        (pipe', total + min rest.length (pipeBufSize - queue.length)) ∧
      Holds pipe' (queue ++ rest.take (pipeBufSize - queue.length)) ∧ SameEnds pipe pipe' := by
  induction rounds with
  | zero =>
    intro pipe queue rest total holds enough
    obtain rfl : rest = [] := length_eq_zero_iff.mp (by omega)
    exact ⟨pipe, by simp [pipeWriteLoop], by simpa using holds, .refl pipe⟩
  | succ rounds ih =>
    intro pipe queue rest total holds enough
    have count := holds.count
    have writePos := holds.writePos_lt
    rw [pipeWriteLoop]
    by_cases more : 0 < rest.length ∧ pipe.bytes < pipeBufSize
    · rw [if_pos more]
      obtain ⟨seg, isSeg⟩ : ∃ seg,
          seg = min (min (pipeBufSize - pipe.writePos) (pipeBufSize - pipe.bytes)) rest.length :=
        ⟨_, rfl⟩
      simp only [← isSeg]
      have length : (rest.take seg).length = seg := by
        rw [List.length_take]
        omega
      have next : Holds _ (queue ++ rest.take seg) := holds.append (by omega) (by omega)
      rw [length] at next
      obtain ⟨pipe', ran, stored, ends⟩ :=
        ih (rest.drop seg) (total + seg) next (by rw [length_drop]; omega)
      rw [length_append, length] at ran stored
      refine ⟨pipe', ?_, ?_, { ends with }⟩
      · rw [ran, length_drop]
        congr 1
        omega
      · rwa [append_assoc, Nat.sub_add_eq, ← take_add, Nat.add_sub_cancel' (by omega)] at stored
    · rw [if_neg more]
      have nothing : min rest.length (pipeBufSize - queue.length) = 0 := by omega
      refine ⟨pipe, by rw [nothing, Nat.add_zero], ?_, .refl pipe⟩
      rw [take_eq_nil_iff.mpr, append_nil]
      · exact holds
      · rcases Nat.eq_zero_or_pos rest.length with none | some
        · exact .inr (length_eq_zero_iff.mp none)
        · exact .inl (by omega)

end Holds

/-- A descriptor whose reads and writes reach the pipe in slot `p`. -/
structure Reaches (s : FdState) (fd : Fin maxFds) (p : Fin maxPipes) : Prop where
  ready : s.vfs.initialized = true
  plain : s.backend fd = none
  isPipe : (s.fdTable fd).IsPipe
  index : (s.fdTable fd).pipeIndex = some p
  inUse : (s.pipes p).inUse = true

namespace Reaches

variable {s : FdState} {fd : Fin maxFds} {p : Fin maxPipes} {queue : List UInt8}

theorem of_entry {flags : Nat} (ready : s.vfs.initialized = true) (plain : s.backend fd = none)
    (entry : s.fdTable fd = ⟨some 0, p, flags, true, 0⟩) (inUse : (s.pipes p).inUse = true) :
    Reaches s fd p where
  ready := ready
  plain := plain
  isPipe := by
    rw [entry]
    exact ⟨rfl, rfl⟩
  index := by
    rw [entry]
    exact dif_pos p.isLt
  inUse := inUse

section

variable (reaches : Reaches s fd p)

include reaches

theorem setPipe {pipe : PipeBuffer} (ends : SameEnds (s.pipes p) pipe) :
    Reaches (s.setPipe p pipe) fd p where
  ready := reaches.ready
  plain := reaches.plain
  isPipe := reaches.isPipe
  index := reaches.index
  inUse := by simpa [ends.inUse] using reaches.inUse

/-- A read takes the front of the queue. -/
theorem read (isOpen : (s.pipes p).readClosed = false) (holds : Holds (s.pipes p) queue)
    (count : Nat) :
    ∃ pipe, vfsRead s fd count = .ok (s.setPipe p pipe, .done (queue.take count)) ∧
      Holds pipe (queue.drop count) ∧ SameEnds (s.pipes p) pipe := by
  obtain ⟨pipe, ran, rest, ends⟩ := Holds.readLoop count count [] holds (Nat.le_refl _)
  refine ⟨pipe, ?_, rest, ends⟩
  rw [vfsRead, dif_pos ⟨fd.isLt, reaches.ready⟩, reaches.plain]
  dsimp only
  rw [if_pos reaches.isPipe, pipeRead, reaches.index]
  simp only [reaches.inUse, isOpen, ran]
  rfl

theorem read_refused (closed : (s.pipes p).readClosed = true)
    (count : Nat) : vfsRead s fd count = .ok (s, .refused) := by
  rw [vfsRead, dif_pos ⟨fd.isLt, reaches.ready⟩, reaches.plain]
  dsimp only
  rw [if_pos reaches.isPipe, pipeRead, reaches.index]
  simp only [closed, or_true, if_true]
  rfl

theorem write_refused (closed : (s.pipes p).writeClosed = true)
    (buf : List UInt8) : vfsWrite s fd buf = .ok (s, .refused) := by
  rw [vfsWrite, dif_pos ⟨fd.isLt, reaches.ready⟩, reaches.plain]
  dsimp only
  rw [if_pos reaches.isPipe, pipeWrite, reaches.index]
  simp only [closed, or_true, if_true]
  rfl

/-- A write puts what there is room for at its back. -/
theorem write (isOpen : (s.pipes p).writeClosed = false)
    (holds : Holds (s.pipes p) queue) (buf : List UInt8) :
    ∃ pipe, vfsWrite s fd buf =
        .ok (s.setPipe p pipe, .done (min buf.length (pipeBufSize - queue.length))) ∧
      Holds pipe (queue ++ buf.take (pipeBufSize - queue.length)) ∧ SameEnds (s.pipes p) pipe := by
  obtain ⟨pipe, ran, stored, ends⟩ := Holds.writeLoop buf.length buf 0 holds (Nat.le_refl _)
  refine ⟨pipe, ?_, stored, ends⟩
  rw [vfsWrite, dif_pos ⟨fd.isLt, reaches.ready⟩, reaches.plain]
  dsimp only
  rw [if_pos reaches.isPipe, pipeWrite, reaches.index]
  simp only [reaches.inUse, isOpen, ran, Nat.zero_add]
  rfl

end

end Reaches

theorem Reaches.close {s : FdState} {fd : Fin maxFds} {p : Fin maxPipes} {flags : Nat}
    (reaches : Reaches s fd p) (entry : s.fdTable fd = ⟨some 0, p, flags, true, 0⟩) :
    vfsClose s fd = ((s.setPipe p ((s.pipes p).closeEnd (flags &&& oWronly ≠ 0))).setFd fd
      FileDesc.zero, true) := by
  have used : (s.fdTable fd).inUse = true := by rw [entry]
  rw [vfsClose_entry reaches.ready reaches.plain used,
    closePipe_eq reaches.isPipe reaches.index reaches.inUse, entry]
  rfl

theorem setPipe_cleared (s : FdState) (p : Fin maxPipes) :
    let opened := s.setPipe p { PipeBuffer.zero with inUse := true }
    opened.setPipe p { opened.pipes p with inUse := false } = s.setPipe p PipeBuffer.zero := by
  simp [FdState.setPipe, PipeBuffer.zero]

theorem vfsPipe_cases {s s' : FdState} {result : Option (Fin maxFds × Fin maxFds)}
    (ran : vfsPipe s = (s', result)) :
    (result = none ∧ s' = s) ∨
    (result = none ∧ ∃ p cursor, (s.pipes p).inUse = false ∧
      s' = { s with fdSearchStart := cursor, pipes := update s.pipes p PipeBuffer.zero }) ∨
    ∃ p rfd wfd, result = some (rfd, wfd) ∧ (s.pipes p).inUse = false ∧
      scanFds s 3 0 maxFds = some rfd ∧
      scanFds { s with fdSearchStart := (rfd.val + 1) % maxFds } 3 0 maxFds = some wfd ∧
      s' = { s with
        fdSearchStart := (wfd.val + 1) % maxFds
        fdTable := update (update s.fdTable rfd ⟨some 0, p, oRdonly, true, 0⟩) wfd
          ⟨some 0, p, oWronly, true, 0⟩
        pipes := update s.pipes p { PipeBuffer.zero with inUse := true } } := by
  unfold vfsPipe at ran
  split at ran
  next => cases ran; exact .inl ⟨rfl, rfl⟩
  next p found =>
    have free := firstSlot_wanted found
    right
    dsimp only at ran
    split at ran
    next first alloc =>
      cases ran
      obtain ⟨rfl, -⟩ | ⟨i, impossible, -⟩ := vfsAllocFd_cases alloc
      · exact .inl ⟨rfl, p, s.fdSearchStart, free, setPipe_cleared s p⟩
      · cases impossible
    next first rfd alloc =>
      obtain ⟨-, impossible⟩ | ⟨i, isFirst, scanned, -, -, rfl⟩ := vfsAllocFd_cases alloc
      · cases impossible
      cases isFirst
      have firstScan : scanFds s 3 0 maxFds = some rfd := by
        rw [← scanned]
        apply scanFds_congr
        · rfl
        · rfl
      split at ran
      next second alloc =>
        cases ran
        obtain ⟨rfl, -⟩ | ⟨i, impossible, -⟩ := vfsAllocFd_cases alloc
        · exact .inl ⟨rfl, p, _, free, setPipe_cleared { s with fdSearchStart := _ } p⟩
        · cases impossible
      next second wfd alloc =>
        cases ran
        obtain ⟨-, impossible⟩ | ⟨i, isSecond, rescanned, -, -, rfl⟩ := vfsAllocFd_cases alloc
        · cases impossible
        cases isSecond
        refine .inr ⟨p, rfd, wfd, rfl, free, firstScan, ?_, rfl⟩
        rw [← rescanned]
        apply scanFds_congr
        · rfl
        · rfl

end M4KK1.Vfs
