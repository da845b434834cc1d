import M4KK1.Copland.Rings
import M4KK1.Lib.Run

/-!
# The message ring as a queue

The messages accepted are those taken, followed by those still in the ring.
-/

namespace M4KK1.Copland

open M4KK1.Lib List

/-- A write with its result, or the result of a read with the bytes it gave. -/
inductive RingCall where
  | write (message : List UInt8) (rc : Int)
  | read (rc : Int) (bytes : List UInt8)

variable {cap : Nat}

inductive RingStep : Ring cap → RingCall → Ring cap → Prop where
  | write {r r' : Ring cap} {srcSize len : Nat} {src : CArray UInt8 srcSize} {rc : Int}
      (inside : len ≤ srcSize) (isMessage : IsMessage (src.take len))
      (ran : cpRingWrite r src len = .ok (r', rc)) :
      RingStep r (.write (src.take len) rc) r'
  | read {r r' : Ring cap} {dstSize : Nat} {dst dst' : CArray UInt8 dstSize} {rc : Int}
      (wide : cpMsgMax ≤ dstSize) (ran : cpRingRead r dst dstSize = .ok (r', dst', rc)) :
      RingStep r (.read rc (dst'.take rc.toNat)) r'

/-- The messages of the writes that were not refused. -/
def accepted (calls : List RingCall) : List (List UInt8) :=
  calls.flatMap fun call =>
    match call with
    | .write message rc => if rc < 0 then [] else [message]
    | .read _ _ => []

/-- The messages of the reads that returned one. -/
def taken (calls : List RingCall) : List (List UInt8) :=
  calls.flatMap fun call =>
    match call with
    | .write _ _ => []
    | .read rc bytes => if rc > 0 then [bytes] else []

/-- The ring holds the messages one behind the other. -/
structure Queued (r : Ring cap) (queue : List (List UInt8)) : Prop where
  sound : Sound r
  pending : Pending r queue.flatten
  messages : ∀ message ∈ queue, IsMessage message
  fits : queue.flatten.length ≤ cap

namespace Queued

variable {r : Ring cap} {queue : List (List UInt8)}

theorem free_eq (queued : Queued r queue) :
    cpRingFree r = cap - queue.flatten.length ∧ cpRingUsed r + cpRingFree r = cap := by
  have bounded := queued.sound.ring.le
  have fits := queued.fits
  unfold cpRingFree
  rw [queued.pending.used, queued.sound.whole, sub32_eq fits (by omega)]
  omega

theorem write (queued : Queued r queue) {srcSize len : Nat} {src : CArray UInt8 srcSize}
    (inside : len ≤ srcSize) (isMessage : IsMessage (src.take len)) :
    (cpRingFree r < len ∧ cpRingWrite r src len = .ok (r, -1)) ∨
    (len ≤ cpRingFree r ∧ ∃ r', cpRingWrite r src len = .ok (r', (len : Int)) ∧
      Queued r' (queue ++ [src.take len])) := by
  obtain ⟨free, _⟩ := queued.free_eq
  have fits := queued.fits
  have bounded := queued.sound.ring.le
  have accepts : cpRingAccepts r len ↔ len ≤ cpRingFree r := by
    unfold cpRingAccepts
    rw [queued.sound.whole, show sub32 cap (cpRingUsed r) = cpRingFree r by
      rw [cpRingFree, queued.sound.whole]]
    omega
  by_cases room : len ≤ cpRingFree r
  · right
    obtain ⟨data, ran, stored⟩ :=
      cpRingWrite_stored src queued.sound inside (accepts.mpr room)
    refine ⟨room, _, ran, ?_, ?_, ?_, ?_⟩
    · obtain ⟨whole, ring, head, _⟩ := queued.sound
      exact ⟨whole, ring, head, add32_lt _ _⟩
    · simpa using queued.pending.store queued.sound (by omega) stored
    · intro message member
      rcases mem_append.mp member with old | new
      · exact queued.messages message old
      · rw [mem_singleton.mp new]
        exact isMessage
    · simp only [flatten_append, length_append, flatten_cons, flatten_nil, append_nil,
        CArray.length_take]
      omega
  · exact .inl ⟨by omega, cpRingWrite_refused src (mt accepts.mp room)⟩

theorem read_empty (queued : Queued r []) {dstSize : Nat} (dst : CArray UInt8 dstSize) :
    cpRingRead r dst dstSize = .ok (r, dst, 0) :=
  cpRingRead_empty queued.pending.used dst dstSize

theorem read_first {message : List UInt8} (queued : Queued r (message :: queue)) {dstSize : Nat}
    (wide : cpMsgMax ≤ dstSize) (dst : CArray UInt8 dstSize) :
    ∃ r' dst', cpRingRead r dst dstSize = .ok (r', dst', (message.length : Int)) ∧
      dst'.take message.length = message ∧ Queued r' queue := by
  have isMessage := queued.messages message mem_cons_self
  have pending := queued.pending
  rw [flatten_cons] at pending
  have short : message.length ≤ dstSize := Nat.le_trans isMessage.short wide
  have whole : message.length ≤ cpRingUsed r := by
    rw [pending.used, length_append]
    omega
  obtain ⟨narrow, _⟩ | ⟨dst', ran, copied⟩ := cpRingRead_message queued.sound isMessage
    (Window.append_iff.mp pending.window).1 whole dst
  · omega
  · refine ⟨_, dst', ran, copied, ?_, ?_, ?_, ?_⟩
    · obtain ⟨isCap, ring, _, tail⟩ := queued.sound
      exact ⟨isCap, ring, add32_lt _ _, tail⟩
    · exact pending.take queued.sound
    · intro other member
      exact queued.messages other (mem_cons_of_mem _ member)
    · have fits := queued.fits
      rw [flatten_cons, length_append] at fits
      omega

end Queued

theorem ring_conserves {start r : Ring cap} {calls : List RingCall} (empty : Queued start [])
    (run : Steps RingStep start calls r) :
    ∃ queue, accepted calls = taken calls ++ queue ∧ Queued r queue := by
  refine run.history (fun calls r => ∃ queue, accepted calls = taken calls ++ queue ∧
    Queued r queue) ?_ ⟨[], rfl, empty⟩
  rintro calls r call next ⟨queue, conserved, queued⟩ step
  have acceptedMore : accepted (calls ++ [call]) = accepted calls ++ accepted [call] :=
    flatMap_append
  have takenMore : taken (calls ++ [call]) = taken calls ++ taken [call] := flatMap_append
  rw [acceptedMore, takenMore, conserved]
  cases step with
  | @write _ srcSize len src rc inside isMessage ran =>
    obtain ⟨_, refused⟩ | ⟨_, r', stored, queued'⟩ := queued.write inside isMessage
    · obtain ⟨rfl, rfl⟩ := Prod.mk.inj (Except.ok.inj (refused.symm.trans ran))
      exact ⟨queue, by simp [accepted, taken], queued⟩
    · obtain ⟨rfl, rfl⟩ := Prod.mk.inj (Except.ok.inj (stored.symm.trans ran))
      refine ⟨queue ++ [src.take len], ?_, queued'⟩
      simp [accepted, taken]
  | @read _ dstSize dst dst' rc wide ran =>
    cases queue with
    | nil =>
      obtain ⟨rfl, whole⟩ := Prod.mk.inj (Except.ok.inj (queued.read_empty dst |>.symm.trans ran))
      obtain ⟨rfl, rfl⟩ := Prod.mk.inj whole
      exact ⟨[], by simp [accepted, taken], queued⟩
    | cons message queue =>
      obtain ⟨r', filled, took, copied, queued'⟩ := queued.read_first wide dst
      obtain ⟨rfl, whole⟩ := Prod.mk.inj (Except.ok.inj (took.symm.trans ran))
      obtain ⟨rfl, rfl⟩ := Prod.mk.inj whole
      have long := (queued.messages message mem_cons_self).long
      refine ⟨queue, ?_, queued'⟩
      have positive : 0 < message.length := by omega
      simp [accepted, taken, copied, positive]

/-- What the next calls on a ring do, after the messages `took` of `offered` have been
taken. -/
structure ServesNext (r : Ring cap) (offered took : List (List UInt8)) : Prop where
  write : ∀ {srcSize len : Nat} (src : CArray UInt8 srcSize), len ≤ srcSize →
    IsMessage (src.take len) → ∃ r' rc, cpRingWrite r src len = .ok (r', rc) ∧
      (rc = -1 ∨ rc = len) ∧ (rc = -1 ↔ cpRingFree r < len) ∧ (rc = -1 → r' = r)
  read : ∀ {dstSize : Nat} (dst : CArray UInt8 dstSize), cpMsgMax ≤ dstSize →
    ∃ r' dst' rc, cpRingRead r dst dstSize = .ok (r', dst', rc) ∧
      (took = offered → rc = 0 ∧ r' = r ∧ dst' = dst) ∧
      (took ≠ offered → 0 < rc ∧ (took ++ [dst'.take rc.toNat]) <+: offered)

theorem Queued.servesNext {r : Ring cap} {queue offered took : List (List UInt8)}
    (queued : Queued r queue) (conserved : offered = took ++ queue) :
    ServesNext r offered took where
  write {srcSize len} src inside isMessage := by
    have long := isMessage.long
    rw [CArray.length_take] at long
    obtain ⟨full, refused⟩ | ⟨room, r', stored, _⟩ := queued.write inside isMessage
    · exact ⟨r, -1, refused, .inl rfl, iff_of_true rfl full, fun _ => rfl⟩
    · refine ⟨r', len, stored, .inr rfl, iff_of_false ?_ ?_, fun isRefusal => ?_⟩
      · omega
      · omega
      · omega
  read {dstSize} dst wide := by
    subst conserved
    cases queue with
    | nil =>
      refine ⟨r, dst, 0, queued.read_empty dst, fun _ => ⟨rfl, rfl, rfl⟩, fun differ => ?_⟩
      simp at differ
    | cons message queue =>
      obtain ⟨r', dst', took', copied, _⟩ := queued.read_first wide dst
      have long := (queued.messages message mem_cons_self).long
      refine ⟨r', dst', message.length, took', fun same => ?_, fun _ => ⟨by omega, ?_⟩⟩
      · simp at same
      · rw [Int.toNat_natCast, copied]
        exact ⟨queue, by simp⟩

theorem queued_empty (ring : RingSize cap) {counter : Nat} (counted : counter < 4294967296)
    (data : CArray UInt8 cap) : Queued (⟨counter, counter, data, cap⟩ : Ring cap) [] := by
  refine ⟨⟨rfl, ring, counted, counted⟩, ⟨?_, Window.nil⟩, by simp, by simp⟩
  unfold cpRingUsed
  rw [sub32_eq (Nat.le_refl _) counted]
  simp

/-- Whatever the interleaving, the messages taken are a prefix of those accepted. -/
theorem message_ring_fifo (ring : RingSize cap) {counter : Nat} (counted : counter < 4294967296)
    (data : CArray UInt8 cap) {calls : List RingCall} {r : Ring cap}
    (run : Steps RingStep ⟨counter, counter, data, cap⟩ calls r) :
    taken calls <+: accepted calls ∧ cpRingUsed r + cpRingFree r = cap ∧
      ServesNext r (accepted calls) (taken calls) := by
  obtain ⟨queue, conserved, queued⟩ := ring_conserves (queued_empty ring counted data) run
  exact ⟨⟨queue, conserved.symm⟩, queued.free_eq.2, queued.servesNext conserved⟩

/-- A message of eight bytes written and read across the wrap of both counters. -/
theorem message_ring_fifo_wrapped :
    ∃ (calls : List RingCall) (r : Ring 16),
      Steps RingStep ⟨4294967292, 4294967292, CArray.fill 0, 16⟩ calls r ∧
      taken calls = [[7, 0, 0, 0, 5, 0, 8, 0]] ∧ taken calls <+: accepted calls ∧
      cpRingUsed r + cpRingFree r = 16 ∧ ServesNext r (accepted calls) (taken calls) := by
  have ring : RingSize 16 := ⟨4, by decide, rfl⟩
  have isMessage : IsMessage ((CArray.ofList [7, 0, 0, 0, 5, 0, 8, 0] : CArray UInt8 8).take 8) :=
    ⟨by decide, by decide, by decide, by decide, by decide⟩
  have start := queued_empty ring (show 4294967292 < 4294967296 by decide) (CArray.fill 0)
  obtain ⟨full, _⟩ | ⟨_, middle, wrote, queued⟩ := start.write (Nat.le_refl 8) isMessage
  · exact absurd full (by decide)
  · obtain ⟨final, dst, took, copied, _⟩ :=
      queued.read_first (Nat.le_refl cpMsgMax) (CArray.fill 0)
    have run := (Steps.refl.step (RingStep.write (Nat.le_refl 8) isMessage wrote)).step
      (RingStep.read (Nat.le_refl cpMsgMax) took)
    refine ⟨_, final, run, ?_, message_ring_fifo ring (by decide) (CArray.fill 0) run⟩
    rw [Int.toNat_natCast, copied]
    rfl

end M4KK1.Copland
