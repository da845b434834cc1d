import M4KK1.Lib.MaskedRing
import M4KK1.Copland.Codec
import M4KK1.Copland.Dispatch

/-!
# Connection blocks with arbitrary contents

The ring functions take the size in the block, which the client can write, for that of the array.
-/

namespace M4KK1.Copland

open M4KK1.Lib CArray

def ringMask (size : Nat) : Nat := sub32 size 1

/-- A copy of `len` bytes from a counter on stays in `req_data` or `evt_data`. -/
def CounterInside (size counter len : Nat) : Prop :=
  CopyInside 12 (ringMask size) (counter &&& ringMask size) len

/-- The length word behind a counter lies in the array, as far as a message of eight bytes would, or
is masked into it. -/
def LengthInside (size counter : Nat) : Prop :=
  CounterInside size counter 8 ∨
    4096 ≤ counter &&& ringMask size ∧ 4092 ≤ (counter &&& ringMask size) % 4096 ∧
      ((counter &&& ringMask size) / 4096 + 1) &&& (ringMask size / 4096) = 0

theorem ringMask_lt (size : Nat) : ringMask size < 4294967296 := Nat.mod_lt _ (by decide)

theorem masked_self (value mask : Nat) : (value &&& mask) &&& mask = value &&& mask := by
  rw [Nat.and_assoc, Nat.and_self]

theorem add32_ringMask (left right size : Nat) :
    add32 left right &&& ringMask size = (left + right) &&& ringMask size := by
  have small := ringMask_lt size
  have whole : (left + right) % 2 ^ 32 &&& ringMask size % 2 ^ 32 =
      ((left + right) &&& ringMask size) % 2 ^ 32 := (Nat.and_mod_two_pow).symm
  have isMask : ringMask size % 2 ^ 32 = ringMask size := Nat.mod_eq_of_lt small
  have inMask : ((left + right) &&& ringMask size) % 2 ^ 32 = (left + right) &&& ringMask size :=
    Nat.mod_eq_of_lt (Nat.lt_of_le_of_lt Nat.and_le_right small)
  rw [isMask, inMask] at whole
  exact whole

theorem counterInside_iff {size counter len : Nat} (some : 0 < len) (short : len ≤ 4096) :
    (∀ index < len, add32 (counter &&& ringMask size) index &&& ringMask size < cpRingSize) ↔
      CounterInside size counter len := by
  rw [CounterInside, ← copyInside_iff (masked_self _ _) some short]
  simp only [add32_ringMask]
  rfl

variable {size : Nat}

theorem lengthInside_iff {counter : Nat} : (∀ index, 4 ≤ index → index < 8 →
        add32 (counter &&& ringMask size) index &&& ringMask size < cpRingSize) ↔
      LengthInside size counter := by
  have masked := masked_self counter (ringMask size)
  rw [LengthInside, CounterInside]
  simp only [add32_ringMask]
  generalize counter &&& ringMask size = offset at masked ⊢
  generalize ringMask size = mask at masked ⊢
  by_cases starts : offset < 4096
  · rw [or_iff_left (by omega)]
    constructor
    · intro inside
      refine ⟨starts, or_iff_not_imp_left.mpr fun beyond => ?_⟩
      refine (@second_half_iff 12 mask (offset + 7) ?_ ?_).mp
        (inside 7 (by decide) (by decide)) <;> omega
    · intro inside index _ few
      exact (copyInside_iff masked (by decide) (by decide)).mpr inside index few
  · rw [or_iff_right (fun inside => starts inside.1)]
    have block : (offset / 2 ^ 12) &&& (mask / 2 ^ 12) = offset / 2 ^ 12 := by
      rw [← Nat.shiftRight_eq_div_pow, ← Nat.shiftRight_eq_div_pow, ← Nat.shiftRight_and_distrib,
        masked]
    have place : ∀ index, index < 8 → ((offset + index) &&& mask < 4096 ↔
        4096 ≤ offset % 4096 + index ∧ (offset / 4096 + 1) &&& (mask / 4096) = 0) := by
      intro index few
      have general := @and_lt_two_pow_iff 12 mask (offset + index)
      by_cases next : 4096 ≤ offset % 4096 + index
      · have isNext : (offset + index) / 2 ^ 12 = offset / 4096 + 1 := by omega
        rw [isNext] at general
        exact general.trans (and_iff_right next).symm
      · have same : (offset + index) / 2 ^ 12 = offset / 2 ^ 12 := by omega
        rw [same, block] at general
        refine general.trans (iff_of_false ?_ fun both => next both.1)
        omega
    constructor
    · intro inside
      have first := (place 4 (by decide)).mp (inside 4 (by decide) (by decide))
      exact ⟨by omega, by omega, first.2⟩
    · rintro ⟨-, near, zero⟩ index low few
      exact (place index few).mpr ⟨by omega, zero⟩

/-- The bytes that a reader of a ring meets, from its head on. -/
def unrolled (r : Ring cpRingSize) : CArray UInt8 cpMsgMax :=
  ⟨fun index => r.data.cell (add32 (r.head &&& ringMask r.size) index &&& ringMask r.size)⟩

/-- The length in the header of the message at the head. -/
def announced (r : Ring cpRingSize) : Nat := (messageWord (unrolled r) 4).toNat >>> 16

/-- The message at the head is one that `cp_ring_read` takes. -/
def Announces (r : Ring cpRingSize) : Prop :=
  (cpMsgHdr ≤ announced r ∧ announced r ≤ cpMsgMax ∧ announced r &&& 3 = 0) ∧
    announced r ≤ cpRingUsed r

instance (r : Ring cpRingSize) : Decidable (Announces r) :=
  inferInstanceAs (Decidable ((_ ∧ _ ∧ _) ∧ _))

/-- A read touches the array only: nothing, the length, or the message as well. -/
def ReadInside (r : Ring cpRingSize) : Prop :=
  cpMsgHdr ≤ cpRingUsed r →
    LengthInside r.size r.head ∧ (Announces r → CounterInside r.size r.head (announced r))

variable {r : Ring cpRingSize}

variable (dst : CArray UInt8 cpMsgMax)

theorem length_read (used : cpMsgHdr ≤ cpRingUsed r)
    (inside : LengthInside r.size r.head) :
    (¬ Announces r → ∃ rc ≤ 0, cpRingRead r dst cpMsgMax = .ok (r, dst, rc)) ∧
      (Announces r → cpRingRead r dst cpMsgMax = do
        let dst ← ringLoad r.data (ringMask r.size) (r.head &&& ringMask r.size) dst 0 (announced r)
        .ok ({ r with head := add32 r.head (announced r) }, dst, (announced r : Int))) := by
  have cells := lengthInside_iff.mpr inside
  have word := @wordAt_messageWord cpMsgMax (unrolled r) 4 (by decide)
  rw [wordAt, read_eq (by decide), ok_bind, read_eq (by decide), ok_bind,
    read_eq (by decide), ok_bind, read_eq (by decide), ok_bind] at word
  have size := congrArg (· >>> 16) (Except.ok.inj word)
  change _ = announced r at size
  unfold cpRingRead
  dsimp only
  rw [if_neg (by omega)]
  simp only [show sub32 r.size 1 = ringMask r.size from rfl]
  rw [read_eq (cells 4 (by decide) (by decide)), ok_bind,
    read_eq (cells 5 (by decide) (by decide)), ok_bind,
    read_eq (cells 6 (by decide) (by decide)), ok_bind,
    read_eq (cells 7 (by decide) (by decide)), ok_bind]
  dsimp only [unrolled] at size
  rw [size]
  constructor
  · intro absent
    by_cases formed : cpMsgHdr ≤ announced r ∧ announced r ≤ cpMsgMax ∧ announced r &&& 3 = 0
    · rw [if_neg (by omega), if_pos (Nat.lt_of_not_le fun whole => absent ⟨formed, whole⟩)]
      exact ⟨0, Int.le_refl 0, rfl⟩
    · rw [if_pos (by omega)]
      exact ⟨-1, by decide, rfl⟩
  · rintro ⟨formed, whole⟩
    rw [if_neg (by omega), if_neg (by omega), if_neg (by omega)]

theorem length_of_read {dst : CArray UInt8 cpMsgMax}
    {result : Ring cpRingSize × CArray UInt8 cpMsgMax × Int} (used : cpMsgHdr ≤ cpRingUsed r)
    (ran : cpRingRead r dst cpMsgMax = .ok result) : LengthInside r.size r.head := by
  unfold cpRingRead at ran
  dsimp only at ran
  rw [if_neg (by omega)] at ran
  obtain ⟨_, read4, ran⟩ := bind_ok ran
  obtain ⟨_, read5, ran⟩ := bind_ok ran
  obtain ⟨_, read6, ran⟩ := bind_ok ran
  obtain ⟨_, read7, -⟩ := bind_ok ran
  refine lengthInside_iff.mp fun index low high => ?_
  obtain rfl | rfl | rfl | rfl : index = 4 ∨ index = 5 ∨ index = 6 ∨ index = 7 := by omega
  · exact read_inside read4
  · exact read_inside read5
  · exact read_inside read6
  · exact read_inside read7

/-- The message at the head is there and is taken. -/
def Takeable (r : Ring cpRingSize) : Prop := cpMsgHdr ≤ cpRingUsed r ∧ Announces r

theorem cpRingRead_inside (inside : ReadInside r) :
    (¬ Takeable r ∧ ∃ rc ≤ 0, cpRingRead r dst cpMsgMax = .ok (r, dst, rc)) ∨
      (Takeable r ∧ ∃ dst', cpRingRead r dst cpMsgMax =
          .ok ({ r with head := add32 r.head (announced r) }, dst', (announced r : Int)) ∧
        ∀ index < announced r, dst'.cell index = (unrolled r).cell index) := by
  by_cases used : cpMsgHdr ≤ cpRingUsed r
  · obtain ⟨word, message⟩ := inside used
    obtain ⟨waits, takes⟩ := length_read dst used word
    by_cases announces : Announces r
    · have long : 0 < announced r := Nat.lt_of_lt_of_le (by decide) announces.1.1
      have short := announces.1.2.1
      have cells := (counterInside_iff long (Nat.le_trans short (by decide))).mpr
        (message announces)
      obtain ⟨dst', loaded, -, copied⟩ := @ringLoad_inside _ _ _ _ _ r.data (announced r) dst 0
        (by omega) fun index _ few => cells index (by omega)
      refine .inr ⟨⟨used, announces⟩, dst', ?_, fun index few => ?_⟩
      · rw [takes announces, loaded, ok_bind]
      · exact copied index (Nat.zero_le _) (by omega)
    · exact .inl ⟨fun both => announces both.2, waits announces⟩
  · refine .inl ⟨fun both => used both.1, 0, Int.le_refl 0, ?_⟩
    unfold cpRingRead
    exact if_pos (by omega)

theorem cpRingRead_ok_iff : (∃ result, cpRingRead r dst cpMsgMax = .ok result) ↔ ReadInside r := by
  constructor
  · rintro ⟨result, ran⟩ used
    have word := length_of_read used ran
    refine ⟨word, fun announces => ?_⟩
    have long : 0 < announced r := Nat.lt_of_lt_of_le (by decide) announces.1.1
    have short : announced r ≤ 4096 := Nat.le_trans announces.1.2.1 (by decide)
    rw [(length_read dst used word).2 announces] at ran
    obtain ⟨dst', loaded, -⟩ := bind_ok ran
    exact (counterInside_iff long short).mp fun index few =>
      inside_of_ringLoad _ loaded index (Nat.zero_le _) (by omega)
  · intro inside
    rcases cpRingRead_inside dst inside with ⟨-, rc, -, ran⟩ | ⟨-, dst', ran, -⟩
    · exact ⟨_, ran⟩
    · exact ⟨_, ran⟩

def eventLength (event : Event) : Nat := packedLength cpMsgMax event.fields

/-- What `cp_evt_send` touches for messages of these lengths, one after the other, is in the
array. -/
def SendsInside (reqHead size : Nat) : Nat → List Nat → Prop
  | _, [] => True
  | evtTail, len :: rest =>
    if len ≤ size ∧ len ≤ sub32 size (sub32 evtTail reqHead) then
      CounterInside size evtTail len ∧ SendsInside reqHead size (add32 evtTail len) rest
    else SendsInside reqHead size evtTail rest

theorem cpRingWrite_ok_iff {src : CArray UInt8 cpMsgMax} {len : Nat} (long : 0 < len)
    (short : len ≤ cpMsgMax) :
    (∃ result, cpRingWrite r src len = .ok result) ↔
      (cpRingAccepts r len → CounterInside r.size r.tail len) := by
  by_cases accepts : cpRingAccepts r len
  · have cells := @counterInside_iff r.size r.tail len long (Nat.le_trans short (by decide))
    rw [imp_iff_right accepts, ← cells, cpRingWrite, if_neg (Nat.not_lt.mpr accepts.1),
      if_neg (Nat.not_lt.mpr accepts.2)]
    have loop :=
      @ringStore_ok_iff _ _ _ (ringMask r.size) (r.tail &&& ringMask r.size) src len r.data 0
      (by omega)
    constructor
    · rintro ⟨result, ran⟩ index few
      obtain ⟨data, stored, -⟩ := bind_ok ran
      exact loop.mp ⟨data, stored⟩ index (Nat.zero_le _) (by omega)
    · intro inside
      obtain ⟨data, stored⟩ := loop.mpr fun index _ few => inside index (by omega)
      exact ⟨_, (congrArg (· >>= _) stored).trans rfl⟩
  · exact iff_of_true ⟨_, cpRingWrite_refused src accepts⟩ fun taken => absurd taken accepts

theorem cpRingWrite_tail {src : CArray UInt8 cpMsgMax} {len : Nat} {after : Ring cpRingSize}
    {rc : Int}
    (ran : cpRingWrite r src len = .ok (after, rc)) :
    after.tail = if cpRingAccepts r len then add32 r.tail len else r.tail := by
  by_cases accepts : cpRingAccepts r len
  · rw [if_pos accepts]
    rw [cpRingWrite, if_neg (Nat.not_lt.mpr accepts.1), if_neg (Nat.not_lt.mpr accepts.2)] at ran
    obtain ⟨data, -, ran⟩ := bind_ok ran
    cases ran
    rfl
  · rw [cpRingWrite_refused src accepts] at ran
    cases ran
    rw [if_neg accepts]

theorem cpEvtSend_ok_iff {link : Link} {m : Msgbuf cpMsgMax} (building : Building m) :
    (∃ result, cpEvtSend link m = .ok result) ↔ (cpRingAccepts link.conn.sendView m.len →
        CounterInside link.conn.evtSize link.conn.evtTail m.len) := by
  obtain ⟨b, finish, -⟩ := cpMsgFinish_spec building building.fits
  have notNegative : ¬ (m.len : Int) < 0 := by omega
  have long : 0 < m.len := Nat.lt_of_lt_of_le (by decide) building.long
  have write := @cpRingWrite_ok_iff link.conn.sendView b m.len long building.fits
  rw [cpEvtSend, finish, ok_bind]
  dsimp only
  rw [if_neg notNegative]
  refine Iff.trans ⟨?_, ?_⟩ write
  · rintro ⟨result, ran⟩
    obtain ⟨value, wrote, -⟩ := bind_ok ran
    exact ⟨value, wrote⟩
  · rintro ⟨value, wrote⟩
    exact ⟨_, (congrArg (· >>= _) wrote).trans rfl⟩

theorem emit_hostile {link : Link} (event : Event) :
    ((∃ result, emit link event.obj event.opcode event.fields = .ok result) ↔
      (cpRingAccepts link.conn.sendView (eventLength event) →
        CounterInside link.conn.evtSize link.conn.evtTail (eventLength event))) ∧
    ∀ next message, emit link event.obj event.opcode event.fields = .ok (next, message) →
      next.conn.reqHead = link.conn.reqHead ∧ next.conn.evtSize = link.conn.evtSize ∧
        next.conn.evtTail =
          if cpRingAccepts link.conn.sendView (eventLength event) then
            add32 link.conn.evtTail (eventLength event)
          else link.conn.evtTail := by
  obtain ⟨m, puts, building⟩ := putFields_spec small_cpMsgMax event.fields _
    (cpMsgStart_building (by decide) link.scratch event.obj event.opcode)
  have len : m.len = eventLength event := by
    obtain ⟨m', alsoPuts, -, -, len⟩ := putFields_len small_cpMsgMax
      (cpMsgStart_building (by decide) link.scratch event.obj event.opcode) event.fields
    cases puts.symm.trans alsoPuts
    exact len
  have sends := @cpEvtSend_ok_iff link m building
  rw [len] at sends
  have run : emit link event.obj event.opcode event.fields = cpEvtSend link m := by
    rw [emit, puts, ok_bind]
  rw [run]
  refine ⟨sends, fun next message ran => ?_⟩
  obtain ⟨b, finish, -⟩ := cpMsgFinish_spec building building.fits
  rw [cpEvtSend, finish, ok_bind] at ran
  dsimp only at ran
  rw [if_neg (show ¬ (m.len : Int) < 0 by omega)] at ran
  obtain ⟨⟨after, rc⟩, wrote, ran⟩ := bind_ok ran
  cases ran
  refine ⟨rfl, rfl, ?_⟩
  rw [← len]
  exact cpRingWrite_tail wrote

theorem deliver_ok_iff {link : Link} (events : List Event) :
    (∃ result, deliver link events = .ok result) ↔
      SendsInside link.conn.reqHead link.conn.evtSize link.conn.evtTail
        (events.map eventLength) := by
  induction events generalizing link with
  | nil => exact iff_of_true ⟨link, rfl⟩ trivial
  | cons event rest ih =>
    obtain ⟨sends, moves⟩ := @emit_hostile link event
    rw [List.map_cons, SendsInside]
    change _ ↔ if cpRingAccepts link.conn.sendView (eventLength event) then _ else _
    constructor
    · rintro ⟨result, ran⟩
      obtain ⟨⟨next, message⟩, sent, ran⟩ := bind_ok ran
      obtain ⟨head, size, tail⟩ := moves next message sent
      have later := ih.mp ⟨result, ran⟩
      rw [head, size, tail] at later
      have inside := sends.mp ⟨_, sent⟩
      split
      next accepts =>
        rw [if_pos accepts] at later
        exact ⟨inside accepts, later⟩
      next refused =>
        rw [if_neg refused] at later
        exact later
    · intro inside
      have sent : ∃ result, emit link event.obj event.opcode event.fields = .ok result := by
        refine sends.mpr fun accepts => ?_
        rw [if_pos accepts] at inside
        exact inside.1
      obtain ⟨⟨next, message⟩, sent⟩ := sent
      obtain ⟨head, size, tail⟩ := moves next message sent
      have later : ∃ result, deliver next rest = .ok result := by
        rw [ih, head, size, tail]
        split at inside
        next accepts =>
          rw [if_pos accepts]
          exact inside.2
        next refused =>
          rw [if_neg refused]
          exact inside
      obtain ⟨result, rested⟩ := later
      exact ⟨result, (congrArg (· >>= _) sent).trans rested⟩

def requestAt (r : Ring cpRingSize) : Request :=
  ⟨(messageWord (unrolled r) 0).toNat,
    ((unrolled r).cell 4).toNat ||| ((unrolled r).cell 5).toNat <<< 8,
    messageWords (unrolled r) (announced r)⟩

/-- All that the dispatch of a client touches of its connection block is in the arrays. -/
def DispatchInside (c : Compositor) (i : Fin cpMaxClients) (conn : Conn) : Prop :=
  ReadInside conn.requests ∧
    (Takeable conn.requests →
      SendsInside (add32 conn.reqHead (announced conn.requests)) conn.evtSize conn.evtTail
        ((dispatchRequest c i (requestAt conn.requests)).2.1.map eventLength))

theorem messageWord_congr {left right : CArray UInt8 cpMsgMax} {pos : Nat}
    (same : ∀ index < size, left.cell index = right.cell index) (inside : pos + 4 ≤ size) :
    messageWord left pos = messageWord right pos := by
  rw [messageWord, messageWord, same pos (by omega), same (pos + 1) (by omega),
    same (pos + 2) (by omega), same (pos + 3) (by omega)]

theorem messageWords_congr {left right : CArray UInt8 cpMsgMax}
    (same : ∀ index < size, left.cell index = right.cell index) :
    messageWords left size = messageWords right size := by
  refine List.map_congr_left fun index inside => messageWord_congr same ?_
  have := List.mem_range.mp inside
  unfold cpMsgHdr at *
  omega

theorem cpCompositorDispatch_ok_iff {c : Compositor} {i : Fin cpMaxClients} {link : Link}
    (attached : (c.clients i).active = true ∧ (c.clients i).conn = true) :
    (∃ result, cpCompositorDispatch c i link = .ok result) ↔ DispatchInside c i link.conn := by
  have idle : ¬ ((c.clients i).active = false ∨ (c.clients i).conn = false) := by
    simp [attached]
  rw [cpCompositorDispatch, if_neg idle]
  by_cases inside : ReadInside link.conn.requests
  · rw [DispatchInside, and_iff_right inside]
    rcases cpRingRead_inside link.scratch inside with
      ⟨absent, rc, nothing, read⟩ | ⟨present, scratch, read, same⟩
    · rw [imp_iff_not_or, read, ok_bind]
      dsimp only
      rw [if_pos nothing]
      exact iff_of_true ⟨_, rfl⟩ (.inl absent)
    · have header : 8 ≤ announced link.conn.requests := present.2.1.1
      have word : headerObj scratch = .ok (messageWord (unrolled link.conn.requests) 0).toNat := by
        rw [headerObj, wordAt_messageWord (by decide), messageWord_congr same (by omega)]
      have code : headerOpcode scratch = .ok (((unrolled link.conn.requests).cell 4).toNat |||
          ((unrolled link.conn.requests).cell 5).toNat <<< 8) := by
        rw [headerOpcode, read_eq (by decide), ok_bind, read_eq (by decide), ok_bind,
          same 4 (by omega), same 5 (by omega)]
      have sends := @deliver_ok_iff ⟨{ link.conn with
        reqHead := add32 link.conn.reqHead (announced link.conn.requests) }, scratch⟩
        (dispatchRequest c i (requestAt link.conn.requests)).2.1
      rw [imp_iff_right present, ← sends, read, ok_bind]
      dsimp only
      rw [if_neg (by omega), word, ok_bind, code, ok_bind, Int.toNat_natCast,
        messageWords_congr same]
      constructor
      · rintro ⟨result, ran⟩
        obtain ⟨next, delivered, -⟩ := bind_ok ran
        exact ⟨next, delivered⟩
      · rintro ⟨next, delivered⟩
        exact ⟨_, (congrArg (· >>= _) delivered).trans rfl⟩
  · refine iff_of_false ?_ fun both => inside both.1
    rintro ⟨result, ran⟩
    obtain ⟨value, read, -⟩ := bind_ok ran
    exact inside ((cpRingRead_ok_iff link.scratch).mp ⟨value, read⟩)

theorem counterInside_of_small {counter len : Nat} (some : 0 < size) (small : size ≤ 4096) :
    CounterInside size counter len := by
  have mask : ringMask size = size - 1 := sub32_eq some (by omega)
  have below : ringMask size < 2 ^ 12 := by
    rw [mask]
    omega
  exact ⟨Nat.lt_of_le_of_lt Nat.and_le_right below, .inr (Nat.testBit_lt_two_pow below)⟩

theorem sendsInside_of_small {reqHead : Nat} (some : 0 < size) (small : size ≤ 4096)
    (lengths : List Nat) (evtTail : Nat) : SendsInside reqHead size evtTail lengths := by
  induction lengths generalizing evtTail with
  | nil => trivial
  | cons len rest ih =>
    rw [SendsInside]
    split
    · exact ⟨counterInside_of_small some small, ih _⟩
    · exact ih _

theorem dispatchInside_of_small {c : Compositor} {i : Fin cpMaxClients} {conn : Conn}
    (someReq : 0 < conn.reqSize) (smallReq : conn.reqSize ≤ 4096) (someEvt : 0 < conn.evtSize)
    (smallEvt : conn.evtSize ≤ 4096) : DispatchInside c i conn :=
  ⟨fun _ => ⟨.inl (counterInside_of_small someReq smallReq),
    fun _ => counterInside_of_small someReq smallReq⟩,
    fun _ => sendsInside_of_small someEvt smallEvt _ _⟩

/-- Dispatching and sending stay in the arrays exactly when counters and sizes keep the copies
inside. -/
theorem hostile_conn_inside_iff (c : Compositor) (i : Fin cpMaxClients) (link : Link)
    {m : Msgbuf cpMsgMax} (building : Building m) :
    ((∃ result, cpCompositorDispatch c i link = .ok result) ↔
        ((c.clients i).active = true ∧ (c.clients i).conn = true →
          DispatchInside c i link.conn)) ∧
      ((∃ result, cpEvtSend link m = .ok result) ↔
        (cpRingAccepts link.conn.sendView m.len →
          CounterInside link.conn.evtSize link.conn.evtTail m.len)) := by
  refine ⟨?_, cpEvtSend_ok_iff building⟩
  by_cases attached : (c.clients i).active = true ∧ (c.clients i).conn = true
  · rw [imp_iff_right attached]
    exact cpCompositorDispatch_ok_iff attached
  · refine iff_of_true ?_ fun both => absurd both attached
    rw [cpCompositorDispatch, if_pos (by
      rw [not_and_or, Bool.not_eq_true, Bool.not_eq_true] at attached
      exact attached)]
    exact ⟨_, rfl⟩

/-- A request of twelve bytes that goes over the end of its ring, and event counters that are no
multiple of four. -/
def oddLink : Link :=
  { freshLink with conn :=
    { freshLink.conn with
      reqHead := 4093
      reqTail := 4105
      reqData := ⟨fun index => [1, 0, 0, 0, 0, 0, 12, 0, 3, 0, 0, 0].getD ((index + 3) % 4096) 0⟩
      evtHead := 8190
      evtTail := 8197 } }

/-- The request is served and an event is sent, with every access inside. -/
theorem hostile_conn_inside_odd :
    (∃ result, cpCompositorDispatch twoClients 0 oddLink = .ok result ∧
        result.2.1.conn.reqHead = 4105 ∧ 0 < result.2.2) ∧
      ∃ result, cpEvtSend oddLink (cpMsgStart (CArray.fill 0) 1 0) = .ok result := by
  have both := hostile_conn_inside_iff twoClients 0 oddLink
    (cpMsgStart_building (by decide) (CArray.fill 0 : CArray UInt8 cpMsgMax) 1 0)
  obtain ⟨result, ran⟩ := both.1.mpr fun _ =>
    dispatchInside_of_small (by decide) (by decide) (by decide) (by decide)
  have served : (cpCompositorDispatch twoClients 0 oddLink).toOption.any (fun result =>
      result.2.1.conn.reqHead = 4105 ∧ 0 < result.2.2) = true := by decide +kernel
  rw [ran] at served
  exact ⟨⟨result, ran, of_decide_eq_true served⟩,
    both.2.mpr fun _ => counterInside_of_small (by decide) (by decide)⟩

/-- A block with rings of 8192 bytes, and counters in their second halves. -/
def wideLink : Link :=
  { freshLink with conn :=
    { freshLink.conn with
      reqHead := 4096, reqTail := 4104, reqSize := 8192
      evtHead := 4096, evtTail := 4096, evtSize := 8192 } }

/-- The length word of the request, and the event, lie behind the arrays. -/
theorem hostile_conn_outside :
    ¬ (∃ result, cpCompositorDispatch twoClients 0 wideLink = .ok result) ∧
      ¬ ∃ result, cpEvtSend wideLink (cpMsgStart (CArray.fill 0) 1 0) = .ok result := by
  constructor
  · rintro ⟨result, ran⟩
    have failed : (cpCompositorDispatch twoClients 0 wideLink).isOk = false := by decide +kernel
    rw [ran] at failed
    cases failed
  · rintro ⟨result, ran⟩
    have failed : (cpEvtSend wideLink (cpMsgStart (CArray.fill 0) 1 0)).isOk = false := by
      decide +kernel
    rw [ran] at failed
    cases failed

end M4KK1.Copland
