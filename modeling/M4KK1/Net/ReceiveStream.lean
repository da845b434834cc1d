import M4KK1.Lib.Run
import M4KK1.Net.Tcp

/-!
# The bytes a connection receives

Data is taken only at `rcv_nxt`, but the FIN flag of any segment is obeyed.
-/

namespace M4KK1.Net

open M4KK1.Lib Function List

/-- The `len` bytes at `base` are a segment with these fields and `payload` behind its header. -/
structure Carries (frame : Nat → UInt8) (base len srcPort dstPort seq : Nat) (flags : Flags)
    (payload : List UInt8) : Prop where
  source : be16 frame base = srcPort
  destination : be16 frame (base + 2) = dstPort
  number : be32 frame (base + 4) = seq
  isFlags : flagsOf (frame (base + 13)) = flags
  header : 20 ≤ tcpHeaderLength frame base
  length : len = tcpHeaderLength frame base + payload.length
  bytes : ∀ i (inside : i < payload.length),
    frame (base + tcpHeaderLength frame base + i) = payload[i]

/-- A piece of the peer's stream: the bytes from `offset` on, and the FIN behind the last byte. -/
structure Piece (stream : List UInt8) where
  offset : Nat
  payload : List UInt8
  flags : Flags
  part : payload = (stream.drop offset).take payload.length
  inside : offset + payload.length ≤ stream.length
  last : flags.fin = true → offset + payload.length = stream.length
  plain : flags.syn = false ∧ flags.rst = false

/-- The connection in a table, and the bytes that `mkrn_tcp_recv` has returned. -/
structure Receiver where
  tcp : Tcp
  delivered : List UInt8

/-- The two ends of a connection, and the peer's initial sequence number. -/
structure Endpoints where
  slot : Nat
  remoteIp : Nat
  localPort : Nat
  remotePort : Nat
  isn : Nat

inductive Event (stream : List UInt8) where
  | arrive (piece : Piece stream)
  | recv (maxlen : Nat)

/-- A piece arrives in some frame, or the bytes in the buffer are asked for. -/
inductive ReceiveStep (link : Nat → Bool) (e : Endpoints) (stream : List UInt8) :
    Receiver → Event stream → Receiver → Prop where
  | arrive {r : Receiver} {frame : Nat → UInt8} {base len : Nat} (piece : Piece stream)
      (carries : Carries frame base len e.remotePort e.localPort (add32 e.isn (1 + piece.offset))
        piece.flags piece.payload) :
      ReceiveStep link e stream r (.arrive piece)
        ⟨(mkrnTcpHandlePacket link r.tcp frame base len e.remoteIp).1, r.delivered⟩
  | recv {r : Receiver} (maxlen : Nat) :
      ReceiveStep link e stream r (.recv maxlen)
        ⟨(mkrnTcpRecv r.tcp e.slot maxlen).1,
          r.delivered ++ (mkrnTcpRecv r.tcp e.slot maxlen).2.getD []⟩

/-- The bytes of the stream that were put into the buffer. -/
def Receiver.accepted (r : Receiver) (slot : Nat) : Nat :=
  r.delivered.length + (r.tcp.conns slot).rlen

/-- The receiver has a prefix of the stream, and its connection says so. -/
def ReceiveSound (e : Endpoints) (stream : List UInt8) (r : Receiver) : Prop :=
  let c := r.tcp.conns e.slot
  r.delivered <+: stream ∧ c.rlen ≤ tcpRxBuf ∧
    c.rcvNxt = add32 e.isn (1 + r.accepted e.slot + if c.state = .closeWait then 1 else 0) ∧
    (c.state = .closeWait → r.accepted e.slot = stream.length)

/-- A piece with the expected number is the piece expected, and a FIN comes once. -/
def InOrder (e : Endpoints) (stream : List UInt8) (r : Receiver) : Event stream → Prop
  | .arrive piece =>
    let c := r.tcp.conns e.slot
    (piece.payload ≠ [] → add32 e.isn (1 + piece.offset) = c.rcvNxt →
      piece.offset = r.accepted e.slot) ∧
    (piece.flags.fin = true → c.state = .established ∧
      (r.accepted e.slot = stream.length ∨
        (piece.offset = r.accepted e.slot ∧ piece.payload.length ≤ tcpRxBuf - c.rlen)))
  | .recv _ => True

variable {link : Nat → Bool} {t t' : Tcp} {slot base len hdrlen : Nat} {frame : Nat → UInt8}
  {flags : Flags} {data : List UInt8}

/-- `t'` differs from `t` in the connection in `slot` and in what was emitted. -/
def Becomes (t t' : Tcp) (slot : Nat) (c : Conn) : Prop :=
  ∃ sndNxt, t'.conns = update t.conns slot { c with sndNxt := sndNxt }

theorem Becomes.refl (t : Tcp) (slot : Nat) : Becomes t t slot (t.conns slot) :=
  ⟨_, (update_eq_self slot t.conns).symm⟩

theorem Becomes.set {c : Conn} (becomes : Becomes t t' slot c) (d : Conn) :
    Becomes t (t'.set slot d) slot d := by
  obtain ⟨sndNxt, isConns⟩ := becomes
  exact ⟨d.sndNxt, by rw [Tcp.set, isConns, update_idem]⟩

theorem Becomes.emit {c : Conn} (becomes : Becomes t t' slot c) :
    Becomes t (tcpEmit link t' slot flags data).1 slot c := by
  obtain ⟨sndNxt, isConns⟩ := becomes
  rw [tcpEmit]
  dsimp only
  split
  · exact ⟨sndNxt, isConns⟩
  · refine ⟨?_, ?_⟩
    rotate_left
    · simp only [Tcp.set, isConns, update_idem, update_self]
      rfl

def Conn.withData (c : Conn) (frame : Nat → UInt8) (base hdrlen dlen : Nat) : Conn :=
  if 0 < dlen ∧ be32 frame (base + 4) = c.rcvNxt then
    { c.append frame (base + hdrlen) (c.room dlen) with rcvNxt := add32 c.rcvNxt (c.room dlen) }
  else c

def Conn.withFin (c : Conn) : Conn :=
  { c with
    rcvNxt := add32 c.rcvNxt 1
    state := if c.state = .established then .closeWait else c.state }

theorem receiveData_becomes {dlen : Nat} :
    Becomes t (receiveData link t slot frame base hdrlen dlen).1 slot
      ((t.conns slot).withData frame base hdrlen dlen) := by
  unfold receiveData Conn.withData
  by_cases empty : dlen > 0
  · by_cases inOrder : be32 frame (base + 4) = (t.conns slot).rcvNxt
    · simp only [empty, inOrder, if_true, and_self]
      exact ((Becomes.refl t slot).set _).emit
    · simp only [empty, inOrder, if_true, if_false, and_false]
      exact (Becomes.refl t slot).emit
  · simp only [empty, if_false, false_and]
    exact Becomes.refl t slot

theorem receiveFin_becomes : Becomes t (receiveFin link t slot) slot (t.conns slot).withFin := by
  have emitted : Becomes t (tcpEmit link (t.set slot { t.conns slot with
      rcvNxt := add32 (t.conns slot).rcvNxt 1 }) slot { ack := true } []).1 slot
      { t.conns slot with rcvNxt := add32 (t.conns slot).rcvNxt 1 } :=
    ((Becomes.refl t slot).set _).emit
  rw [receiveFin]
  dsimp only at emitted ⊢
  generalize (tcpEmit link (t.set slot _) slot _ []).1 = current at *
  obtain ⟨sndNxt, isConns⟩ := emitted
  have isState : (current.conns slot).state = (t.conns slot).state := by
    rw [isConns, update_self]
  unfold Conn.withFin
  by_cases established : (t.conns slot).state = .established
  · rw [if_pos (isState.trans established), if_pos established]
    refine ⟨sndNxt, ?_⟩
    rw [Tcp.set, isConns, update_idem, update_self]
  · rw [if_neg (isState ▸ established), if_neg established]
    exact ⟨sndNxt, isConns⟩

/-- The other connections in use have another peer or another local port. -/
def Alone (e : Endpoints) (t : Tcp) : Prop :=
  ∀ other < tcpMaxConns, other ≠ e.slot → (t.conns other).used = true →
    ¬((t.conns other).remoteIp = e.remoteIp ∧ (t.conns other).localPort = e.localPort)

theorem handleSlots_alone {e : Endpoints} {slots : List Nat} (alone : Alone e t)
    (port : be16 frame (base + 2) = e.localPort) (real : ∀ slot ∈ slots, slot < tcpMaxConns)
    (member : e.slot ∈ slots) :
    ∃ rest, (handleSlots link frame base len hdrlen e.remoteIp slots t).1 =
      (handleSlots link frame base len hdrlen e.remoteIp (e.slot :: rest) t).1 := by
  induction slots with
  | nil => exact absurd member not_mem_nil
  | cons slot rest ih =>
    by_cases isSlot : slot = e.slot
    · exact ⟨rest, by rw [isSlot]⟩
    obtain ⟨isReal, realRest⟩ := forall_mem_cons.mp real
    obtain ⟨rest', skipped⟩ := ih realRest ((mem_cons.mp member).resolve_left (Ne.symm isSlot))
    refine ⟨rest', Eq.trans ?_ skipped⟩
    rw [handleSlots]
    dsimp only
    by_cases unused : (t.conns slot).used = false ∨ (t.conns slot).remoteIp ≠ e.remoteIp
    · rw [if_pos unused]
    · have inUse : (t.conns slot).used = true ∧ (t.conns slot).remoteIp = e.remoteIp := by
        simpa using unused
      have otherPort : be16 frame (base + 2) ≠ (t.conns slot).localPort := by
        intro same
        exact alone slot isReal isSlot inUse.1 ⟨inUse.2, same.symm.trans port⟩
      rw [if_neg unused, if_pos otherPort]

theorem handlePacket_alone {e : Endpoints} {seq : Nat} (isSlot : e.slot < tcpMaxConns)
    (alone : Alone e t) (carries : Carries frame base len e.remotePort e.localPort seq flags data) :
    ∃ rest, (mkrnTcpHandlePacket link t frame base len e.remoteIp).1 =
      (handleSlots link frame base len (tcpHeaderLength frame base) e.remoteIp
        (e.slot :: rest) t).1 := by
  have header := carries.header
  have length := carries.length
  rw [mkrnTcpHandlePacket, if_neg (by omega), if_neg (by omega)]
  exact handleSlots_alone alone carries.destination (fun _ => mem_range.mp)
    (mem_range.mpr isSlot)

/-- The connection is the one between these two endpoints. -/
structure Joined (e : Endpoints) (c : Conn) : Prop where
  used : c.used = true
  remoteIp : c.remoteIp = e.remoteIp
  localPort : c.localPort = e.localPort
  remotePort : c.remotePort = e.remotePort
  isOpen : c.state = .established ∨ c.state = .closeWait

/-- What an arriving segment makes of the connection. -/
def Conn.received (c : Conn) (frame : Nat → UInt8) (base dlen : Nat) (fin : Bool) : Conn :=
  let taken := c.withData frame base (tcpHeaderLength frame base) dlen
  if fin then taken.withFin else taken

theorem handlePacket_becomes {e : Endpoints} {seq : Nat} (isSlot : e.slot < tcpMaxConns)
    (alone : Alone e t) (joined : Joined e (t.conns e.slot))
    (carries : Carries frame base len e.remotePort e.localPort seq flags data)
    (plain : flags.syn = false ∧ flags.rst = false) :
    Becomes t (mkrnTcpHandlePacket link t frame base len e.remoteIp).1 e.slot
      ((t.conns e.slot).received frame base data.length flags.fin) := by
  obtain ⟨rest, skipped⟩ :=
    @handlePacket_alone link t base len frame flags _ e _ isSlot alone carries
  have inUse : ¬((t.conns e.slot).used = false ∨ (t.conns e.slot).remoteIp ≠ e.remoteIp) := by
    simp [joined.used, joined.remoteIp]
  have port : ¬be16 frame (base + 2) ≠ (t.conns e.slot).localPort := by
    simp [carries.destination, joined.localPort]
  have notShaking : (t.conns e.slot).state ≠ .synSent := by
    rcases joined.isOpen with isState | isState <;> simp [isState]
  have peer : ¬((t.conns e.slot).state ≠ .synSent ∧
      be16 frame base ≠ (t.conns e.slot).remotePort) := by
    simp [carries.source, joined.remotePort]
  have takesData : (t.conns e.slot).state = .established ∨ (t.conns e.slot).state = .finWait ∨
      (t.conns e.slot).state = .closeWait := joined.isOpen.imp_right .inr
  have dlen : len - tcpHeaderLength frame base = data.length := by
    have := carries.length
    omega
  rw [skipped, handleSlots]
  dsimp only
  rw [if_neg inUse, if_neg port, if_neg peer, if_neg notShaking, carries.isFlags,
    if_neg (fun shakes => notShaking shakes.1), if_neg (by simp [plain.2]), if_pos takesData, dlen]
  dsimp only
  rw [Conn.received]
  have taken :=
    @receiveData_becomes link t e.slot base (tcpHeaderLength frame base) frame data.length
  generalize receiveData link t e.slot frame base _ data.length = result at *
  by_cases isFin : flags.fin = true
  · rw [if_pos isFin, if_pos isFin]
    obtain ⟨sndNxt, isConns⟩ := taken
    obtain ⟨sndNxt', isConns'⟩ := @receiveFin_becomes link result.1 e.slot
    refine ⟨sndNxt', ?_⟩
    rw [isConns', isConns, update_idem, update_self]
    rfl
  · rw [if_neg isFin, if_neg isFin]
    exact taken

/-- The delivered bytes and those in the buffer are the first of the stream. -/
structure Holding (e : Endpoints) (stream delivered : List UInt8) (c : Conn) : Prop where
  joined : Joined e c
  taken : delivered = stream.take delivered.length
  buffered : ∀ i < c.rlen, stream[delivered.length + i]? = some (c.rbuf i)
  room : c.rlen ≤ tcpRxBuf
  inside : delivered.length + c.rlen ≤ stream.length
  next : c.rcvNxt = add32 e.isn
    (1 + (delivered.length + c.rlen) + if c.state = .closeWait then 1 else 0)
  closed : c.state = .closeWait → delivered.length + c.rlen = stream.length

variable {e : Endpoints} {stream delivered : List UInt8} {c : Conn}

theorem Conn.room_eq (room : c.rlen ≤ tcpRxBuf) (dlen : Nat) :
    c.room dlen = min dlen (tcpRxBuf - c.rlen) := by
  unfold Conn.room tcpRxBuf at *
  dsimp only
  split <;> omega

theorem Piece.byte (piece : Piece stream) {k : Nat} (inside : k < piece.payload.length) :
    stream[piece.offset + k]? = some piece.payload[k] := by
  rw [← getElem?_eq_getElem inside, ← getElem?_drop]
  conv_rhs => rw [piece.part]
  rw [getElem?_take_of_lt inside]

section

variable (holding : Holding e stream delivered c)

include holding

theorem Holding.withData (piece : Piece stream)
    (carries : Carries frame base len e.remotePort e.localPort (add32 e.isn (1 + piece.offset))
      piece.flags piece.payload)
    (genuine : piece.payload ≠ [] → add32 e.isn (1 + piece.offset) = c.rcvNxt →
      piece.offset = delivered.length + c.rlen) :
    Holding e stream delivered
      (c.withData frame base (tcpHeaderLength frame base) piece.payload.length) := by
  unfold Conn.withData
  split
  case isFalse => exact holding
  case isTrue expected =>
    obtain ⟨nonempty, isNext⟩ := expected
    have atPlace := genuine (length_pos_iff.mp nonempty) (carries.number ▸ isNext)
    have fits := piece.inside
    have isOpen : c.state ≠ .closeWait := by
      intro closed
      have := holding.closed closed
      omega
    have count := Conn.room_eq holding.room piece.payload.length
    have room := holding.room
    have total : (c.rlen + c.room piece.payload.length) % 65536 =
        c.rlen + c.room piece.payload.length := by
      unfold tcpRxBuf at *
      omega
    refine ⟨?_, holding.taken, ?_, ?_, ?_, ?_, ?_⟩
    · exact { holding.joined with }
    · intro i inside
      have below : i < c.rlen + c.room piece.payload.length := total ▸ inside
      change _ = some (if c.rlen ≤ i ∧ i < c.rlen + c.room piece.payload.length then
        frame (base + tcpHeaderLength frame base + (i - c.rlen)) else c.rbuf i)
      by_cases added : c.rlen ≤ i
      · have isByte := piece.byte (show i - c.rlen < piece.payload.length by omega)
        rw [if_pos ⟨added, below⟩, carries.bytes (i - c.rlen) (by omega), ← isByte, atPlace]
        congr 1
        omega
      · rw [if_neg (fun both => added both.1)]
        exact holding.buffered i (by omega)
    · change (c.rlen + c.room piece.payload.length) % 65536 ≤ tcpRxBuf
      omega
    · change delivered.length + (c.rlen + c.room piece.payload.length) % 65536 ≤ stream.length
      omega
    · change add32 c.rcvNxt (c.room piece.payload.length) = add32 e.isn
        (1 + (delivered.length + (c.rlen + c.room piece.payload.length) % 65536) +
          if c.state = .closeWait then 1 else 0)
      rw [holding.next, total, if_neg isOpen, add32, add32, add32]
      omega
    · intro closed
      exact absurd closed isOpen

theorem withData_complete (piece : Piece stream)
    (carries : Carries frame base len e.remotePort e.localPort (add32 e.isn (1 + piece.offset))
      piece.flags piece.payload)
    (genuine : piece.payload ≠ [] → add32 e.isn (1 + piece.offset) = c.rcvNxt →
      piece.offset = delivered.length + c.rlen)
    (isFin : piece.flags.fin = true) (established : c.state = .established)
    (complete : delivered.length + c.rlen = stream.length ∨
      (piece.offset = delivered.length + c.rlen ∧ piece.payload.length ≤ tcpRxBuf - c.rlen)) :
    delivered.length +
      (c.withData frame base (tcpHeaderLength frame base) piece.payload.length).rlen =
        stream.length := by
  have isLast := piece.last isFin
  have isNext : c.rcvNxt = add32 e.isn (1 + (delivered.length + c.rlen)) := by
    rw [holding.next, established]
    rfl
  unfold Conn.withData
  split
  case isTrue expected =>
    have atPlace := genuine (length_pos_iff.mp expected.1) (carries.number ▸ expected.2)
    have count := Conn.room_eq holding.room piece.payload.length
    have room := holding.room
    change delivered.length + (c.rlen + c.room piece.payload.length) % 65536 = stream.length
    unfold tcpRxBuf at *
    omega
  case isFalse passed =>
    rw [carries.number, isNext] at passed
    rcases complete with all | ⟨atPlace, -⟩
    · exact all
    · rw [atPlace] at passed
      have empty : piece.payload.length = 0 := by
        by_contra nonempty
        exact passed ⟨by omega, rfl⟩
      omega

theorem Holding.withFin (established : c.state = .established)
    (complete : delivered.length + c.rlen = stream.length) :
    Holding e stream delivered c.withFin := by
  have closes : c.withFin.state = .closeWait := if_pos established
  refine ⟨?_, holding.taken, holding.buffered, holding.room, holding.inside, ?_, fun _ => complete⟩
  · exact { holding.joined with isOpen := .inr closes }
  · change add32 c.rcvNxt 1 = add32 e.isn (1 + (delivered.length + c.rlen) +
      if c.withFin.state = .closeWait then 1 else 0)
    rw [if_pos closes, holding.next, established, add32, add32, add32]
    simp only [reduceCtorEq, if_false]
    omega

theorem Holding.recv {n : Nat} (held : n ≤ c.rlen) :
    Holding e stream (delivered ++ (List.range n).map c.rbuf)
      { c with
        rbuf := if c.rlen > n then fun i => if i + n < c.rlen then c.rbuf (i + n) else c.rbuf i
          else c.rbuf
        rlen := c.rlen - n } := by
  have length : (delivered ++ (List.range n).map c.rbuf).length = delivered.length + n := by simp
  have inside := holding.inside
  have total : delivered.length + n + (c.rlen - n) = delivered.length + c.rlen := by omega
  have moved : (stream.drop delivered.length).take n = (List.range n).map c.rbuf := by
    apply ext_getElem?
    intro i
    by_cases below : i < n
    · rw [getElem?_take_of_lt below, getElem?_drop, holding.buffered i (by omega)]
      simp [below]
    · rw [getElem?_eq_none (by simp; omega), getElem?_eq_none (by simp; omega)]
  refine ⟨?_, ?_, ?_, ?_, ?_, ?_, ?_⟩
  · exact { holding.joined with }
  · rw [length, take_add, moved, ← holding.taken]
  · intro i below
    dsimp only at below ⊢
    rw [length, if_pos (by omega), if_pos (by omega), Nat.add_assoc, Nat.add_comm n i]
    exact holding.buffered (i + n) (by omega)
  · exact Nat.le_trans (Nat.sub_le _ _) holding.room
  · rw [length, total]
    exact inside
  · rw [length, total]
    exact holding.next
  · rw [length, total]
    exact holding.closed

theorem Holding.emitted {sndNxt : Nat} :
    Holding e stream delivered { c with sndNxt := sndNxt } :=
  { holding with joined := ⟨holding.joined.used, holding.joined.remoteIp, holding.joined.localPort,
    holding.joined.remotePort, holding.joined.isOpen⟩ }

end

/-- The invariant of the runs: the connection holds the stream, and nobody shares its port. -/
structure Receives (e : Endpoints) (stream : List UInt8) (r : Receiver) : Prop where
  alone : Alone e r.tcp
  holding : Holding e stream r.delivered (r.tcp.conns e.slot)

theorem Alone.becomes (alone : Alone e t) (becomes : Becomes t t' e.slot c) : Alone e t' := by
  obtain ⟨sndNxt, isConns⟩ := becomes
  intro other real apart
  rw [isConns, update_of_ne apart]
  exact alone other real apart

theorem Receives.becomes {r : Receiver} (alone : Alone e r.tcp) (becomes : Becomes r.tcp t e.slot c)
    (holding : Holding e stream delivered c) : Receives e stream ⟨t, delivered⟩ := by
  refine ⟨alone.becomes becomes, ?_⟩
  obtain ⟨sndNxt, isConns⟩ := becomes
  change Holding e stream delivered (t.conns e.slot)
  rw [isConns, update_self]
  exact holding.emitted

theorem Receives.arrive {r : Receiver} (isSlot : e.slot < tcpMaxConns)
    (receives : Receives e stream r) (piece : Piece stream)
    (carries : Carries frame base len e.remotePort e.localPort (add32 e.isn (1 + piece.offset))
      piece.flags piece.payload) (inOrder : InOrder e stream r (.arrive piece)) :
    Receives e stream ⟨(mkrnTcpHandlePacket link r.tcp frame base len e.remoteIp).1,
      r.delivered⟩ := by
  obtain ⟨genuine, finInOrder⟩ := inOrder
  have holding := receives.holding
  have becomes := @handlePacket_becomes link _ _ _ _ _ _ _ _ isSlot receives.alone holding.joined
    carries piece.plain
  refine Receives.becomes receives.alone becomes ?_
  have taken := holding.withData piece carries genuine
  rw [Conn.received]
  by_cases isFin : piece.flags.fin = true
  · obtain ⟨established, complete⟩ := finInOrder isFin
    have all := withData_complete holding piece carries genuine isFin established complete
    have sameState : ((r.tcp.conns e.slot).withData frame base (tcpHeaderLength frame base)
        piece.payload.length).state = .established := by
      unfold Conn.withData
      split <;> exact established
    rw [if_pos isFin]
    exact taken.withFin sameState all
  · rw [if_neg isFin]
    exact taken

theorem Receives.recv {r : Receiver} (isSlot : e.slot < tcpMaxConns)
    (receives : Receives e stream r) (maxlen : Nat) :
    Receives e stream ⟨(mkrnTcpRecv r.tcp e.slot maxlen).1,
      r.delivered ++ (mkrnTcpRecv r.tcp e.slot maxlen).2.getD []⟩ := by
  have holding := receives.holding
  have used : ¬(r.tcp.conns e.slot).used = false := by simp [holding.joined.used]
  rw [mkrnTcpRecv, if_neg (by omega)]
  dsimp only
  rw [if_neg used]
  by_cases empty : (r.tcp.conns e.slot).rlen = 0
  · rw [if_pos empty]
    simpa using receives
  rw [if_neg empty]
  refine Receives.becomes receives.alone ((Becomes.refl r.tcp e.slot).set _) ?_
  exact holding.recv (by split <;> omega)

theorem Receives.sound {r : Receiver} (receives : Receives e stream r) :
    ReceiveSound e stream r := by
  have holding := receives.holding
  refine ⟨?_, holding.room, holding.next, holding.closed⟩
  rw [holding.taken]
  exact take_prefix _ _

theorem mkrnTcpConnect_becomes {t₀ : Tcp} {remoteIp port : Nat}
    (made : mkrnTcpConnect link t₀ remoteIp port = (t, some slot)) :
    slot < tcpMaxConns ∧ Becomes t₀ t slot { t₀.conns slot with
      used := true, state := .synSent, remoteIp := remoteIp, remotePort := port
      localPort := t₀.nextPort, rcvNxt := 0, rlen := 0 } := by
  rw [mkrnTcpConnect] at made
  split at made
  · simp at made
  rename_i free found
  dsimp only at made
  split at made
  · obtain ⟨isTable, isSlot⟩ := Prod.mk.inj made
    cases Option.some.inj isSlot
    refine ⟨mem_range.mp (mem_of_find?_eq_some found), ?_⟩
    subst isTable
    apply Becomes.emit
    exact ⟨0x1000, rfl⟩
  · simp at made

theorem handlePacket_opens {seq : Nat} (isSlot : e.slot < tcpMaxConns) (alone : Alone e t)
    (used : (t.conns e.slot).used = true) (isIp : (t.conns e.slot).remoteIp = e.remoteIp)
    (isPort : (t.conns e.slot).localPort = e.localPort)
    (shaking : (t.conns e.slot).state = .synSent)
    (carries : Carries frame base len e.remotePort e.localPort seq flags [])
    (isAnswer : flags.syn = true ∧ flags.ack = true) :
    Becomes t (mkrnTcpHandlePacket link t frame base len e.remoteIp).1 e.slot
      { t.conns e.slot with
        remotePort := e.remotePort, rcvNxt := add32 seq 1, state := .established } := by
  obtain ⟨rest, skipped⟩ :=
    @handlePacket_alone link t base len frame flags _ e _ isSlot alone carries
  rw [skipped, handleSlots]
  dsimp only
  rw [if_neg (by simp [used, isIp]), if_neg (by simp [carries.destination, isPort]),
    if_neg (by simp [shaking]), if_pos shaking, carries.isFlags, if_pos ⟨shaking, isAnswer⟩,
    carries.number, carries.source]
  have emitted : Becomes t (tcpEmit link ((t.set e.slot { t.conns e.slot with
      remotePort := e.remotePort }).set e.slot { t.conns e.slot with
      remotePort := e.remotePort, rcvNxt := add32 seq 1 }) e.slot { ack := true } []).1 e.slot
      { t.conns e.slot with remotePort := e.remotePort, rcvNxt := add32 seq 1 } :=
    (((Becomes.refl t e.slot).set _).set _).emit
  have latched : (t.set e.slot { t.conns e.slot with remotePort := e.remotePort }).conns e.slot =
      { t.conns e.slot with remotePort := e.remotePort } := update_self ..
  rw [latched]
  dsimp only at emitted ⊢
  generalize (tcpEmit link _ e.slot _ []).1 = current at *
  obtain ⟨sndNxt, isConns⟩ := emitted
  refine ⟨sndNxt, ?_⟩
  rw [Tcp.set, isConns, update_idem, update_self]

theorem holding_start (joined : Joined e c) (established : c.state = .established)
    (empty : c.rlen = 0) (next : c.rcvNxt = add32 e.isn 1) : Holding e stream [] c := by
  refine ⟨joined, rfl, ?_, ?_, ?_, ?_, ?_⟩
  · intro i below
    omega
  · rw [empty]
    exact Nat.zero_le _
  · rw [empty]
    exact Nat.zero_le _
  · rw [next, empty, established]
    rfl
  · intro closed
    rw [established] at closed
    cases closed

/-- When the FIN comes in order, the bytes delivered are a prefix of what the peer sends. -/
theorem receive_stream_sound (link : Nat → Bool) (t₀ t : Tcp) (port : Nat) (e : Endpoints)
    (stream : List UInt8) (frame : Nat → UInt8) (base len : Nat) (flags : Flags)
    (events : List (Event stream)) (r : Receiver)
    (made : mkrnTcpConnect link t₀ e.remoteIp port = (t, some e.slot))
    (isPort : e.localPort = t₀.nextPort) (alone : Alone e t₀)
    (answered : Carries frame base len e.remotePort e.localPort e.isn flags [])
    (isAnswer : flags.syn = true ∧ flags.ack = true)
    (run : Steps (Guarded (ReceiveStep link e stream) (InOrder e stream))
      ⟨(mkrnTcpHandlePacket link t frame base len e.remoteIp).1, []⟩ events r) :
    ReceiveSound e stream r := by
  obtain ⟨isSlot, connected⟩ := mkrnTcpConnect_becomes made
  have aloneNow := alone.becomes connected
  obtain ⟨sndNxt, isConns⟩ := connected
  have isConn : t.conns e.slot = { t₀.conns e.slot with
      used := true, state := .synSent, remoteIp := e.remoteIp, remotePort := port
      localPort := t₀.nextPort, rcvNxt := 0, rlen := 0, sndNxt := sndNxt } := by
    rw [isConns, update_self]
  have opens := @handlePacket_opens link t base len frame flags e e.isn isSlot aloneNow
    (by rw [isConn]) (by rw [isConn]) (by rw [isConn, isPort]) (by rw [isConn]) answered isAnswer
  have start : Receives e stream
      ⟨(mkrnTcpHandlePacket link t frame base len e.remoteIp).1, []⟩ := by
    refine @Receives.becomes _ e stream [] _ ⟨t, []⟩ aloneNow opens ?_
    exact holding_start ⟨by rw [isConn], by rw [isConn], by rw [isConn, isPort], rfl, .inl rfl⟩ rfl
      (by rw [isConn]) rfl
  apply Receives.sound
  refine run.invariant (Receives e stream) ?_ start
  intro state event next receives ⟨inOrder, step⟩
  cases step with
  | arrive piece carries => exact receives.arrive isSlot piece carries inOrder
  | recv maxlen => exact receives.recv isSlot maxlen

/-- The endpoints of `connected`. -/
def httpEndpoints : Endpoints := ⟨0, 0x0A000202, 1024, 80, 7000⟩

/-- The bytes from `offset` on, with the FIN behind them. -/
def tailPiece (stream : List UInt8) (offset : Nat) (inside : offset ≤ stream.length) :
    Piece stream where
  offset := offset
  payload := stream.drop offset
  flags := flagsOf 0x11
  part := by rw [take_of_length_le (le_refl _)]
  inside := by simp; omega
  last := by simp; omega
  plain := by decide

/-- A reply of two bytes arrives in order, with the FIN on it. -/
theorem receive_stream_sound_reply :
    ∃ events r, Steps (Guarded (ReceiveStep (fun _ => true) httpEndpoints [72, 105])
        (InOrder httpEndpoints [72, 105])) ⟨connected fun _ => true, []⟩ events r ∧
      r.delivered = [72, 105] ∧ ReceiveSound httpEndpoints [72, 105] r := by
  have carries : Carries (fun i => (segmentBytes 80 1024 7001 0x1001 0x11 [72, 105]).getD i 0) 0 22
      80 1024 (add32 7000 (1 + 0)) (flagsOf 0x11) [72, 105] :=
    ⟨by decide, by decide, by decide, by decide, by decide, by decide, by decide⟩
  have answered : Carries synAck 0 20 80 1024 7000 (flagsOf 0x12) [] :=
    ⟨by decide, by decide, by decide, by decide, by decide, by decide, nofun⟩
  have alone : Alone httpEndpoints mkrnTcpInit := fun _ _ _ used => nomatch used
  have inOrder : InOrder httpEndpoints [72, 105] ⟨connected fun _ => true, []⟩
      (.arrive (tailPiece [72, 105] 0 (by decide))) :=
    ⟨fun _ _ => by decide +kernel,
      fun _ => ⟨by decide +kernel, .inr ⟨by decide +kernel, by decide +kernel⟩⟩⟩
  have arrived : Guarded (ReceiveStep (fun _ => true) httpEndpoints [72, 105])
      (InOrder httpEndpoints [72, 105]) _ _ _ := ⟨inOrder, .arrive _ carries⟩
  have asked : ∀ r, Guarded (ReceiveStep (fun _ => true) httpEndpoints [72, 105])
      (InOrder httpEndpoints [72, 105]) r (.recv 10) _ := fun _ => ⟨trivial, .recv 10⟩
  have run := (Steps.refl.step arrived).step (asked _)
  exact ⟨_, _, run, by decide +kernel,
    receive_stream_sound _ mkrnTcpInit _ 80 httpEndpoints _ synAck 0 20 _ _ _ rfl rfl alone answered
      (by decide) run⟩

/-- The second byte arrives first, with the FIN: the stream ends without the first. -/
theorem early_fin_closes :
    ∃ events r, Steps (ReceiveStep (fun _ => true) httpEndpoints [72, 105])
      ⟨connected fun _ => true, []⟩ events r ∧ ¬ReceiveSound httpEndpoints [72, 105] r := by
  have carries : Carries (fun i => (segmentBytes 80 1024 7002 0x1001 0x11 [105]).getD i 0) 0 21 80
    1024
      (add32 7000 (1 + 1)) (flagsOf 0x11) [105] :=
    ⟨by decide, by decide, by decide, by decide, by decide, by decide, by decide⟩
  refine ⟨_, _, .step .refl (.arrive (tailPiece _ 1 (by decide)) carries), fun sound => ?_⟩
  have complete := sound.2.2.2
  revert complete
  decide +kernel

end M4KK1.Net
