import M4KK1.Net.Tcp

/-!
# Frames from the network card

`mkrn_net_receive_frame` and its handlers, with the bytes each of them read and wrote.
-/

namespace M4KK1.Net

open List

def arpCacheSize : Nat := 16

/-- `arp_entry_t` -/
structure ArpEntry where
  ip : Nat
  mac : List UInt8
  valid : Bool

/-- A packet that a handler sends back. -/
inductive Reply where
  | arp (ip : Nat) (mac : List UInt8)
  | icmp (ip : Nat) (payload : List UInt8)

/-- Connections, this host's address, the ARP cache, and what was sent and came back. -/
structure Stack where
  tcp : Tcp
  localIp : Nat
  arpCache : Nat → ArpEntry
  arpCacheCount : Nat
  replyBuf : Nat → UInt8
  replies : List Reply
  pings : List Nat

/-- The reads of `count` bytes of the frame from `start` on. -/
def reads (start count : Nat) : List Access :=
  (List.range count).map fun k => .frameRead (start + k)

def arpCacheUpdate (s : Stack) (ip : Nat) (mac : List UInt8) : Stack :=
  match (List.range arpCacheSize).find? fun i => (s.arpCache i).valid &&
      (s.arpCache i).ip == ip with
  | some i => { s with arpCache := Function.update s.arpCache i { s.arpCache i with mac := mac } }
  | none =>
    let full := s.arpCacheCount ≥ arpCacheSize
    { s with
      arpCache := Function.update s.arpCache (if full then 0 else s.arpCacheCount) ⟨ip, mac, true⟩
      arpCacheCount := if full then s.arpCacheCount else s.arpCacheCount + 1 }

/-- `mkrn_arp_handle_packet` for the packet of `len` bytes at `base` in the frame. -/
def mkrnArpHandlePacket (s : Stack) (frame : Nat → UInt8) (base len : Nat) : Stack × List Access :=
  if len < 28 then (s, [])
  else
    let log := reads base 2
    if be16 frame base ≠ 1 then (s, log)
    else
      let log := log ++ reads (base + 2) 2
      if be16 frame (base + 2) ≠ 0x0800 then (s, log)
      else
        let log :=
          log ++ reads (base + 4) 1 ++ if frame (base + 4) ≠ 6 then [] else reads (base + 5) 1
        if frame (base + 4) ≠ 6 ∨ frame (base + 5) ≠ 4 then (s, log)
        else
          let senderIp := be32 frame (base + 14)
          let senderMac := (List.range 6).map fun k => frame (base + 8 + k)
          let s := arpCacheUpdate s senderIp senderMac
          let log := log ++ reads (base + 14) 4 ++ reads (base + 8) 6 ++ reads (base + 6) 2
          if be16 frame (base + 6) = 1 then
            let log := log ++ reads (base + 24) 4
            if be32 frame (base + 24) = s.localIp then
              ({ s with replies := s.replies ++ [.arp senderIp senderMac] }, log)
            else (s, log)
          else (s, log)

/-- The loop of `mkrn_net_checksum` that folds the carries. -/
def foldCarries (sum : Nat) : Nat :=
  if sum < 65536 then sum else foldCarries (sum % 65536 + sum / 65536)
termination_by sum

/-- `mkrn_net_checksum` of the first `len` bytes. -/
def mkrnNetChecksum (bytes : Nat → UInt8) (len : Nat) : Nat :=
  let words := ((List.range (len / 2)).map fun i =>
    (bytes (2 * i)).toNat + (bytes (2 * i + 1)).toNat * 256).sum
  let odd := if len % 2 = 1 then (bytes (len - 1)).toNat else 0
  65535 - foldCarries (words + odd)

/-- `mkrn_icmp_handle_packet` for the packet of `len` bytes at `base` in the frame. -/
def mkrnIcmpHandlePacket (s : Stack) (frame : Nat → UInt8) (base len srcIp : Nat) :
    Stack × List Access :=
  if len < 8 then (s, [])
  else
    let log := reads base 1
    if frame base = 8 then
      let log := log ++ reads (base + 1) 1
      if frame (base + 1) = 0 then
        let rlen := if len > 64 then 64 else len
        let copied := fun i => if i < rlen then frame (base + i) else s.replyBuf i
        let cleared := fun i => if i = 0 ∨ i = 2 ∨ i = 3 then 0 else copied i
        let sum := mkrnNetChecksum cleared rlen
        let replyBuf := fun i =>
          if i = 2 then UInt8.ofNat sum else if i = 3 then UInt8.ofNat (sum / 256) else cleared i
        ({ s with
            replyBuf := replyBuf
            replies := s.replies ++ [.icmp srcIp ((List.range rlen).map replyBuf)] },
          log ++ (List.range rlen).flatMap (fun i => [.frameRead (base + i), .replyWrite i]) ++
            [.replyWrite 0, .replyWrite 2, .replyWrite 3])
      else (s, log)
    else if frame base = 0 then ({ s with pings := s.pings ++ [srcIp] }, log)
    else (s, log)

/-- `ip->ver_ihl & 0x0F` in bytes. -/
def ipHeaderLength (frame : Nat → UInt8) : Nat := (frame 14).toNat % 16 * 4

def mkrnNetReceiveFrame (link : Nat → Bool) (s : Stack) (frame : Nat → UInt8) (len : Nat) :
    Stack × List Access :=
  if len < 14 then (s, [])
  else
    let log := reads 12 2
    if be16 frame 12 = 0x0806 then
      let (s, more) := mkrnArpHandlePacket s frame 14 (len - 14)
      (s, log ++ more)
    else if be16 frame 12 ≠ 0x0800 then (s, log)
    else if len < 34 then (s, log)
    else
      let log := log ++ reads 14 1
      if (frame 14).toNat / 16 ≠ 4 then (s, log)
      else
        let ihl := ipHeaderLength frame
        let log := log ++ if ihl < 20 then [] else reads 16 2
        if ihl < 20 ∨ be16 frame 16 < ihl then (s, log)
        else
          let plen := be16 frame 16 - ihl
          let srcHost := be32 frame 26
          let log := log ++ reads 16 2 ++ reads 26 4 ++ reads 30 4 ++ reads 23 1
          if frame 23 = 1 then
            let (s, more) := mkrnIcmpHandlePacket s frame (14 + ihl) plen srcHost
            (s, log ++ more)
          else if frame 23 = 6 then
            let (tcp, more) := mkrnTcpHandlePacket link s.tcp frame (14 + ihl) plen srcHost
            ({ s with tcp := tcp }, log ++ more)
          else (s, log)

end M4KK1.Net

/-!
## Where the handlers of a frame read and write

The lengths in the IP header are chosen by the sender and never compared with the length of the
frame. So the accesses of `mkrn_net_receive_frame` stay inside the frame and the buffers exactly
when the bytes that the handlers come to use are there (`frame_in_bounds_iff`): the first ones
of an ICMP packet, the header of a segment, and the data that a connection takes from it.
-/

namespace M4KK1.Net

open List

/-- An access is to a byte of the frame, or to one of the buffer it is made in. -/
def Access.Within (len : Nat) : Access → Prop
  | .frameRead index => index < len
  | .rbufWrite index => index < tcpRxBuf
  | .replyWrite index => index < 64

instance (len : Nat) : (access : Access) → Decidable (access.Within len)
  | .frameRead index => inferInstanceAs (Decidable (index < len))
  | .rbufWrite index => inferInstanceAs (Decidable (index < tcpRxBuf))
  | .replyWrite index => inferInstanceAs (Decidable (index < 64))

/-- Every access of the log is inside. -/
def InBounds (len : Nat) (log : List Access) : Prop := ∀ access ∈ log, access.Within len

instance (len : Nat) (log : List Access) : Decidable (InBounds len log) :=
  inferInstanceAs (Decidable (∀ access ∈ log, _))

def icmpUses (frame : Nat → UInt8) (base plen : Nat) : Nat :=
  if plen < 8 then 0
  else if frame base ≠ 8 then 1
  else if frame (base + 1) ≠ 0 then 2
  else min plen 64

/-- The segment is for this connection. -/
def Addressed (c : Conn) (frame : Nat → UInt8) (base srcIp : Nat) : Prop :=
  (c.used = true ∧ c.remoteIp = srcIp) ∧ be16 frame (base + 2) = c.localPort ∧
    (c.state = .synSent ∨ be16 frame base = c.remotePort)

instance (c : Conn) (frame : Nat → UInt8) (base srcIp : Nat) :
    Decidable (Addressed c frame base srcIp) :=
  inferInstanceAs (Decidable ((_ ∧ _) ∧ _ ∧ (_ ∨ _)))

/-- The handler does not go past a connection. -/
def Stops (c : Conn) (frame : Nat → UInt8) (base srcIp : Nat) : Prop :=
  let flags := flagsOf (frame (base + 13))
  Addressed c frame base srcIp ∧
    ((c.state = .synSent ∧ flags.syn ∧ flags.ack) ∨ flags.rst ∨
      (c.state = .established ∨ c.state = .finWait ∨ c.state = .closeWait))

instance (c : Conn) (frame : Nat → UInt8) (base srcIp : Nat) :
    Decidable (Stops c frame base srcIp) :=
  inferInstanceAs (Decidable (_ ∧ ((_ ∧ _ ∧ _) ∨ _ ∨ (_ ∨ _ ∨ _))))

/-- The bytes of a segment that a connection copies into its buffer. -/
def copied (c : Conn) (frame : Nat → UInt8) (base dlen : Nat) : Nat :=
  let flags := flagsOf (frame (base + 13))
  if c.state = .synSent ∧ flags.syn ∧ flags.ack then 0
  else if flags.rst then 0
  else if be32 frame (base + 4) = c.rcvNxt then c.room dlen
  else 0

/-- The bytes of a segment that its handler uses. -/
def tcpUses (t : Tcp) (frame : Nat → UInt8) (base plen srcIp : Nat) : Nat :=
  let hdrlen := tcpHeaderLength frame base
  if plen < 20 then 0
  else if hdrlen < 20 ∨ hdrlen > plen then 13
  else if ∀ slot ∈ List.range tcpMaxConns, ¬Addressed (t.conns slot) frame base srcIp then 13
  else
    match (List.range tcpMaxConns).find? fun slot => Stops (t.conns slot) frame base srcIp with
    | none => 14
    | some slot =>
      let count := copied (t.conns slot) frame base (plen - hdrlen)
      if count = 0 then 14 else hdrlen + count

/-- The bytes that a segment adds have room in the buffer of the connection that takes them. -/
def RbufHolds (t : Tcp) (frame : Nat → UInt8) (base plen srcIp : Nat) : Prop :=
  let hdrlen := tcpHeaderLength frame base
  20 ≤ plen → 20 ≤ hdrlen → hdrlen ≤ plen →
    ∀ slot ∈ (List.range tcpMaxConns).find? fun slot => Stops (t.conns slot) frame base srcIp,
      let count := copied (t.conns slot) frame base (plen - hdrlen)
      count = 0 ∨ (t.conns slot).rlen + count ≤ tcpRxBuf

/-- The bytes used of the packet at `base` are in the frame. -/
def Holds (len base uses : Nat) : Prop := uses = 0 ∨ base + uses ≤ len

/-- The frame is not one with an IP packet, or holds what the handler of the packet uses. -/
def Fits (s : Stack) (frame : Nat → UInt8) (len : Nat) : Prop :=
  let ihl := ipHeaderLength frame
  let base := 14 + ihl
  let plen := be16 frame 16 - ihl
  34 ≤ len → be16 frame 12 = 0x0800 → (frame 14).toNat / 16 = 4 → 20 ≤ ihl → ihl ≤ be16 frame 16 →
    (frame 23 = 1 → Holds len base (icmpUses frame base plen)) ∧
    (frame 23 = 6 → Holds len base (tcpUses s.tcp frame base plen (be32 frame 26)) ∧
      RbufHolds s.tcp frame base plen (be32 frame 26))

variable {link : Nat → Bool} {t t' : Tcp} {s : Stack} {frame : Nat → UInt8}
  {len base plen hdrlen srcIp start count slot : Nat} {front back : List Access}

@[simp] theorem inBounds_nil : InBounds len [] := fun _ member => absurd member not_mem_nil

@[simp] theorem inBounds_append : InBounds len (front ++ back) ↔
    InBounds len front ∧ InBounds len back :=
  forall_mem_append

@[simp] theorem inBounds_cons {access : Access} :
    InBounds len (access :: back) ↔ access.Within len ∧ InBounds len back :=
  forall_mem_cons

theorem inBounds_reads : InBounds len (reads start count) ↔ Holds len start count := by
  unfold Holds reads
  constructor
  · intro within
    cases count with
    | zero => exact .inl rfl
    | succ count =>
      have last := within (.frameRead (start + count)) (mem_map.mpr ⟨count, by simp, rfl⟩)
      have below : start + count < len := last
      omega
  · intro holds access member
    obtain ⟨k, inside, rfl⟩ := mem_map.mp member
    have below := mem_range.mp inside
    change start + k < len
    omega

theorem arp_inBounds (room : base + plen ≤ len) :
    InBounds len (mkrnArpHandlePacket s frame base plen).2 := by
  unfold mkrnArpHandlePacket
  split
  · simp
  dsimp only
  repeat' split
  all_goals simp [inBounds_reads, Holds]; omega

theorem inBounds_copies {write : Nat → Access} :
    InBounds len ((List.range count).flatMap fun k => [.frameRead (start + k), write k]) ↔
      Holds len start count ∧ ∀ k < count, (write k).Within len := by
  rw [← inBounds_reads]
  simp only [InBounds, reads, mem_flatMap, mem_map, mem_range]
  constructor
  · intro within
    constructor
    · rintro _ ⟨k, inside, rfl⟩
      exact within _ ⟨k, inside, by simp⟩
    · intro k inside
      exact within _ ⟨k, inside, by simp⟩
  · rintro ⟨read, written⟩ access ⟨k, inside, member⟩
    rcases mem_cons.mp member with rfl | member
    · exact read _ ⟨k, inside, rfl⟩
    · rw [mem_singleton.mp member]
      exact written k inside

theorem icmp_inBounds_iff : InBounds len (mkrnIcmpHandlePacket s frame base plen srcIp).2 ↔
    Holds len base (icmpUses frame base plen) := by
  unfold mkrnIcmpHandlePacket icmpUses
  by_cases short : plen < 8
  · simp [short, Holds]
  rw [if_neg short, if_neg short]
  by_cases isRequest : frame base = 8
  · by_cases isEcho : frame (base + 1) = 0
    · have rlen : (if plen > 64 then 64 else plen) = min plen 64 := by
        split <;> omega
      have copies : ∀ k < min plen 64, (Access.replyWrite k).Within len := by
        intro k inside
        change k < 64
        omega
      simp only [isRequest, isEcho, rlen, if_true, ne_eq, not_true_eq_false, if_false,
        inBounds_append, inBounds_reads, inBounds_copies, inBounds_cons, inBounds_nil]
      simp [Access.Within, Holds]
      omega
    · simp [isRequest, isEcho, inBounds_reads, Holds]
      omega
  · by_cases isReply : frame base = 0
    · simp [isReply, inBounds_reads]
    · simp [isRequest, isReply, inBounds_reads]

/-- The bytes that the loop over the connections uses are inside, connection by connection. -/
def SlotsFit (t : Tcp) (frame : Nat → UInt8) (len base plen hdrlen srcIp : Nat) : List Nat → Prop
  | [] => True
  | slot :: rest =>
    let count := copied (t.conns slot) frame base (plen - hdrlen)
    if Addressed (t.conns slot) frame base srcIp then
      base + 14 ≤ len ∧
        if Stops (t.conns slot) frame base srcIp then
          count = 0 ∨ (base + hdrlen + count ≤ len ∧ (t.conns slot).rlen + count ≤ tcpRxBuf)
        else SlotsFit t frame len base plen hdrlen srcIp rest
    else SlotsFit t frame len base plen hdrlen srcIp rest

variable (slots : List Nat)

theorem slotsFit_congr (agree : ∀ slot ∈ slots, t.conns slot = t'.conns slot) :
    SlotsFit t frame len base plen hdrlen srcIp slots ↔
      SlotsFit t' frame len base plen hdrlen srcIp slots := by
  induction slots with
  | nil => rfl
  | cons slot rest ih =>
    obtain ⟨same, later⟩ := forall_mem_cons.mp agree
    simp only [SlotsFit, same, ih later]

theorem receiveData_inBounds (held : base + 13 ≤ len) :
    InBounds len (receiveData link t slot frame base hdrlen count).2 ↔
      (0 < count → be32 frame (base + 4) = (t.conns slot).rcvNxt →
        Holds len (base + hdrlen) ((t.conns slot).room count) ∧
          ∀ k < (t.conns slot).room count, (t.conns slot).rlen + k < tcpRxBuf) := by
  have header : InBounds len ([4, 5, 6, 7].map fun k => Access.frameRead (base + k)) := by
    simp [Access.Within]
    omega
  unfold receiveData
  by_cases empty : count = 0
  · simp [empty]
  by_cases inOrder : be32 frame (base + 4) = (t.conns slot).rcvNxt
  · have positive : count > 0 := Nat.pos_of_ne_zero empty
    simp only [positive, inOrder, if_true, inBounds_append, inBounds_copies, header, true_and]
    exact ⟨fun within _ _ => within, fun fits => fits trivial trivial⟩
  · simp only [gt_iff_lt, Nat.pos_of_ne_zero empty, if_true, inOrder, if_false, header]
    simp

theorem receiveData_fits (held : base + 13 ≤ len)
    (sameNext : (t'.conns slot).rcvNxt = (t.conns slot).rcvNxt)
    (sameLength : (t'.conns slot).rlen = (t.conns slot).rlen)
    (takesData : (t.conns slot).state ≠ .synSent)
    (noReset : (flagsOf (frame (base + 13))).rst = false) :
    InBounds len (receiveData link t' slot frame base hdrlen count).2 ↔
      (copied (t.conns slot) frame base count = 0 ∨
        (base + hdrlen + copied (t.conns slot) frame base count ≤ len ∧
          (t.conns slot).rlen + copied (t.conns slot) frame base count ≤ tcpRxBuf)) := by
  have room : (t'.conns slot).room count = (t.conns slot).room count := by
    unfold Conn.room
    rw [sameLength]
  have isCopied : copied (t.conns slot) frame base count =
      if be32 frame (base + 4) = (t.conns slot).rcvNxt then (t.conns slot).room count else 0 := by
    simp [copied, takesData, noReset]
  rw [receiveData_inBounds held, sameNext, sameLength, room, isCopied]
  by_cases inOrder : be32 frame (base + 4) = (t.conns slot).rcvNxt
  swap
  · simp [inOrder]
  rw [if_pos inOrder]
  have none : count = 0 → (t.conns slot).room count = 0 := by
    unfold Conn.room
    intro isZero
    simp [isZero]
  generalize (t.conns slot).room count = bytes at *
  constructor
  · intro fits
    by_cases empty : bytes = 0
    · exact .inl empty
    obtain ⟨read, written⟩ := fits (by omega) inOrder
    have last := written (bytes - 1) (by omega)
    unfold Holds at read
    omega
  · intro fits _ _
    unfold Holds
    refine ⟨by omega, fun k inside => by omega⟩

theorem handleSlots_inBounds (distinct : slots.Nodup) (held : base + 13 ≤ len) :
    InBounds len (handleSlots link frame base plen hdrlen srcIp slots t).2 ↔
      SlotsFit t frame len base plen hdrlen srcIp slots := by
  induction slots generalizing t with
  | nil => simp [handleSlots, SlotsFit]
  | cons slot rest ih =>
    obtain ⟨fresh, distinctRest⟩ := nodup_cons.mp distinct
    have header : ∀ k < 13, base + k < len := by omega
    rw [handleSlots, SlotsFit]
    dsimp only
    by_cases used : (t.conns slot).used = false ∨ (t.conns slot).remoteIp ≠ srcIp
    · have other : ¬Addressed (t.conns slot) frame base srcIp := fun addressed => by
        have := addressed.1
        simp_all
      rw [if_pos used, if_neg other, ih distinctRest]
    rw [if_neg used]
    by_cases port : be16 frame (base + 2) = (t.conns slot).localPort
    swap
    · have other : ¬Addressed (t.conns slot) frame base srcIp := fun addressed => port addressed.2.1
      rw [if_pos port, if_neg other, inBounds_append, ih distinctRest]
      simp [Access.Within, header]
    rw [if_neg (not_not_intro port)]
    by_cases peer : (t.conns slot).state ≠ .synSent ∧ be16 frame base ≠ (t.conns slot).remotePort
    · have other : ¬Addressed (t.conns slot) frame base srcIp := fun addressed => by
        rcases addressed.2.2 with synSent | same
        · exact peer.1 synSent
        · exact peer.2 same
      rw [if_pos peer, if_neg other, inBounds_append, ih distinctRest]
      have first : base < len := by omega
      simp [Access.Within, header, first]
    have addressed : Addressed (t.conns slot) frame base srcIp := by
      refine ⟨by simpa using used, port, ?_⟩
      by_contra neither
      exact peer (by simpa using neither)
    rw [if_neg peer, if_pos addressed]
    -- The latched connection differs in the peer's port only.
    generalize latched : (if (t.conns slot).state = .synSent then t.set slot
      { t.conns slot with remotePort := be16 frame base } else t) = current
    have kept : ∀ other ∈ rest, current.conns other = t.conns other := by
      intro other member
      have apart : other ≠ slot := fun same => fresh (same ▸ member)
      subst latched
      split
      · simp [Tcp.set, apart]
      · rfl
    have sameNext : (current.conns slot).rcvNxt = (t.conns slot).rcvNxt := by
      subst latched
      split <;> simp [Tcp.set]
    have sameLength : (current.conns slot).rlen = (t.conns slot).rlen := by
      subst latched
      split <;> simp [Tcp.set]
    have ports : InBounds len (List.map (fun k => Access.frameRead (base + k)) [2, 3] ++
        List.map (fun k => Access.frameRead (base + k)) [0, 1] ++
        [Access.frameRead (base + 13)]) ↔ base + 14 ≤ len := by
      simp [Access.Within]
      omega
    have reads : InBounds len (List.map (fun k => Access.frameRead (base + k)) [4, 5, 6, 7]) := by
      simp [Access.Within, header]
    by_cases shakes : (t.conns slot).state = .synSent ∧
        (flagsOf (frame (base + 13))).syn = true ∧ (flagsOf (frame (base + 13))).ack = true
    · have stops : Stops (t.conns slot) frame base srcIp := ⟨addressed, .inl shakes⟩
      have none : copied (t.conns slot) frame base (plen - hdrlen) = 0 := if_pos shakes
      rw [if_pos shakes, if_pos stops, inBounds_append, ports, none]
      exact ⟨fun within => ⟨within.1, .inl rfl⟩, fun fits => ⟨fits.1, reads⟩⟩
    rw [if_neg shakes]
    by_cases reset : (flagsOf (frame (base + 13))).rst = true
    · have stops : Stops (t.conns slot) frame base srcIp := ⟨addressed, .inr (.inl reset)⟩
      rw [if_pos reset, if_pos stops, ports]
      simp [copied, reset]
    rw [if_neg reset]
    by_cases takesData : (t.conns slot).state = .established ∨ (t.conns slot).state = .finWait ∨
        (t.conns slot).state = .closeWait
    · have stops : Stops (t.conns slot) frame base srcIp := ⟨addressed, .inr (.inr takesData)⟩
      have notShaking : (t.conns slot).state ≠ .synSent := by
        rintro isSynSent
        simp [isSynSent] at takesData
      rw [if_pos takesData, if_pos stops, inBounds_append, ports,
        receiveData_fits held sameNext sameLength notShaking (by simpa using reset)]
    · have goesOn : ¬Stops (t.conns slot) frame base srcIp := fun stops => by
        rcases stops.2 with first | second | third
        · exact shakes first
        · exact reset second
        · exact takesData third
      rw [if_neg takesData, if_neg goesOn, inBounds_append, ports, ih distinctRest,
        slotsFit_congr rest kept]

theorem slotsFit_iff : SlotsFit t frame len base plen hdrlen srcIp slots ↔
    ((∀ slot ∈ slots, ¬Addressed (t.conns slot) frame base srcIp) ∨ base + 14 ≤ len) ∧
      ∀ slot ∈ slots.find? fun slot => Stops (t.conns slot) frame base srcIp,
        copied (t.conns slot) frame base (plen - hdrlen) = 0 ∨
          (base + hdrlen + copied (t.conns slot) frame base (plen - hdrlen) ≤ len ∧
            (t.conns slot).rlen + copied (t.conns slot) frame base (plen - hdrlen) ≤ tcpRxBuf) := by
  induction slots with
  | nil => simp [SlotsFit]
  | cons slot rest ih =>
    rw [SlotsFit, List.find?_cons]
    by_cases addressed : Addressed (t.conns slot) frame base srcIp
    · by_cases stops : Stops (t.conns slot) frame base srcIp
      · simp [addressed, stops]
      · rw [if_pos addressed, if_neg stops, ih, decide_eq_false stops, forall_mem_cons]
        constructor
        · rintro ⟨flags, -, copies⟩
          exact ⟨.inr flags, copies⟩
        · rintro ⟨⟨other, -⟩ | flags, copies⟩
          · exact absurd addressed other
          · exact ⟨flags, .inr flags, copies⟩
    · have goesOn : ¬Stops (t.conns slot) frame base srcIp := fun stops => addressed stops.1
      simp [addressed, goesOn, ih]

theorem segment_fits_iff (held : base + 13 ≤ len) (long : 20 ≤ hdrlen) :
    SlotsFit t frame len base plen hdrlen srcIp slots ↔
      Holds len base
        (if ∀ slot ∈ slots, ¬Addressed (t.conns slot) frame base srcIp then 13
          else match slots.find? fun slot => Stops (t.conns slot) frame base srcIp with
            | none => 14
            | some slot => if copied (t.conns slot) frame base (plen - hdrlen) = 0 then 14
              else hdrlen + copied (t.conns slot) frame base (plen - hdrlen)) ∧
      ∀ slot ∈ slots.find? fun slot => Stops (t.conns slot) frame base srcIp,
        copied (t.conns slot) frame base (plen - hdrlen) = 0 ∨
          (t.conns slot).rlen + copied (t.conns slot) frame base (plen - hdrlen) ≤ tcpRxBuf := by
  rw [slotsFit_iff]
  by_cases nobody : ∀ slot ∈ slots, ¬Addressed (t.conns slot) frame base srcIp
  · have found : slots.find? (fun slot => Stops (t.conns slot) frame base srcIp) = none := by
      rw [List.find?_eq_none]
      intro slot member stops
      exact nobody slot member (of_decide_eq_true stops).1
    rw [if_pos nobody, found]
    exact iff_of_true ⟨.inl nobody, nofun⟩ ⟨.inr held, nofun⟩
  rw [if_neg nobody]
  cases found : slots.find? (fun slot => Stops (t.conns slot) frame base srcIp) with
  | none => simp [nobody, Holds]
  | some slot =>
    simp only [nobody, Holds, Option.mem_def, Option.some.injEq, forall_eq']
    generalize copied (t.conns slot) frame base (plen - hdrlen) = count
    by_cases empty : count = 0
    · simp [empty]
    · simp only [empty, if_false, false_or]
      omega

theorem tcp_inBounds_iff : InBounds len (mkrnTcpHandlePacket link t frame base plen srcIp).2 ↔
    Holds len base (tcpUses t frame base plen srcIp) ∧ RbufHolds t frame base plen srcIp := by
  unfold mkrnTcpHandlePacket tcpUses RbufHolds
  generalize tcpHeaderLength frame base = hdrlen
  by_cases short : plen < 20
  · simp [short, Holds]
  rw [if_neg short, if_neg short]
  by_cases bad : hdrlen < 20 ∨ hdrlen > plen
  · rw [if_pos bad, if_pos bad]
    simp [Access.Within, Holds]
    omega
  have good : 20 ≤ plen ∧ 20 ≤ hdrlen ∧ hdrlen ≤ plen := by omega
  have first : (Access.frameRead (base + 12)).Within len ↔ base + 13 ≤ len := by
    change base + 12 < len ↔ _
    omega
  rw [if_neg bad, if_neg bad, inBounds_cons, first]
  by_cases held : base + 13 ≤ len
  · rw [handleSlots_inBounds _ nodup_range held, segment_fits_iff _ held good.2.1]
    simp only [held, good, true_implies, true_and]
  · -- Not even the data offset is in the frame.
    refine iff_of_false (fun within => held within.1) fun fits => ?_
    have uses := fits.1
    unfold Holds at uses
    revert uses
    split
    · omega
    · split
      · omega
      · dsimp only
        split <;> omega

/-- The handlers stay inside exactly when the bytes that they use are there. -/
theorem frame_in_bounds_iff (link : Nat → Bool) (s : Stack) (frame : Nat → UInt8) (len : Nat) :
    InBounds len (mkrnNetReceiveFrame link s frame len).2 ↔ Fits s frame len := by
  unfold mkrnNetReceiveFrame Fits
  by_cases noHeader : len < 14
  · simp [noHeader]
    omega
  rw [if_neg noHeader]
  have type : InBounds len (reads 12 2) := inBounds_reads.mpr (.inr (by omega))
  by_cases isArp : be16 frame 12 = 0x0806
  · have arp : InBounds len (mkrnArpHandlePacket s frame 14 (len - 14)).2 := arp_inBounds (by omega)
    rw [if_pos isArp]
    simp [isArp, type, arp]
  rw [if_neg isArp]
  by_cases isIp : be16 frame 12 = 0x0800
  swap
  · simp [isIp, type]
  rw [if_neg (not_not_intro isIp)]
  by_cases short : len < 34
  · rw [if_pos short]
    simp only [type, true_iff]
    omega
  rw [if_neg short]
  have version : InBounds len (reads 14 1) := inBounds_reads.mpr (.inr (by omega))
  by_cases isV4 : (frame 14).toNat / 16 = 4
  swap
  · simp [isV4, type, version]
  rw [if_neg (not_not_intro isV4)]
  have total : InBounds len (reads 16 2) := inBounds_reads.mpr (.inr (by omega))
  generalize ipHeaderLength frame = ihl
  have total' : InBounds len (if ihl < 20 then [] else reads 16 2) := by
    split
    · simp
    · exact total
  by_cases bad : ihl < 20 ∨ be16 frame 16 < ihl
  · rw [if_pos bad]
    simp only [inBounds_append, type, version, total', true_and, true_iff]
    omega
  rw [if_neg bad]
  have source : InBounds len (reads 26 4) := inBounds_reads.mpr (.inr (by omega))
  have destination : InBounds len (reads 30 4) := inBounds_reads.mpr (.inr (by omega))
  have protocol : InBounds len (reads 23 1) := inBounds_reads.mpr (.inr (by omega))
  have header : 34 ≤ len ∧ 20 ≤ ihl ∧ ihl ≤ be16 frame 16 := by omega
  simp only [isIp, isV4, header, true_implies]
  by_cases isIcmp : frame 23 = 1
  · rw [if_pos isIcmp]
    simp [isIcmp, type, version, total, total', source, destination, protocol, icmp_inBounds_iff]
  rw [if_neg isIcmp]
  by_cases isTcp : frame 23 = 6
  · rw [if_pos isTcp]
    simp [isTcp, type, version, total, total', source, destination, protocol, tcp_inBounds_iff]
  · rw [if_neg isTcp]
    simp [isIcmp, isTcp, type, version, total, total', source, destination, protocol]

/-- An echo request in a frame of 60 bytes whose IP header promises 84. -/
def longEcho : List UInt8 :=
  [0x52, 0x54, 0, 0x12, 0x34, 0x56, 0x52, 0x55, 0x0A, 0, 2, 2, 0x08, 0x00,
    0x45, 0, 0, 84, 0, 1, 0, 0, 64, 1, 0, 0, 10, 0, 2, 2, 10, 0, 2, 15,
    8, 0, 0, 0, 0x12, 0x34, 0, 1] ++ List.replicate 18 0

def idle : Stack := ⟨mkrnTcpInit, 0x0A00020F, fun _ => ⟨0, [], false⟩, 0, fun _ => 0, [], []⟩

/-- The reply to it copies bytes from behind the frame. -/
theorem long_echo_out_of_bounds : longEcho.length = 60 ∧
    ¬InBounds 60 (mkrnNetReceiveFrame (fun _ => true) idle (fun i => longEcho.getD i 0) 60).2 := by
  decide +kernel

end M4KK1.Net
