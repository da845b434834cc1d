import M4KK1.Lib.Word32
import Mathlib.Data.UInt

/-!
# The TCP client

The connection table of `tcp.c`; `link` says which packets the link takes.
-/

namespace M4KK1.Net

open M4KK1.Lib

def tcpRxBuf : Nat := 4096

def tcpMaxConns : Nat := 4

/-- The bits of the flags byte: `TCP_FIN`, `TCP_SYN`, `TCP_RST`, `TCP_PSH` and `TCP_ACK`. -/
structure Flags where
  fin : Bool := false
  syn : Bool := false
  rst : Bool := false
  psh : Bool := false
  ack : Bool := false
deriving DecidableEq

/-- `tcp_state_t` -/
inductive TcpState where
  | closed
  | synSent
  | established
  | finWait
  | closeWait
deriving DecidableEq

/-- `tcp_conn_t` -/
structure Conn where
  used : Bool
  state : TcpState
  remoteIp : Nat
  localPort : Nat
  remotePort : Nat
  sndNxt : Nat
  rcvNxt : Nat
  rbuf : Nat → UInt8
  rlen : Nat

/-- A segment that `tcp_emit` handed to the network, and whether it was taken. -/
structure Emission where
  conn : Nat
  seq : Nat
  ack : Nat
  flags : Flags
  payload : List UInt8
  taken : Bool
deriving DecidableEq

/-- The connection table, `tcp_next_port`, and the segments emitted so far. -/
structure Tcp where
  conns : Nat → Conn
  nextPort : Nat
  emissions : List Emission

/-- An access to a byte, of the frame or of a buffer that is filled from it. -/
inductive Access where
  | frameRead (index : Nat)
  | rbufWrite (index : Nat)
  | replyWrite (index : Nat)
deriving DecidableEq

/-- The table after `mkrn_tcp_init`. -/
def mkrnTcpInit : Tcp :=
  ⟨fun _ => ⟨false, .closed, 0, 0, 0, 0, 0, fun _ => 0, 0⟩, 1024, []⟩

def Tcp.set (t : Tcp) (slot : Nat) (c : Conn) : Tcp :=
  { t with conns := Function.update t.conns slot c }

/-- `ntohs` of the field at an offset. -/
def be16 (bytes : Nat → UInt8) (offset : Nat) : Nat :=
  (bytes offset).toNat * 256 + (bytes (offset + 1)).toNat

/-- `ntohl` of the field at an offset. -/
def be32 (bytes : Nat → UInt8) (offset : Nat) : Nat :=
  be16 bytes offset * 65536 + be16 bytes (offset + 2)

/-- `h->flags` -/
def flagsOf (byte : UInt8) : Flags :=
  ⟨byte.toNat.testBit 0, byte.toNat.testBit 1, byte.toNat.testBit 2, byte.toNat.testBit 3,
    byte.toNat.testBit 4⟩

/-- `mkrn_net_send_packet`: `link` is whether the frame can be sent. -/
def mkrnNetSendPacket (link : Bool) (len : Nat) : Bool :=
  if len > 1500 - 20 then false else if len + 20 > 1500 - 14 then false else link

variable (link : Nat → Bool)

def tcpEmit (t : Tcp) (slot : Nat) (flags : Flags) (data : List UInt8) :
    Tcp × Bool :=
  let c := t.conns slot
  if (20 + data.length) % 65536 > tcpRxBuf + 64 then (t, false)
  else
    let taken := mkrnNetSendPacket (link t.emissions.length) (20 + data.length)
    let afterSyn := if flags.syn then add32 c.sndNxt 1 else c.sndNxt
    let afterData := add32 afterSyn data.length
    let sndNxt := if flags.fin then add32 afterData 1 else afterData
    ({ t.set slot { c with sndNxt := sndNxt } with
        emissions := t.emissions ++ [⟨slot, c.sndNxt, c.rcvNxt, flags, data, taken⟩] }, taken)

/-- `mkrn_tcp_connect`, with `-1` as `none`. -/
def mkrnTcpConnect (t : Tcp) (remoteIp remotePort : Nat) : Tcp × Option Nat :=
  match (List.range tcpMaxConns).find? fun slot => !(t.conns slot).used with
  | none => (t, none)
  | some slot =>
    let c := { t.conns slot with
      used := true, state := .synSent, remoteIp := remoteIp, remotePort := remotePort
      localPort := t.nextPort, sndNxt := 0x1000, rcvNxt := 0, rlen := 0 }
    let t := { t.set slot c with nextPort := (t.nextPort + 1) % 65536 }
    let (t, taken) := tcpEmit link t slot { syn := true } []
    if taken then (t, some slot)
    else (t.set slot { t.conns slot with used := false }, none)

/-- The loop of `mkrn_tcp_send` over chunks of at most a thousand bytes. -/
def sendLoop (link : Nat → Bool) (slot : Nat) : Nat → Tcp → List UInt8 → Tcp × Bool
  | 0, t, _ => (t, true)
  | fuel + 1, t, data =>
    if data.length = 0 then (t, true)
    else
      let (t, taken) := tcpEmit link t slot { ack := true, psh := true } (data.take 1000)
      if taken then sendLoop link slot fuel t (data.drop 1000) else (t, false)

/-- `mkrn_tcp_send`, with `-1` as `none`. -/
def mkrnTcpSend (t : Tcp) (slot : Nat) (data : List UInt8) : Tcp × Option Nat :=
  if slot ≥ tcpMaxConns then (t, none)
  else if (t.conns slot).used = false ∨ (t.conns slot).state ≠ .established then (t, none)
  else
    let (t, taken) := sendLoop link slot (data.length + 1) t data
    if taken then (t, some data.length) else (t, none)

/-- `mkrn_tcp_recv` with `maxlen >= 0`: the bytes delivered, or `none` for `-1`. -/
def mkrnTcpRecv (t : Tcp) (slot maxlen : Nat) : Tcp × Option (List UInt8) :=
  if slot ≥ tcpMaxConns then (t, none)
  else
    let c := t.conns slot
    if c.used = false then (t, none)
    else if c.rlen = 0 then (t, some [])
    else
      let n := if c.rlen > maxlen then maxlen else c.rlen
      let rbuf := if c.rlen > n then fun i => if i + n < c.rlen then c.rbuf (i + n) else c.rbuf i
        else c.rbuf
      (t.set slot { c with rbuf := rbuf, rlen := c.rlen - n }, some ((List.range n).map c.rbuf))

/-- The bytes that a connection takes from a segment of `dlen` bytes numbered `seq`. -/
def Conn.room (c : Conn) (dlen : Nat) : Nat :=
  let space := (tcpRxBuf + 65536 - c.rlen) % 65536
  if dlen > space then space else dlen

/-- `c` with the bytes of the frame from `start` on behind those it has. -/
def Conn.append (c : Conn) (frame : Nat → UInt8) (start count : Nat) : Conn :=
  { c with
    rbuf := fun i => if c.rlen ≤ i ∧ i < c.rlen + count then frame (start + (i - c.rlen))
      else c.rbuf i
    rlen := (c.rlen + count) % 65536 }

/-- The part of `mkrn_tcp_handle_packet` that takes data. -/
def receiveData (t : Tcp) (slot : Nat) (frame : Nat → UInt8)
    (base hdrlen dlen : Nat) : Tcp × List Access :=
  let c := t.conns slot
  if dlen > 0 then
    let seq := be32 frame (base + 4)
    let reads := [4, 5, 6, 7].map fun k => Access.frameRead (base + k)
    if seq = c.rcvNxt then
      let count := c.room dlen
      let t := t.set slot { c.append frame (base + hdrlen) count with rcvNxt := add32 seq count }
      let copies := (List.range count).flatMap fun k =>
        [Access.frameRead (base + hdrlen + k), Access.rbufWrite (c.rlen + k)]
      ((tcpEmit link t slot { ack := true } []).1, reads ++ copies)
    else ((tcpEmit link t slot { ack := true } []).1, reads)
  else (t, [])

/-- The part of `mkrn_tcp_handle_packet` for the FIN flag. -/
def receiveFin (t : Tcp) (slot : Nat) : Tcp :=
  let c := t.conns slot
  let t :=
    (tcpEmit link (t.set slot { c with rcvNxt := add32 c.rcvNxt 1 }) slot { ack := true } []).1
  let c := t.conns slot
  if c.state = .established then t.set slot { c with state := .closeWait } else t

/-- The loop of `mkrn_tcp_handle_packet` over the connections. -/
def handleSlots (link : Nat → Bool) (frame : Nat → UInt8) (base len hdrlen srcIp : Nat) :
    List Nat → Tcp → Tcp × List Access
  | [], t => (t, [])
  | slot :: rest, t =>
    let c := t.conns slot
    if c.used = false ∨ c.remoteIp ≠ srcIp then handleSlots link frame base len hdrlen srcIp rest t
    else
      let ports := [2, 3].map fun k => Access.frameRead (base + k)
      if be16 frame (base + 2) ≠ c.localPort then
        let (t, log) := handleSlots link frame base len hdrlen srcIp rest t
        (t, ports ++ log)
      else
        let ports := ports ++ [0, 1].map fun k => Access.frameRead (base + k)
        let srcPort := be16 frame base
        if c.state ≠ .synSent ∧ srcPort ≠ c.remotePort then
          let (t, log) := handleSlots link frame base len hdrlen srcIp rest t
          (t, ports ++ log)
        else
          -- While shaking hands the peer's port is latched.
          let t := if c.state = .synSent then t.set slot { c with remotePort := srcPort } else t
          let ports := ports ++ [.frameRead (base + 13)]
          let flags := flagsOf (frame (base + 13))
          if c.state = .synSent ∧ flags.syn ∧ flags.ack then
            let reads := [4, 5, 6, 7].map fun k => Access.frameRead (base + k)
            let c := t.conns slot
            let t := t.set slot { c with rcvNxt := add32 (be32 frame (base + 4)) 1 }
            let t := (tcpEmit link t slot { ack := true } []).1
            (t.set slot { t.conns slot with state := .established }, ports ++ reads)
          else if flags.rst then
            (t.set slot { t.conns slot with state := .closed, used := false }, ports)
          else if c.state = .established ∨ c.state = .finWait ∨ c.state = .closeWait then
            let (t, log) := receiveData link t slot frame base hdrlen (len - hdrlen)
            (if flags.fin then receiveFin link t slot else t, ports ++ log)
          else
            let (t, log) := handleSlots link frame base len hdrlen srcIp rest t
            (t, ports ++ log)

/-- `(h->data_offset >> 4) * 4` of the segment at `base`. -/
def tcpHeaderLength (frame : Nat → UInt8) (base : Nat) : Nat := (frame (base + 12)).toNat / 16 * 4

/-- `mkrn_tcp_handle_packet` for the segment of `len` bytes at `base` in the frame. -/
def mkrnTcpHandlePacket (t : Tcp) (frame : Nat → UInt8) (base len srcIp : Nat) :
    Tcp × List Access :=
  if len < 20 then (t, [])
  else
    let hdrlen := tcpHeaderLength frame base
    let read := Access.frameRead (base + 12)
    if hdrlen < 20 ∨ hdrlen > len then (t, [read])
    else
      let (t, log) := handleSlots link frame base len hdrlen srcIp (List.range tcpMaxConns) t
      (t, read :: log)

/-- The bytes of a segment without options and with a checksum of zero. -/
def segmentBytes (srcPort dstPort seq ack flags : Nat) (payload : List UInt8) : List UInt8 :=
  [srcPort / 256, srcPort, dstPort / 256, dstPort,
    seq / 16777216, seq / 65536, seq / 256, seq, ack / 16777216, ack / 65536, ack / 256, ack,
    80, flags, 16, 0, 0, 0, 0, 0].map UInt8.ofNat ++ payload

/-- The peer's answer to the SYN from port 1024, with 7000 as its initial number. -/
def synAck (i : Nat) : UInt8 := (segmentBytes 80 1024 7000 0x1001 0x12 []).getD i 0

/-- The table after a connection to port 80 of 10.0.2.2 was made and its peer answered. -/
def connected : Tcp :=
  let t := (mkrnTcpConnect link mkrnTcpInit 0x0A000202 80).1
  (mkrnTcpHandlePacket link t synAck 0 20 0x0A000202).1

end M4KK1.Net
