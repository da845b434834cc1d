import M4KK1.Lib.RingBuffer

/-!
# The Copland protocol layer

`copland_proto.c`. A buffer is an array of its own size, against which every index is checked.
-/

namespace M4KK1.Copland

open M4KK1.Lib

def cpMsgHdr : Nat := 8

def cpMsgMax : Nat := 4088

/-- `struct cp_msgbuf`, with `cap` the size of its backing store. -/
structure Msgbuf (cap : Nat) where
  b : CArray UInt8 cap
  len : Nat
  obj : Nat
  op : Nat

/-- Byte `lane` of a 32-bit value, `(v >> 8 * lane) & 0xFF`. -/
def byteOf (value lane : Nat) : UInt8 := UInt8.ofNat (value >>> (8 * lane) &&& 0xFF)

/-- A C string: the bytes before its terminator, all inside the 512 MB the
machine can have. -/
structure CString where
  bytes : List UInt8
  addressable : bytes.length < 536870912

variable {cap : Nat}

def cpMsgStart (mem : CArray UInt8 cap) (obj opcode : Nat) : Msgbuf cap :=
  { b := mem, len := cpMsgHdr, obj := obj, op := opcode &&& 0xFFFF }

def cpPutU32 (m : Msgbuf cap) (v : Nat) : Except Fault (Msgbuf cap) :=
  if add32 m.len 4 > cap then .ok m
  else do
    let b ← m.b.write m.len (byteOf v 0)
    let b ← b.write (add32 m.len 1) (byteOf v 1)
    let b ← b.write (add32 m.len 2) (byteOf v 2)
    let b ← b.write (add32 m.len 3) (byteOf v 3)
    .ok { m with b := b, len := add32 m.len 4 }

def cpPutI32 (m : Msgbuf cap) (v : Int) : Except Fault (Msgbuf cap) :=
  cpPutU32 m (v % 4294967296).toNat

/-- `for (i = 0; i < pad; i++) b[len + i] = (i < n) ? s[i] : 0;` -/
def putBytes (b : CArray UInt8 cap) (len : Nat) (s : List UInt8) (i : Nat) :
    Nat → Except Fault (CArray UInt8 cap)
  | 0 => .ok b
  | count + 1 => do
    let b ← b.write (add32 len i) (s.getD i 0)
    putBytes b len s (i + 1) count

/-- `cp_put_string`; `none` is the null pointer, and the result is `false` for
`-1`. -/
def cpPutString (m : Msgbuf cap) (s : Option CString) :
    Except Fault (Msgbuf cap × Bool) :=
  match s with
  | none => do
    let m ← cpPutU32 m 0
    .ok (m, true)
  | some s => do
    let n := s.bytes.length
    let m ← cpPutU32 m (add32 n 1)
    let pad := add32 (add32 n 1) 3 &&& 0xFFFFFFFC
    if add32 m.len pad > cap then .ok (m, false)
    else do
      let b ← putBytes m.b m.len s.bytes 0 pad
      .ok ({ m with b := b, len := add32 m.len pad }, true)

/-- `cp_msg_finish`: the finished buffer, and the length or `-1`. -/
def cpMsgFinish (m : Msgbuf cap) : Except Fault (Msgbuf cap × Int) :=
  if m.len > cpMsgMax then .ok (m, -1)
  else do
    let b ← m.b.write 0 (byteOf m.obj 0)
    let b ← b.write 1 (byteOf m.obj 1)
    let b ← b.write 2 (byteOf m.obj 2)
    let b ← b.write 3 (byteOf m.obj 3)
    let b ← b.write 4 (byteOf m.op 0)
    let b ← b.write 5 (byteOf m.op 1)
    let b ← b.write 6 (byteOf m.len 0)
    let b ← b.write 7 (byteOf m.len 1)
    .ok ({ m with b := b }, m.len)

/-- One field a caller puts into a message. -/
inductive Field where
  | u32 (v : Nat)
  | i32 (v : Int)
  | string (s : Option CString)

/-- The `cp_put_*` call for a field; what `cp_put_string` returns is ignored. -/
def putField (m : Msgbuf cap) : Field → Except Fault (Msgbuf cap)
  | .u32 v => cpPutU32 m v
  | .i32 v => cpPutI32 m v
  | .string s => do
    let (m, _) ← cpPutString m s
    .ok m

/-- A sequence of `cp_put_*` calls. -/
def putFields (m : Msgbuf cap) : List Field → Except Fault (Msgbuf cap)
  | [] => .ok m
  | field :: fields => do
    let m ← putField m field
    putFields m fields

/-- `struct cp_msg_reader`: `p` points `pos` bytes into the message. -/
structure MsgReader (cap : Nat) where
  msg : CArray UInt8 cap
  pos : Nat
  left : Nat

/-- `r->p += n; r->left -= n;` -/
def MsgReader.skip (r : MsgReader cap) (n : Nat) : MsgReader cap :=
  { r with pos := r.pos + n, left := sub32 r.left n }

variable (msg : CArray UInt8 cap)

/-- Four bytes of a message as a little-endian word. -/
def wordAt (pos : Nat) : Except Fault Nat := do
  let b0 ← msg.read pos
  let b1 ← msg.read (pos + 1)
  let b2 ← msg.read (pos + 2)
  let b3 ← msg.read (pos + 3)
  .ok (b0.toNat ||| b1.toNat <<< 8 ||| b2.toNat <<< 16 ||| b3.toNat <<< 24)

/-- The object id in a message's header, as `cp_compositor_dispatch` takes it out. -/
def headerObj : Except Fault Nat := wordAt msg 0

/-- The opcode in a message's header, as `cp_compositor_dispatch` takes it out. -/
def headerOpcode : Except Fault Nat := do
  let b4 ← msg.read 4
  let b5 ← msg.read 5
  .ok (b4.toNat ||| b5.toNat <<< 8)

/-- The length in a message's header, as `cp_ring_read` takes it out. -/
def headerSize : Except Fault Nat := do
  let w1 ← wordAt msg 4
  .ok (w1 >>> 16)

/-- `cp_reader_init`; the null pointer of a message without a header is never followed. -/
def cpReaderInit (size : Nat) : MsgReader cap :=
  if size < cpMsgHdr then ⟨msg, 0, 0⟩ else ⟨msg, cpMsgHdr, sub32 size cpMsgHdr⟩

def cpGetU32 (r : MsgReader cap) : Except Fault (MsgReader cap × Nat) :=
  if r.left < 4 then .ok ({ r with left := 0 }, 0)
  else do
    let v ← wordAt r.msg r.pos
    .ok (r.skip 4, v)

/-- The cast to `int32_t`. -/
def toInt32 (v : Nat) : Int := if v < 2147483648 then v else (v : Int) - 4294967296

def cpGetI32 (r : MsgReader cap) : Except Fault (MsgReader cap × Int) := do
  let (r, v) ← cpGetU32 r
  .ok (r, toInt32 v)

/-- The end of `cp_get_string`: the bytes up to the next multiple of four. -/
def MsgReader.skipPad (r : MsgReader cap) (wl : Nat) : MsgReader cap :=
  let pad := add32 wl 3 &&& 0xFFFFFFFC
  if pad > wl ∧ r.left ≥ pad - wl then r.skip (pad - wl) else r

/-- `cp_get_string`: the reader and the buffer after the call, and the length on the
wire or `-1`. -/
def cpGetString {dstCap : Nat} (r : MsgReader cap) (dst : CArray UInt8 dstCap) :
    Except Fault (MsgReader cap × CArray UInt8 dstCap × Int) :=
  if r.left < 4 then .ok ({ r with left := 0 }, dst, -1)
  else do
    let wl ← wordAt r.msg r.pos
    let r := r.skip 4
    if wl = 0 then
      if dstCap > 0 then do
        let dst ← dst.write 0 0
        .ok (r, dst, 0)
      else .ok (r, dst, 0)
    else if r.left < wl then .ok (r, dst, -1)
    else if dstCap < wl then .ok (r.skip wl, dst, -1)
    else do
      let dst ← dst.copyFrom r.msg r.pos 0 wl
      let dst ← dst.write (wl - 1) 0
      .ok ((r.skip wl).skipPad wl, dst, wl)

/-- `struct cp_ring`, with the counters it points to read through and `data` an
array of `cap` bytes. -/
structure Ring (cap : Nat) where
  head : Nat
  tail : Nat
  data : CArray UInt8 cap
  size : Nat

def cpRingUsed (r : Ring cap) : Nat := sub32 r.tail r.head

def cpRingFree (r : Ring cap) : Nat := sub32 r.size (cpRingUsed r)

/-- The test by which `cp_ring_write` takes a message of `len` bytes. -/
def cpRingAccepts (r : Ring cap) (len : Nat) : Prop :=
  len ≤ r.size ∧ len ≤ sub32 r.size (cpRingUsed r)

instance (r : Ring cap) (len : Nat) : Decidable (cpRingAccepts r len) :=
  inferInstanceAs (Decidable (_ ∧ _))

/-- `cp_ring_write`: the ring after the call, and the length or `-1`. -/
def cpRingWrite {srcSize : Nat} (r : Ring cap) (src : CArray UInt8 srcSize) (len : Nat) :
    Except Fault (Ring cap × Int) :=
  if len > r.size then .ok (r, -1)
  else if sub32 r.size (cpRingUsed r) < len then .ok (r, -1)
  else do
    let off := r.tail &&& sub32 r.size 1
    let data ← ringStore r.data (sub32 r.size 1) off src 0 len
    .ok ({ r with data := data, tail := add32 r.tail len }, len)

/-- `cp_ring_read`: the ring and the buffer after the call, and the size read,
`0`, `-1` or `-2`. -/
def cpRingRead {dstSize : Nat} (r : Ring cap) (dst : CArray UInt8 dstSize) (dstCap : Nat) :
    Except Fault (Ring cap × CArray UInt8 dstSize × Int) :=
  let used := cpRingUsed r
  if used < cpMsgHdr then .ok (r, dst, 0)
  else do
    let mask := sub32 r.size 1
    let off := r.head &&& mask
    let b4 ← r.data.read (add32 off 4 &&& mask)
    let b5 ← r.data.read (add32 off 5 &&& mask)
    let b6 ← r.data.read (add32 off 6 &&& mask)
    let b7 ← r.data.read (add32 off 7 &&& mask)
    let w1 := b4.toNat ||| b5.toNat <<< 8 ||| b6.toNat <<< 16 ||| b7.toNat <<< 24
    let size := w1 >>> 16
    if size < cpMsgHdr ∨ size > cpMsgMax ∨ size &&& 3 ≠ 0 then .ok (r, dst, -1)
    else if used < size then .ok (r, dst, 0)
    else if dstCap < size then .ok (r, dst, -2)
    else do
      let dst ← ringLoad r.data mask off dst 0 size
      .ok ({ r with head := add32 r.head size }, dst, size)

end M4KK1.Copland
