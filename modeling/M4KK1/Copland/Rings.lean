import M4KK1.Copland.Proto
import Mathlib.Data.Nat.Bitwise

/-!
# What the message builder and the rings do

`IsMessage`, `Building` and `Pending` describe messages and the bytes in a ring.
-/

namespace M4KK1.Copland

open M4KK1.Lib Function List

/-- Four bytes put together by shifts make the number they spell. -/
theorem joined_bytes {b0 b1 b2 b3 : Nat} (s0 : b0 < 256) (s1 : b1 < 256) (s2 : b2 < 256) :
    b0 ||| b1 <<< 8 ||| b2 <<< 16 ||| b3 <<< 24 = b0 + 256 * b1 + 65536 * b2 + 16777216 * b3 := by
  have first : b0 ||| b1 <<< 8 = b1 <<< 8 + b0 := by
    rw [Nat.lor_comm]
    exact (Nat.shiftLeft_add_eq_or_of_lt s0 b1).symm
  have second : b1 <<< 8 + b0 ||| b2 <<< 16 = b2 <<< 16 + (b1 <<< 8 + b0) := by
    rw [Nat.lor_comm]
    refine (Nat.shiftLeft_add_eq_or_of_lt ?_ b2).symm
    rw [Nat.shiftLeft_eq]
    omega
  have third : b2 <<< 16 + (b1 <<< 8 + b0) ||| b3 <<< 24 =
      b3 <<< 24 + (b2 <<< 16 + (b1 <<< 8 + b0)) := by
    rw [Nat.lor_comm]
    refine (Nat.shiftLeft_add_eq_or_of_lt ?_ b3).symm
    rw [Nat.shiftLeft_eq, Nat.shiftLeft_eq]
    omega
  rw [first, second, third, Nat.shiftLeft_eq, Nat.shiftLeft_eq, Nat.shiftLeft_eq]
  omega

theorem byteOf_toNat (value lane : Nat) :
    (byteOf value lane).toNat = value / 2 ^ (8 * lane) % 256 := by
  have masked : value >>> (8 * lane) &&& 0xFF = value >>> (8 * lane) % 256 :=
    Nat.and_two_pow_sub_one_eq_mod _ 8
  rw [byteOf, UInt8.toNat_ofNat', masked, Nat.shiftRight_eq_div_pow]
  exact Nat.mod_mod _ _

/-- A finished message: its length is in range, a multiple of four, and spelled
by bytes 6 and 7. -/
structure IsMessage (bytes : List UInt8) : Prop where
  long : 8 ≤ bytes.length
  short : bytes.length ≤ 4088
  aligned : bytes.length % 4 = 0
  low : bytes[6]? = some (byteOf bytes.length 0)
  high : bytes[7]? = some (byteOf bytes.length 1)

variable {cap : Nat}

/-- What every `cp_put_*` call keeps of a message under construction. -/
structure Building (m : Msgbuf cap) : Prop where
  long : 8 ≤ m.len
  fits : m.len ≤ cap
  aligned : m.len % 4 = 0

theorem cpMsgStart_building (wide : cpMsgHdr ≤ cap) (mem : CArray UInt8 cap) (obj opcode : Nat) :
    Building (cpMsgStart mem obj opcode) :=
  ⟨Nat.le_refl 8, wide, show 8 % 4 = 0 by decide⟩

/-- The size of a C object, below which no length arithmetic wraps. -/
def Small (cap : Nat) : Prop := cap < 2147483648

variable {m : Msgbuf cap} {r : Ring cap}

theorem cpPutU32_fits (small : Small cap) (v : Nat) (fits : m.len + 4 ≤ cap) :
    cpPutU32 m v = .ok { m with
      b := ⟨update (update (update (update m.b.cell
        m.len (byteOf v 0)) (m.len + 1) (byteOf v 1)) (m.len + 2) (byteOf v 2))
        (m.len + 3) (byteOf v 3)⟩
      len := m.len + 4 } := by
  unfold Small at small
  have sum : add32 m.len 4 = m.len + 4 := add32_eq (by omega)
  have notFull : ¬ add32 m.len 4 > cap := by omega
  rw [cpPutU32, if_neg notFull, sum, add32_eq (by omega), add32_eq (by omega), add32_eq (by omega),
    CArray.write_eq (by omega), ok_bind, CArray.write_eq (by omega), ok_bind,
    CArray.write_eq (by omega), ok_bind, CArray.write_eq (by omega), ok_bind]

theorem cpPutU32_building (small : Small cap) (building : Building m) (v : Nat) :
    ∃ m', cpPutU32 m v = .ok m' ∧ Building m' := by
  obtain ⟨long, fits, aligned⟩ := building
  unfold Small at small
  by_cases full : add32 m.len 4 > cap
  · exact ⟨m, if_pos full, long, fits, aligned⟩
  · have sum : add32 m.len 4 = m.len + 4 := add32_eq (by omega)
    refine ⟨_, cpPutU32_fits small v (by omega), ?_, ?_, ?_⟩
    · show 8 ≤ m.len + 4
      omega
    · show m.len + 4 ≤ cap
      omega
    · show (m.len + 4) % 4 = 0
      omega

theorem putBytes_spec (small : Small cap) (len : Nat) (s : List UInt8) (count : Nat) :
    ∀ (b : CArray UInt8 cap) (i : Nat), len + i + count ≤ cap →
      ∃ b', putBytes b len s i count = .ok b' ∧
        (∀ index, i ≤ index → index < i + count → b'.cell (len + index) = s.getD index 0) ∧
        ∀ cell, cell < len + i → b'.cell cell = b.cell cell := by
  unfold Small at small
  induction count with
  | zero =>
    intro b i _
    refine ⟨b, rfl, ?_, fun _ _ => rfl⟩
    intro index low high
    omega
  | succ count ih =>
    intro b i inside
    obtain ⟨b', rest, filled, kept⟩ :=
      ih ⟨update b.cell (len + i) (s.getD i 0)⟩ (i + 1) (by omega)
    refine ⟨b', ?_, ?_, ?_⟩
    · rw [putBytes, add32_eq (by omega), CArray.write_eq (by omega), ok_bind, rest]
    · intro index low high
      by_cases first : index = i
      · subst first
        rw [kept _ (by omega)]
        exact update_self _ _ _
      · exact filled index (by omega) (by omega)
    · intro cell below
      rw [kept cell (by omega)]
      exact update_of_ne (by omega) _ _

theorem masked_aligned (value : Nat) : (value &&& 0xFFFFFFFC) % 4 = 0 := by
  have split := Nat.and_mod_two_pow (a := value) (b := 0xFFFFFFFC) (n := 2)
  simpa using split

theorem cpPutString_building (small : Small cap) (building : Building m) (s : Option CString) :
    ∃ m' stored, cpPutString m s = .ok (m', stored) ∧ Building m' := by
  cases s with
  | none =>
    obtain ⟨m', run, kept⟩ := cpPutU32_building small building 0
    exact ⟨m', true, by rw [cpPutString, run, ok_bind], kept⟩
  | some s =>
    obtain ⟨m', run, long, fits, aligned⟩ :=
      cpPutU32_building small building (add32 s.bytes.length 1)
    generalize padEq : add32 (add32 s.bytes.length 1) 3 &&& 0xFFFFFFFC = pad
    have padAligned : pad % 4 = 0 := padEq ▸ masked_aligned _
    have padSmall : pad < 2147483648 := by
      have addressable := s.addressable
      have below : pad ≤ add32 (add32 s.bytes.length 1) 3 := padEq ▸ Nat.and_le_left
      have counted : add32 s.bytes.length 1 = s.bytes.length + 1 := add32_eq (by omega)
      rw [counted, add32_eq (by omega)] at below
      omega
    by_cases full : add32 m'.len pad > cap
    · refine ⟨m', false, ?_, long, fits, aligned⟩
      simp only [cpPutString, run, ok_bind, padEq, if_pos full]
    · have sum : add32 m'.len pad = m'.len + pad := add32_eq (by unfold Small at small; omega)
      obtain ⟨b', stored, _⟩ := putBytes_spec small m'.len s.bytes pad m'.b 0 (by omega)
      refine ⟨{ m' with b := b', len := add32 m'.len pad }, true, ?_, ?_, ?_, ?_⟩
      · simp only [cpPutString, run, ok_bind, padEq, if_neg full, stored]
      · show 8 ≤ add32 m'.len pad
        omega
      · show add32 m'.len pad ≤ cap
        omega
      · show add32 m'.len pad % 4 = 0
        omega

theorem putFields_spec (small : Small cap) (fields : List Field) :
    ∀ m : Msgbuf cap, Building m → ∃ m', putFields m fields = .ok m' ∧ Building m' := by
  have one : ∀ (m : Msgbuf cap) (field : Field), Building m →
      ∃ m', putField m field = .ok m' ∧ Building m' := by
    intro m field building
    cases field with
    | u32 v => exact cpPutU32_building small building v
    | i32 v => exact cpPutU32_building small building _
    | string s =>
      obtain ⟨m', stored, run, kept⟩ := cpPutString_building small building s
      exact ⟨m', by rw [putField, run, ok_bind], kept⟩
  induction fields with
  | nil =>
    intro m building
    exact ⟨m, rfl, building⟩
  | cons field fields ih =>
    intro m building
    obtain ⟨next, put, kept⟩ := one m field building
    obtain ⟨m', rest, done⟩ := ih next kept
    exact ⟨m', by rw [putFields, put, ok_bind, rest], done⟩

/-- The eight header bytes: the object id, the opcode and the length. -/
def headerOf (obj op len : Nat) : List UInt8 :=
  [byteOf obj 0, byteOf obj 1, byteOf obj 2, byteOf obj 3, byteOf op 0, byteOf op 1,
    byteOf len 0, byteOf len 1]

theorem cpMsgFinish_spec (building : Building m) (short : m.len ≤ 4088) :
    ∃ b', cpMsgFinish m = .ok ({ m with b := b' }, (m.len : Int)) ∧ IsMessage (b'.take m.len) ∧
      b'.take 8 = headerOf m.obj m.op m.len ∧
      ∀ index, 8 ≤ index → b'.cell index = m.b.cell index := by
  obtain ⟨long, fits, aligned⟩ := building
  have notLong : ¬ m.len > cpMsgMax := by
    rw [cpMsgMax]
    omega
  rw [cpMsgFinish, if_neg notLong, CArray.write_eq (by omega), ok_bind, CArray.write_eq (by omega),
    ok_bind, CArray.write_eq (by omega), ok_bind, CArray.write_eq (by omega), ok_bind,
    CArray.write_eq (by omega), ok_bind, CArray.write_eq (by omega), ok_bind,
    CArray.write_eq (by omega), ok_bind, CArray.write_eq (by omega), ok_bind]
  refine ⟨_, rfl, ⟨?_, ?_, ?_, ?_, ?_⟩, ?_, ?_⟩
  · simpa using long
  · simp
    omega
  · simpa using aligned
  · rw [CArray.length_take, getElem?_eq_getElem (by simp; omega), CArray.getElem_take]
    simp
  · rw [CArray.length_take, getElem?_eq_getElem (by simp; omega), CArray.getElem_take]
    simp
  · simp [CArray.take, headerOf, range_succ]
  · intro index past
    simp only [update_apply]
    repeat rw [if_neg (by omega)]

/-- The ring holds exactly `bytes` between its counters. -/
structure Pending (r : Ring cap) (bytes : List UInt8) : Prop where
  used : cpRingUsed r = bytes.length
  window : Window r.data r.head bytes

/-- A ring over an array of its own power-of-two size. -/
structure Sound (r : Ring cap) : Prop where
  whole : r.size = cap
  ring : RingSize cap
  head : r.head < 4294967296
  tail : r.tail < 4294967296

theorem cpRingWrite_refused {srcSize : Nat} (src : CArray UInt8 srcSize) {len : Nat}
    (refused : ¬ cpRingAccepts r len) : cpRingWrite r src len = .ok (r, -1) := by
  unfold cpRingAccepts at refused
  by_cases long : len > r.size
  · rw [cpRingWrite, if_pos long]
  · have full : sub32 r.size (cpRingUsed r) < len := by omega
    rw [cpRingWrite, if_neg long, if_pos full]

theorem cpRingWrite_stored {srcSize : Nat} (src : CArray UInt8 srcSize) {len : Nat}
    (sound : Sound r) (inside : len ≤ srcSize) (accepted : cpRingAccepts r len) :
    ∃ data, cpRingWrite r src len =
        .ok ({ r with data := data, tail := add32 r.tail len }, (len : Int)) ∧
      Stored r.data data r.tail src 0 len := by
  obtain ⟨fits, room⟩ := accepted
  obtain ⟨data, run, stored⟩ := ringStore_spec sound.ring r.tail src len r.data 0 (by omega)
    (sound.whole ▸ fits)
  refine ⟨data, ?_, stored⟩
  rw [cpRingWrite, if_neg (by omega), if_neg (by omega)]
  simp only [sound.whole, run, ok_bind]

/-- Bytes stored at the tail are pending behind the others. -/
theorem Pending.store {srcSize : Nat} {src : CArray UInt8 srcSize} {len : Nat}
    {bytes : List UInt8} {data : CArray UInt8 cap} (sound : Sound r) (pending : Pending r bytes)
    (room : bytes.length + len ≤ cap) (stored : Stored r.data data r.tail src 0 len) :
    Pending { r with data := data, tail := add32 r.tail len } (bytes ++ src.take len) := by
  have bounded := sound.ring.le
  have used := pending.used
  unfold cpRingUsed at used
  have tailAt : r.tail % cap = (r.head + bytes.length) % cap := by
    rw [← sound.ring.add32_mod, ← used, add32_sub32 sound.tail]
  have moved : Stored r.data data (r.head + bytes.length) src 0 len := by
    have slots : ∀ index, (r.tail + index) % cap = (r.head + bytes.length + index) % cap := by
      intro index
      rw [Nat.add_mod, tailAt, ← Nat.add_mod]
    refine ⟨?_, ?_⟩
    · intro index low high
      rw [← slots]
      exact stored.copied index low high
    · intro cell other
      refine stored.kept cell fun index low high => ?_
      rw [slots]
      exact other index low high
  refine ⟨?_, Window.append_iff.mpr ⟨?_, ?_⟩⟩
  · show sub32 (add32 r.tail len) r.head = _
    rw [sub32_add32_left (by omega), used]
    simp
  · exact moved.keeps room pending.window
  · exact moved.window

theorem header_size {data : CArray UInt8 cap} {start : Nat} {message : List UInt8}
    (isMessage : IsMessage message) (window : Window data start message) :
    ((data.cell ((start + 4) % cap)).toNat ||| (data.cell ((start + 5) % cap)).toNat <<< 8 |||
      (data.cell ((start + 6) % cap)).toNat <<< 16 |||
      (data.cell ((start + 7) % cap)).toNat <<< 24) >>> 16 = message.length := by
  have long := isMessage.long
  have short := isMessage.short
  have byte6 : (data.cell ((start + 6) % cap)).toNat = message.length % 256 := by
    have stored := isMessage.low
    rw [getElem?_eq_getElem (by omega), Option.some_inj] at stored
    rw [window 6 (by omega), stored, byteOf_toNat]
    simp
  have byte7 : (data.cell ((start + 7) % cap)).toNat = message.length / 256 % 256 := by
    have stored := isMessage.high
    rw [getElem?_eq_getElem (by omega), Option.some_inj] at stored
    rw [window 7 (by omega), stored, byteOf_toNat]
    rfl
  have small4 := (data.cell ((start + 4) % cap)).toNat_lt
  have small5 := (data.cell ((start + 5) % cap)).toNat_lt
  have small6 := (data.cell ((start + 6) % cap)).toNat_lt
  rw [joined_bytes small4 small5 small6, byte6, byte7, Nat.shiftRight_eq_div_pow]
  omega

theorem cpRingRead_message {dstSize : Nat} {message : List UInt8}
    (sound : Sound r) (isMessage : IsMessage message) (window : Window r.data r.head message)
    (whole : message.length ≤ cpRingUsed r) (dst : CArray UInt8 dstSize) :
    (dstSize < message.length ∧ cpRingRead r dst dstSize = .ok (r, dst, -2)) ∨
    ∃ dst', cpRingRead r dst dstSize =
        .ok ({ r with head := add32 r.head message.length }, dst', (message.length : Int)) ∧
      dst'.take message.length = message := by
  have long := isMessage.long
  have short := isMessage.short
  have aligned : message.length &&& 3 = 0 :=
    (Nat.and_two_pow_sub_one_eq_mod message.length 2).trans isMessage.aligned
  have inside : ∀ index, (r.head + index) % cap < cap := fun _ => Nat.mod_lt _ sound.ring.positive
  have enough : ¬ cpRingUsed r < cpMsgHdr := by
    rw [cpMsgHdr]
    omega
  have inRange : ¬ (message.length < cpMsgHdr ∨ message.length > cpMsgMax ∨
      message.length &&& 3 ≠ 0) := by
    rw [cpMsgHdr, cpMsgMax, aligned]
    omega
  have unfolded : cpRingRead r dst dstSize =
      if dstSize < message.length then .ok (r, dst, -2)
      else ringLoad r.data (sub32 cap 1) (r.head &&& sub32 cap 1) dst 0 message.length >>=
        fun dst' => .ok ({ r with head := add32 r.head message.length }, dst',
          (message.length : Int)) := by
    simp only [cpRingRead, if_neg enough, sound.whole, sound.ring.slot, CArray.read_eq (inside _),
      ok_bind, header_size isMessage window, if_neg inRange, if_neg (Nat.not_lt.mpr whole)]
  rw [unfolded]
  by_cases narrow : dstSize < message.length
  · exact Or.inl ⟨narrow, if_pos narrow⟩
  · obtain ⟨dst', run, copied⟩ := ringLoad_window sound.ring dst window (by omega)
    refine Or.inr ⟨dst', ?_, copied⟩
    rw [if_neg narrow, run, ok_bind]

theorem cpRingRead_empty {dstSize : Nat} (empty : cpRingUsed r = 0)
    (dst : CArray UInt8 dstSize) (dstCap : Nat) :
    cpRingRead r dst dstCap = .ok (r, dst, 0) := by
  have short : cpRingUsed r < cpMsgHdr := by
    rw [empty, cpMsgHdr]
    omega
  simp only [cpRingRead, if_pos short]

/-- Moving the head takes the front off. -/
theorem Pending.take {front back : List UInt8} (sound : Sound r)
    (pending : Pending r (front ++ back)) :
    Pending { r with head := add32 r.head front.length } back := by
  have used := pending.used
  unfold cpRingUsed at used
  rw [length_append] at used
  refine ⟨?_, ?_⟩
  · show sub32 r.tail (add32 r.head front.length) = back.length
    rw [sub32_add32_right (by omega), used]
    omega
  · exact (Window.append_iff.mp pending.window).2.congr_start (sound.ring.add32_mod _ _).symm

theorem cpRingRead_total {dstSize : Nat} (sound : Sound r) (dst : CArray UInt8 dstSize) :
    ∃ dst' rc head, head < 4294967296 ∧
      cpRingRead r dst dstSize = .ok ({ r with head := head }, dst', rc) := by
  obtain ⟨head, tail, data, size⟩ := r
  obtain ⟨whole, ring, headSmall, -⟩ := sound
  dsimp only at whole headSmall
  subst whole
  have inside : ∀ index, (head + index) % size < size := fun _ => Nat.mod_lt _ ring.positive
  simp only [cpRingRead, ring.slot, CArray.read_eq (inside _), ok_bind]
  split
  · exact ⟨dst, 0, head, headSmall, rfl⟩
  · split
    · exact ⟨dst, -1, head, headSmall, rfl⟩
    · split
      · exact ⟨dst, 0, head, headSmall, rfl⟩
      · split
        · exact ⟨dst, -2, head, headSmall, rfl⟩
        · rename_i fits
          obtain ⟨dst', run, -⟩ := ringLoad_spec ring head data _ dst 0
            ((Nat.zero_add _).trans_le (Nat.not_lt.mp fits))
          exact ⟨dst', _, _, add32_lt _ _, by rw [run, ok_bind]⟩

end M4KK1.Copland
