import M4KK1.Copland.Rings

/-!
# The message codec round trip

`cp_put_*` drops a field that does not fit, and `cp_msg_finish` only looks at the length.
-/

namespace M4KK1.Copland

open M4KK1.Lib Function List

/-- Content and terminator of a string, padded to a multiple of four. -/
def paddedLength (n : Nat) : Nat := (n + 1 + 3) / 4 * 4

def Field.size : Field → Nat
  | .u32 _ | .i32 _ | .string none => 4
  | .string (some s) => 4 + paddedLength s.bytes.length

/-- The bytes a sequence of fields takes. -/
def fieldsSize (fields : List Field) : Nat := (fields.map Field.size).sum

/-- All fields fit behind the header. -/
def Fits (cap : Nat) (fields : List Field) : Prop := cpMsgHdr + fieldsSize fields ≤ cap

instance (cap : Nat) (fields : List Field) : Decidable (Fits cap fields) :=
  inferInstanceAs (Decidable (_ ≤ _))

/-- One more field: a word that does not fit is dropped, and so is a string's text. -/
def packField (cap len : Nat) (field : Field) : Nat :=
  let afterWord := if len + 4 ≤ cap then len + 4 else len
  match field with
  | .u32 _ | .i32 _ | .string none => afterWord
  | .string (some s) =>
    if afterWord + paddedLength s.bytes.length ≤ cap then
      afterWord + paddedLength s.bytes.length
    else afterWord

def packedLength (cap : Nat) (fields : List Field) : Nat :=
  fields.foldl (packField cap) cpMsgHdr

/-- The argument is one the C type of the call can hold. -/
def Field.Typed : Field → Prop
  | .u32 v => v < 4294967296
  | .i32 v => -2147483648 ≤ v ∧ v < 2147483648
  | .string none => True
  | .string (some s) => 0 ∉ s.bytes

/-- What a `cp_get_*` call is asked for. -/
inductive Want where
  | u32
  | i32
  | string {dstCap : Nat} (dst : CArray UInt8 dstCap)

/-- What a `cp_get_*` call hands back; for a string its result and the C string in the buffer. -/
inductive Got where
  | u32 (v : Nat)
  | i32 (v : Int)
  | string (rc : Int) (text : List UInt8)
deriving DecidableEq

/-- The bytes of a buffer before the first NUL. -/
def textOf {dstCap : Nat} (dst : CArray UInt8 dstCap) : List UInt8 :=
  (dst.take dstCap).takeWhile fun byte => byte ≠ 0

variable {cap : Nat}

/-- One `cp_get_*` call. -/
def getField (r : MsgReader cap) : Want → Except Fault (MsgReader cap × Got)
  | .u32 => do
    let (r, v) ← cpGetU32 r
    .ok (r, .u32 v)
  | .i32 => do
    let (r, v) ← cpGetI32 r
    .ok (r, .i32 v)
  | .string dst => do
    let (r, dst, rc) ← cpGetString r dst
    .ok (r, .string rc (textOf dst))

/-- A sequence of `cp_get_*` calls. -/
def getFields (r : MsgReader cap) : List Want → Except Fault (List Got)
  | [] => .ok []
  | want :: wants => do
    let (r, got) ← getField r want
    let gots ← getFields r wants
    .ok (got :: gots)

/-- The call that matches a field, with a buffer that takes it. -/
def Matches : Field → Want → Prop
  | .u32 _, .u32 => True
  | .i32 _, .i32 => True
  | .string none, .string _ => True
  | .string (some s), @Want.string dstCap _ => s.bytes.length + 1 ≤ dstCap
  | _, _ => False

/-- What reading a field should hand back. -/
def Field.got : Field → Got
  | .u32 v => .u32 v
  | .i32 v => .i32 v
  | .string none => .string 0 []
  | .string (some s) => .string (s.bytes.length + 1) s.bytes

/-- What `cp_msg_finish` accepts reads back as put, and it refuses when a field did not fit. -/
def RoundTrips (cap obj op : Nat) (fields : List Field) : Prop :=
  ∀ mem : CArray UInt8 cap, ∃ m m' rc, putFields (cpMsgStart mem obj op) fields = .ok m ∧
    cpMsgFinish m = .ok (m', rc) ∧
    (0 ≤ rc → headerObj m'.b = .ok obj ∧ headerOpcode m'.b = .ok op ∧
      headerSize m'.b = .ok rc.toNat ∧
      ∀ wants, List.Forall₂ Matches fields wants →
        getFields (cpReaderInit m'.b rc.toNat) wants = .ok (fields.map Field.got)) ∧
    (¬ Fits cap fields → rc < 0)

def wordBytes (v : Nat) : List UInt8 := [byteOf v 0, byteOf v 1, byteOf v 2, byteOf v 3]

def Field.encode : Field → List UInt8
  | .u32 v => wordBytes v
  | .i32 v => wordBytes (v % 4294967296).toNat
  | .string none => wordBytes 0
  | .string (some s) => wordBytes (s.bytes.length + 1) ++
      (s.bytes ++ List.replicate (paddedLength s.bytes.length - s.bytes.length) 0)

theorem paddedLength_le (n : Nat) : n < paddedLength n ∧ paddedLength n ≤ n + 4 := by
  unfold paddedLength
  omega

theorem Field.encode_length (field : Field) : field.encode.length = field.size := by
  cases field with
  | u32 v => rfl
  | i32 v => rfl
  | string s =>
    cases s with
    | none => rfl
    | some s =>
      have := paddedLength_le s.bytes.length
      simp [Field.encode, Field.size, wordBytes]
      omega

theorem masked_eq {value : Nat} (small : value < 4294967296) :
    value &&& 0xFFFFFFFC = value / 4 * 4 := by
  have mask : 0xFFFFFFFC = (2 ^ 30 - 1) <<< 2 := by decide
  have rounded : value / 4 * 4 = (value >>> 2) <<< 2 := by
    rw [Nat.shiftRight_eq_div_pow, Nat.shiftLeft_eq]
  rw [mask, rounded]
  apply Nat.eq_of_testBit_eq
  intro i
  rw [Nat.testBit_and, Nat.testBit_shiftLeft, Nat.testBit_shiftLeft, Nat.testBit_shiftRight,
    Nat.testBit_two_pow_sub_one]
  by_cases low : 2 ≤ i
  · rw [show 2 + (i - 2) = i by omega]
    by_cases high : i - 2 < 30
    · simp [low, high]
    · have above : value.testBit i = false :=
        Nat.testBit_lt_two_pow (Nat.lt_of_lt_of_le small
          (Nat.pow_le_pow_right (show 0 < 2 by decide) (show 32 ≤ i by omega)))
      simp [above]
  · simp [low]

theorem pad_eq {n : Nat} (small : n < 536870912) :
    add32 (n + 1) 3 &&& 0xFFFFFFFC = paddedLength n := by
  rw [add32_eq (by omega), masked_eq (by omega), paddedLength]

theorem wordAt_segment {msg : CArray UInt8 cap} {pos v : Nat}
    (held : msg.Segment pos (wordBytes v)) (typed : v < 4294967296) (inside : pos + 4 ≤ cap) :
    wordAt msg pos = .ok v := by
  have first : msg.cell pos = byteOf v 0 := held 0 (by simp [wordBytes])
  have second : msg.cell (pos + 1) = byteOf v 1 := held 1 (by simp [wordBytes])
  have third : msg.cell (pos + 2) = byteOf v 2 := held 2 (by simp [wordBytes])
  have fourth : msg.cell (pos + 3) = byteOf v 3 := held 3 (by simp [wordBytes])
  rw [wordAt, CArray.read_eq (by omega), ok_bind, CArray.read_eq (by omega), ok_bind,
    CArray.read_eq (by omega), ok_bind, CArray.read_eq (by omega), ok_bind, first, second, third,
    fourth, joined_bytes (UInt8.toNat_lt _) (UInt8.toNat_lt _) (UInt8.toNat_lt _), byteOf_toNat,
    byteOf_toNat, byteOf_toNat, byteOf_toNat]
  congr 1
  simp only [Nat.reduceMul, Nat.reducePow]
  omega

variable {m : Msgbuf cap} {r : MsgReader cap} {fields : List Field}

theorem putField_fits (small : Small cap) (field : Field) (fits : m.len + field.size ≤ cap) :
    ∃ b', putField m field = .ok { m with b := b', len := m.len + field.size } ∧
      b'.Segment m.len field.encode ∧ ∀ cell, cell < m.len → b'.cell cell = m.b.cell cell := by
  have word : ∀ v, m.len + 4 ≤ cap → ∃ b', cpPutU32 m v = .ok { m with b := b', len := m.len + 4 } ∧
      b'.Segment m.len (wordBytes v) ∧ ∀ cell, cell < m.len → b'.cell cell = m.b.cell cell := by
    intro v room
    refine ⟨_, cpPutU32_fits small v room, ?_, ?_⟩
    · intro index inside
      simp only [wordBytes, length_cons, length_nil] at inside
      match index, inside with
      | 0, _ => simp [wordBytes]
      | 1, _ => simp [wordBytes]
      | 2, _ => simp [wordBytes]
      | 3, _ => simp [wordBytes]
    · intro cell below
      simp only [update_apply]
      rw [if_neg (by omega), if_neg (by omega), if_neg (by omega), if_neg (by omega)]
  cases field with
  | u32 v => exact word v fits
  | i32 v => exact word _ fits
  | string s =>
    cases s with
    | none =>
      obtain ⟨b', put, held, kept⟩ := word 0 fits
      refine ⟨b', ?_, held, kept⟩
      rw [putField, cpPutString, put, ok_bind, ok_bind]
      rfl
    | some s =>
      have addressable := s.addressable
      have small' := small
      unfold Small at small'
      simp only [Field.size] at fits
      have counted : add32 s.bytes.length 1 = s.bytes.length + 1 := add32_eq (by omega)
      obtain ⟨b', put, held, kept⟩ := word (s.bytes.length + 1) (by omega)
      obtain ⟨b'', stored, filled, keptToo⟩ := putBytes_spec small (m.len + 4) s.bytes
        (paddedLength s.bytes.length) b' 0 (by omega)
      have room : ¬ add32 (m.len + 4) (paddedLength s.bytes.length) > cap := by
        rw [add32_eq (by omega)]
        omega
      refine ⟨b'', ?_, CArray.Segment.append_iff.mpr ⟨?_, ?_⟩, ?_⟩
      · simp only [putField, cpPutString, counted, put, ok_bind, pad_eq addressable, if_neg room,
          stored]
        rw [add32_eq (by omega)]
        simp [Field.size, Nat.add_assoc]
      · refine held.congr fun cell _ below => keptToo cell ?_
        simpa [wordBytes] using below
      · intro index inside
        have padding := paddedLength_le s.bytes.length
        simp only [length_append, length_replicate] at inside
        have here := filled index (Nat.zero_le _) (by omega)
        simp only [wordBytes, length_cons, length_nil, Nat.zero_add] at here ⊢
        rw [here]
        by_cases inText : index < s.bytes.length
        · rw [getElem_append_left inText, getD_eq_getElem _ _ inText]
        · rw [getElem_append_right (by omega), getElem_replicate, getD_eq_default _ _ (by omega)]
      · intro cell below
        rw [keptToo cell (by omega), kept cell below]

theorem cpPutU32_len (small : Small cap) (building : Building m) (v : Nat) :
    ∃ m', cpPutU32 m v = .ok m' ∧ m'.obj = m.obj ∧ m'.op = m.op ∧
      m'.len = if m.len + 4 ≤ cap then m.len + 4 else m.len := by
  have fits := building.fits
  have small' := small
  unfold Small at small'
  by_cases room : m.len + 4 ≤ cap
  · rw [if_pos room]
    exact ⟨_, cpPutU32_fits small v room, rfl, rfl, rfl⟩
  · rw [if_neg room]
    refine ⟨m, if_pos ?_, rfl, rfl, rfl⟩
    rw [add32_eq (by omega)]
    omega

theorem putField_len (small : Small cap) (building : Building m) (field : Field) :
    ∃ m', putField m field = .ok m' ∧ m'.obj = m.obj ∧ m'.op = m.op ∧
      m'.len = packField cap m.len field := by
  cases field with
  | u32 v => exact cpPutU32_len small building v
  | i32 v => exact cpPutU32_len small building _
  | string s =>
    cases s with
    | none =>
      obtain ⟨m', put, kept⟩ := cpPutU32_len small building 0
      refine ⟨m', ?_, kept⟩
      rw [putField, cpPutString, put, ok_bind, ok_bind]
    | some s =>
      have addressable := s.addressable
      have padding := paddedLength_le s.bytes.length
      have small' := small
      unfold Small at small'
      have counted : add32 s.bytes.length 1 = s.bytes.length + 1 := add32_eq (by omega)
      obtain ⟨middle, put, obj, op, len⟩ := cpPutU32_len small building (s.bytes.length + 1)
      have fits := building.fits
      have middleFits : middle.len ≤ cap := by
        rw [len]
        split <;> omega
      have sum : add32 middle.len (paddedLength s.bytes.length) =
          middle.len + paddedLength s.bytes.length := add32_eq (by omega)
      simp only [putField, cpPutString, counted, put, ok_bind, pad_eq addressable, sum,
        packField, ← len]
      by_cases room : middle.len + paddedLength s.bytes.length ≤ cap
      · obtain ⟨b', stored, _⟩ := putBytes_spec small middle.len s.bytes
          (paddedLength s.bytes.length) middle.b 0 (by omega)
        rw [if_neg (by omega), stored, if_pos room]
        exact ⟨_, rfl, obj, op, rfl⟩
      · rw [if_pos (by omega), if_neg room]
        exact ⟨middle, rfl, obj, op, rfl⟩

theorem putFields_len (small : Small cap) (building : Building m) (fields : List Field) :
    ∃ m', putFields m fields = .ok m' ∧ m'.obj = m.obj ∧ m'.op = m.op ∧
      m'.len = fields.foldl (packField cap) m.len := by
  induction fields generalizing m with
  | nil => exact ⟨m, rfl, rfl, rfl, rfl⟩
  | cons field fields ih =>
    obtain ⟨middle, put, obj, op, len⟩ := putField_len small building field
    obtain ⟨other, putToo, middleBuilding⟩ := putFields_spec small [field] m building
    have same : other = middle := by
      rw [putFields, put, ok_bind] at putToo
      exact (Except.ok.inj putToo).symm
    subst same
    obtain ⟨m', rest, obj', op', len'⟩ := ih middleBuilding
    refine ⟨m', ?_, obj'.trans obj, op'.trans op, ?_⟩
    · rw [putFields, put, ok_bind, rest]
    · rw [len', len, foldl_cons]

theorem putFields_fits (small : Small cap) (fields : List Field)
    (fits : m.len + fieldsSize fields ≤ cap) :
    ∃ b', putFields m fields = .ok { m with b := b', len := m.len + fieldsSize fields } ∧
      b'.Segment m.len (fields.flatMap Field.encode) ∧
      ∀ cell, cell < m.len → b'.cell cell = m.b.cell cell := by
  induction fields generalizing m with
  | nil =>
    refine ⟨m.b, rfl, ?_, fun _ _ => rfl⟩
    intro index inside
    simp at inside
  | cons field fields ih =>
    have split : fieldsSize (field :: fields) = field.size + fieldsSize fields := by
      simp [fieldsSize]
    rw [split] at fits
    obtain ⟨b', put, held, kept⟩ := putField_fits small field (m := m) (by omega)
    obtain ⟨b'', rest, heldRest, keptRest⟩ :=
      ih (m := { m with b := b', len := m.len + field.size }) (by simp only; omega)
    refine ⟨b'', ?_, ?_, ?_⟩
    · rw [putFields, put, ok_bind, rest]
      simp only [split, Nat.add_assoc]
    · rw [flatMap_cons]
      refine CArray.Segment.append_iff.mpr ⟨?_, ?_⟩
      · refine held.congr fun cell _ below => keptRest cell ?_
        rwa [Field.encode_length] at below
      · rwa [Field.encode_length]
    · intro cell below
      rw [keptRest cell (by simp only; omega), kept cell below]

theorem textOf_eq {dstCap : Nat} {dst : CArray UInt8 dstCap} {text : List UInt8}
    (fits : text.length < dstCap) (held : dst.Segment 0 (text ++ [0])) (noNul : 0 ∉ text) :
    textOf dst = text := by
  have starts : dst.take (text.length + 1) = text ++ [0] := by
    apply ext_getElem
    · simp
    · intro index _ inside
      rw [CArray.getElem_take, ← held index inside, Nat.zero_add]
  have split : dst.take dstCap = text ++ 0 :: (List.range (dstCap - (text.length + 1))).map
      fun index => dst.cell (text.length + 1 + index) := by
    have whole : dstCap = (text.length + 1) + (dstCap - (text.length + 1)) := by omega
    calc dst.take dstCap
        = dst.take ((text.length + 1) + (dstCap - (text.length + 1))) := by rw [← whole]
      _ = dst.take (text.length + 1) ++ _ := by
        rw [CArray.take, range_add, map_append, map_map]
        rfl
      _ = _ := by
        rw [starts, append_assoc]
        rfl
  rw [textOf, split, takeWhile_append_of_pos]
  · simp
  · intro byte member
    simpa using fun isNul : byte = 0 => noNul (isNul ▸ member)

theorem MsgReader.skip_eq {n : Nat} (enough : n ≤ r.left)
    (bounded : r.left < 4294967296) : r.skip n = ⟨r.msg, r.pos + n, r.left - n⟩ := by
  rw [MsgReader.skip, sub32_eq enough bounded]

theorem cpGetU32_segment {v : Nat} (small : v < 4294967296)
    (held : r.msg.Segment r.pos (wordBytes v)) (left : 4 ≤ r.left) (bounded : r.left < 4294967296)
    (inside : r.pos + 4 ≤ cap) : cpGetU32 r = .ok (⟨r.msg, r.pos + 4, r.left - 4⟩, v) := by
  rw [cpGetU32, if_neg (by omega), wordAt_segment held small inside, ok_bind,
    MsgReader.skip_eq left bounded]

theorem cpGetI32_segment {v : Int} (low : -2147483648 ≤ v) (high : v < 2147483648)
    (held : r.msg.Segment r.pos (wordBytes (v % 4294967296).toNat)) (left : 4 ≤ r.left)
    (bounded : r.left < 4294967296) (inside : r.pos + 4 ≤ cap) :
    cpGetI32 r = .ok (⟨r.msg, r.pos + 4, r.left - 4⟩, v) := by
  have back : toInt32 (v % 4294967296).toNat = v := by
    unfold toInt32
    split <;> omega
  rw [cpGetI32, cpGetU32_segment (by omega) held left bounded inside]
  simp only [ok_bind, back]

/-- A string that was `NULL` is read as the empty one, if the buffer has room for its terminator. -/
theorem getString_null {dstCap : Nat} {dst : CArray UInt8 dstCap}
    (held : r.msg.Segment r.pos (wordBytes 0)) (left : 4 ≤ r.left) (bounded : r.left < 4294967296)
    (inside : r.pos + 4 ≤ cap) :
    getField r (.string dst) = .ok (⟨r.msg, r.pos + 4, r.left - 4⟩, .string 0 []) := by
  have zero := wordAt_segment held (by decide) inside
  have read : cpGetString r dst =
      (if dstCap > 0 then dst.write 0 0 else .ok dst) >>= fun dst' =>
        .ok (⟨r.msg, r.pos + 4, r.left - 4⟩, dst', 0) := by
    rw [cpGetString, if_neg (by omega), zero, ok_bind, if_pos rfl, MsgReader.skip_eq left bounded]
    split <;> rfl
  rw [getField, read]
  by_cases wide : dstCap > 0
  · rw [if_pos wide, CArray.write_eq wide, ok_bind, ok_bind]
    have text : textOf (⟨update dst.cell 0 0⟩ : CArray UInt8 dstCap) = [] := by
      refine textOf_eq wide ?_ (by simp)
      intro index short
      obtain rfl : index = 0 := by simpa using short
      simp
    simp only [text]
  · rw [if_neg wide, ok_bind, ok_bind]
    obtain rfl : dstCap = 0 := by omega
    rfl

/-- `cp_get_string` copies the text with its terminator and skips the padding behind it. -/
theorem cpGetString_segment {dstCap : Nat} {dst : CArray UInt8 dstCap} {s : CString}
    (held : r.msg.Segment r.pos (wordBytes (s.bytes.length + 1)))
    (left : 4 + paddedLength s.bytes.length ≤ r.left) (bounded : r.left < 4294967296)
    (inside : r.pos + (4 + paddedLength s.bytes.length) ≤ cap)
    (enough : s.bytes.length + 1 ≤ dstCap) :
    cpGetString r dst = .ok (⟨r.msg, r.pos + (4 + paddedLength s.bytes.length),
      r.left - (4 + paddedLength s.bytes.length)⟩,
      ⟨update (fun cell => if 0 ≤ cell ∧ cell < 0 + (s.bytes.length + 1) then
        r.msg.cell (r.pos + 4 + cell) else dst.cell cell) (s.bytes.length + 1 - 1) 0⟩,
      ((s.bytes.length + 1 : Nat) : Int)) := by
  have addressable := s.addressable
  have padding := paddedLength_le s.bytes.length
  have padded : add32 (s.bytes.length + 1) 3 &&& 0xFFFFFFFC = paddedLength s.bytes.length :=
    pad_eq addressable
  rw [cpGetString, if_neg (by omega), wordAt_segment held (by omega) (by omega), ok_bind,
    if_neg (by omega), MsgReader.skip_eq (by omega) bounded]
  simp only
  rw [if_neg (by omega), if_neg (by omega), CArray.copyFrom_eq _ _ _ _ _ (by omega) (by omega),
    ok_bind, CArray.write_eq (by omega), ok_bind]
  congr 2
  simp only [MsgReader.skipPad, MsgReader.skip, padded]
  rw [sub32_eq (by omega) (by omega)]
  split
  · rw [sub32_eq (by omega) (by omega)]
    congr 1 <;> omega
  · have exactly : paddedLength s.bytes.length = s.bytes.length + 1 := by omega
    rw [exactly]
    congr 1 <;> omega

theorem getString_text {dstCap : Nat} {dst : CArray UInt8 dstCap} {s : CString}
    (noNul : 0 ∉ s.bytes) (held : r.msg.Segment r.pos (Field.string (some s)).encode)
    (left : 4 + paddedLength s.bytes.length ≤ r.left) (bounded : r.left < 4294967296)
    (inside : r.pos + (4 + paddedLength s.bytes.length) ≤ cap)
    (enough : s.bytes.length + 1 ≤ dstCap) :
    getField r (.string dst) = .ok (⟨r.msg, r.pos + (4 + paddedLength s.bytes.length),
      r.left - (4 + paddedLength s.bytes.length)⟩, .string (s.bytes.length + 1) s.bytes) := by
  simp only [Field.encode] at held
  obtain ⟨lengthHeld, textHeld⟩ := CArray.Segment.append_iff.mp held
  simp only [wordBytes, length_cons, length_nil, Nat.zero_add] at textHeld
  rw [getField, cpGetString_segment lengthHeld left bounded inside enough]
  generalize copied : (⟨update (fun cell =>
      if 0 ≤ cell ∧ cell < 0 + (s.bytes.length + 1) then r.msg.cell (r.pos + 4 + cell)
      else dst.cell cell) (s.bytes.length + 1 - 1) 0⟩ : CArray UInt8 dstCap) = dst'
  have text : textOf dst' = s.bytes := by
    refine textOf_eq (by omega) ?_ noNul
    intro index short
    rw [← copied]
    simp only [length_append, length_cons, length_nil, Nat.zero_add] at short
    simp only [Nat.zero_add, Nat.add_sub_cancel]
    by_cases last : index = s.bytes.length
    · subst last
      simp
    · have inText : index < s.bytes.length := by omega
      rw [update_of_ne last, if_pos ⟨Nat.zero_le _, by omega⟩,
        textHeld index (by simp; omega), getElem_append_left inText, getElem_append_left inText]
  simp only [ok_bind, text]
  rfl

/-- A call that matches the field in front of the reader hands it back and moves behind it. -/
theorem getField_segment {field : Field} {want : Want} (typed : field.Typed)
    (wanted : Matches field want) (held : r.msg.Segment r.pos field.encode)
    (left : field.size ≤ r.left) (bounded : r.left < 4294967296)
    (inside : r.pos + field.size ≤ cap) :
    getField r want = .ok (⟨r.msg, r.pos + field.size, r.left - field.size⟩, field.got) := by
  cases field with
  | u32 v =>
    cases want with
    | u32 =>
      rw [getField, cpGetU32_segment typed held left bounded inside]
      rfl
    | i32 => exact wanted.elim
    | string => exact wanted.elim
  | i32 v =>
    cases want with
    | u32 => exact wanted.elim
    | string => exact wanted.elim
    | i32 =>
      rw [getField, cpGetI32_segment typed.1 typed.2 held left bounded inside]
      rfl
  | string s =>
    cases want with
    | u32 => cases s <;> exact wanted.elim
    | i32 => cases s <;> exact wanted.elim
    | string dst =>
      cases s with
      | none => exact getString_null held left bounded inside
      | some s => exact getString_text typed held left bounded inside wanted

theorem getFields_segment {wants : List Want}
    (typed : ∀ field ∈ fields, field.Typed) (wanted : List.Forall₂ Matches fields wants)
    (held : r.msg.Segment r.pos (fields.flatMap Field.encode))
    (left : fieldsSize fields ≤ r.left) (bounded : r.left < 4294967296)
    (inside : r.pos + fieldsSize fields ≤ cap) :
    getFields r wants = .ok (fields.map Field.got) := by
  induction wanted generalizing r with
  | nil => rfl
  | @cons field want fields wants first _ ih =>
    have split : fieldsSize (field :: fields) = field.size + fieldsSize fields := by
      simp [fieldsSize]
    rw [split] at left inside
    rw [flatMap_cons] at held
    obtain ⟨heldFirst, heldRest⟩ := CArray.Segment.append_iff.mp held
    rw [Field.encode_length] at heldRest
    have rest := ih (fun other member => typed other (mem_cons_of_mem _ member))
      (r := ⟨r.msg, r.pos + field.size, r.left - field.size⟩) heldRest (by simp only; omega)
      (by simp only; omega) (by simp only; omega)
    rw [getFields, getField_segment (typed field mem_cons_self) first heldFirst (by omega)
      bounded (by omega), ok_bind]
    simp only [rest, ok_bind]
    rfl

theorem header_decodes {b : CArray UInt8 cap} {obj op len : Nat} (wide : 8 ≤ cap)
    (objTyped : obj < 4294967296) (opTyped : op < 65536) (lenTyped : len < 65536)
    (header : b.take 8 = headerOf obj op len) :
    headerObj b = .ok obj ∧ headerOpcode b = .ok op ∧ headerSize b = .ok len := by
  have held : b.Segment 0 (headerOf obj op len) := by
    rw [← header]
    intro i inside
    rw [CArray.getElem_take, Nat.zero_add]
  have byte4 : b.cell 4 = byteOf op 0 := held 4 (by simp [headerOf])
  have byte5 : b.cell 5 = byteOf op 1 := held 5 (by simp [headerOf])
  have byte6 : b.cell 6 = byteOf len 0 := held 6 (by simp [headerOf])
  have byte7 : b.cell 7 = byteOf len 1 := held 7 (by simp [headerOf])
  refine ⟨?_, ?_, ?_⟩
  · have front : b.Segment 0 (wordBytes obj) :=
      (CArray.Segment.append_iff.mp (show b.Segment 0 (wordBytes obj ++ _) from held)).1
    exact wordAt_segment front objTyped (by omega)
  · have joined : (byteOf op 0).toNat ||| (byteOf op 1).toNat <<< 8 = op := by
      have low := (byteOf op 0).toNat_lt
      rw [Nat.lor_comm, ← Nat.shiftLeft_add_eq_or_of_lt low, byteOf_toNat, byteOf_toNat,
        Nat.shiftLeft_eq]
      simp only [Nat.reduceMul, Nat.reducePow]
      omega
    rw [headerOpcode, CArray.read_eq (by omega), ok_bind, CArray.read_eq (by omega), ok_bind,
      byte4, byte5, joined]
  · rw [headerSize, wordAt, CArray.read_eq (by omega), ok_bind, CArray.read_eq (by omega), ok_bind,
      CArray.read_eq (by omega), ok_bind, CArray.read_eq (by omega), ok_bind, ok_bind, byte4, byte5,
      byte6, byte7, joined_bytes (UInt8.toNat_lt _) (UInt8.toNat_lt _) (UInt8.toNat_lt _),
      byteOf_toNat, byteOf_toNat, byteOf_toNat, byteOf_toNat, Nat.shiftRight_eq_div_pow]
    congr 1
    simp only [Nat.reduceMul, Nat.reducePow]
    omega

theorem packed_of_fits {len : Nat} (fields : List Field) (fits : len + fieldsSize fields ≤ cap) :
    fields.foldl (packField cap) len = len + fieldsSize fields := by
  induction fields generalizing len with
  | nil => rfl
  | cons field fields ih =>
    have split : fieldsSize (field :: fields) = field.size + fieldsSize fields := by
      simp [fieldsSize]
    rw [split] at fits ⊢
    have one : packField cap len field = len + field.size := by
      cases field with
      | u32 v => exact if_pos (by simp only [Field.size] at fits; omega)
      | i32 v => exact if_pos (by simp only [Field.size] at fits; omega)
      | string s =>
        cases s with
        | none => exact if_pos (by simp only [Field.size] at fits; omega)
        | some s =>
          simp only [Field.size] at fits
          simp only [packField, Field.size]
          rw [if_pos (show len + 4 ≤ cap by omega), if_pos (by omega), Nat.add_assoc]
    rw [foldl_cons, one, ih (by omega)]
    omega

theorem cpReaderInit_eq {msg : CArray UInt8 cap} {size : Nat}
    (bounded : cpMsgHdr + size < 4294967296) :
    cpReaderInit msg (cpMsgHdr + size) = ⟨msg, cpMsgHdr, size⟩ := by
  rw [cpReaderInit, if_neg (by omega), sub32_eq (by omega) (by omega)]
  congr 1
  omega

theorem finish_holds {mem : CArray UInt8 cap} {obj op : Nat} (small : Small cap)
    (objTyped : obj < 4294967296) (opTyped : op < 65536)
    (fits : Fits cap fields) (short : cpMsgHdr + fieldsSize fields ≤ cpMsgMax)
    (put : putFields (cpMsgStart mem obj op) fields = .ok m) :
    ∃ m', cpMsgFinish m = .ok (m', ((cpMsgHdr + fieldsSize fields : Nat) : Int)) ∧
      headerObj m'.b = .ok obj ∧ headerOpcode m'.b = .ok op ∧
      headerSize m'.b = .ok (cpMsgHdr + fieldsSize fields) ∧
      m'.b.Segment cpMsgHdr (fields.flatMap Field.encode) := by
  obtain ⟨b, putToo, held, _⟩ := putFields_fits small fields
    (m := cpMsgStart mem obj op) fits
  obtain rfl := Except.ok.inj (put.symm.trans putToo)
  obtain ⟨_, again, building⟩ := putFields_spec small fields (cpMsgStart mem obj op)
    (cpMsgStart_building (Nat.le_trans (Nat.le_add_right _ _) fits) mem obj op)
  obtain rfl := Except.ok.inj (put.symm.trans again)
  obtain ⟨b', finished, _, header, body⟩ := cpMsgFinish_spec building short
  unfold Fits at fits
  unfold Small at small
  have opWhole : op &&& 0xFFFF = op :=
    (Nat.and_two_pow_sub_one_eq_mod op 16).trans (Nat.mod_eq_of_lt opTyped)
  simp only [cpMsgStart, opWhole] at finished header held ⊢
  unfold cpMsgMax at short
  unfold cpMsgHdr at *
  obtain ⟨isObj, isOp, isSize⟩ :=
    header_decodes (by omega) objTyped opTyped (by omega) header
  exact ⟨_, finished, isObj, isOp, isSize, held.congr fun cell above _ => body cell above⟩

theorem finish_reads_back {mem : CArray UInt8 cap} {obj op : Nat} (small : Small cap)
    (objTyped : obj < 4294967296) (opTyped : op < 65536)
    (typed : ∀ field ∈ fields, field.Typed) (fits : Fits cap fields)
    (short : cpMsgHdr + fieldsSize fields ≤ cpMsgMax)
    (put : putFields (cpMsgStart mem obj op) fields = .ok m) :
    ∃ m', cpMsgFinish m = .ok (m', ((cpMsgHdr + fieldsSize fields : Nat) : Int)) ∧
      headerObj m'.b = .ok obj ∧ headerOpcode m'.b = .ok op ∧
      headerSize m'.b = .ok (cpMsgHdr + fieldsSize fields) ∧
      ∀ wants, List.Forall₂ Matches fields wants →
        getFields (cpReaderInit m'.b (cpMsgHdr + fieldsSize fields)) wants =
          .ok (fields.map Field.got) := by
  obtain ⟨m', finished, isObj, isOp, isSize, held⟩ :=
    finish_holds small objTyped opTyped fits short put
  refine ⟨m', finished, isObj, isOp, isSize, fun wants wanted => ?_⟩
  unfold cpMsgMax at short
  unfold Fits at fits
  unfold Small at small
  rw [cpReaderInit_eq (by omega)]
  exact getFields_segment typed wanted held (Nat.le_refl _) (by simp only; omega)
    (by simp only; omega)

/-- The round trip holds exactly when every field fits, or the message is longer than any may be. -/
theorem codec_round_trips_iff {obj op : Nat} {fields : List Field} (wide : cpMsgHdr ≤ cap)
    (small : Small cap) (objTyped : obj < 4294967296) (opTyped : op < 65536)
    (typed : ∀ field ∈ fields, field.Typed) :
    RoundTrips cap obj op fields ↔ Fits cap fields ∨ cpMsgMax < packedLength cap fields := by
  have start : ∀ mem : CArray UInt8 cap, Building (cpMsgStart mem obj op) :=
    fun mem => cpMsgStart_building wide mem obj op
  constructor
  · intro roundTrips
    by_contra neither
    rw [not_or] at neither
    obtain ⟨m, m', rc, put, finished, _, refuses⟩ := roundTrips (CArray.fill 0)
    obtain ⟨m'', putToo, _, _, len⟩ := putFields_len small (start (CArray.fill 0)) fields
    obtain rfl := Except.ok.inj (put.symm.trans putToo)
    obtain ⟨_, again, building⟩ := putFields_spec small fields _ (start (CArray.fill 0))
    obtain rfl := Except.ok.inj (put.symm.trans again)
    have short : m.len ≤ cpMsgMax := by
      rw [len]
      exact Nat.not_lt.mp neither.2
    obtain ⟨_, finishedToo, _⟩ := cpMsgFinish_spec building short
    obtain ⟨_, rfl⟩ := Prod.mk.inj (Except.ok.inj (finished.symm.trans finishedToo))
    have := refuses neither.1
    omega
  · intro condition mem
    obtain ⟨m, put, _, _, len⟩ := putFields_len small (start mem) fields
    by_cases long : cpMsgMax < packedLength cap fields
    · refine ⟨m, m, -1, put, if_pos ?_, fun accepted => absurd accepted (by decide),
        fun _ => by decide⟩
      rw [len]
      exact long
    · have fits := condition.resolve_right long
      have whole : packedLength cap fields = cpMsgHdr + fieldsSize fields :=
        packed_of_fits fields fits
      obtain ⟨m', finished, isObj, isOp, isSize, readBack⟩ := finish_reads_back small objTyped
        opTyped typed fits (by omega) put
      exact ⟨m, m', _, put, finished, fun _ => ⟨isObj, isOp, isSize, readBack⟩,
        fun overflow => absurd fits overflow⟩

/-- A word, a negative number, a string and a `NULL` come back from a buffer of 64 bytes. -/
theorem codec_round_trips_strings :
    Fits 64 [.u32 7, .i32 (-1), .string (some ⟨[104, 105], by decide⟩), .string none] ∧
      RoundTrips 64 3 2
        [.u32 7, .i32 (-1), .string (some ⟨[104, 105], by decide⟩), .string none] := by
  have fits : Fits 64
      [.u32 7, .i32 (-1), .string (some ⟨[104, 105], by decide⟩), .string none] := by
    decide
  refine ⟨fits, (codec_round_trips_iff (by decide) (show 64 < 2147483648 by decide) (by decide)
    (by decide) ?_).mpr (.inl fits)⟩
  intro field member
  simp only [mem_cons, not_mem_nil, or_false] at member
  rcases member with rfl | rfl | rfl | rfl <;> simp [Field.Typed]

/-- In a buffer of one word the second is dropped, `cp_msg_finish` returns 12, and 0 is read for it.
-/
theorem codec_drops_field : ¬ RoundTrips 12 7 2 [.u32 1, .u32 5] := by
  intro roundTrips
  obtain ⟨m, m', rc, put, finished, reads, _⟩ := roundTrips (CArray.fill 0)
  obtain rfl := Except.ok.inj ((show putFields (cpMsgStart (CArray.fill 0 : CArray UInt8 12) 7 2)
    [.u32 1, .u32 5] = .ok _ from rfl).symm.trans put)
  obtain ⟨rfl, rfl⟩ := Prod.mk.inj (Except.ok.inj ((show cpMsgFinish _ = .ok (_, 12) from
    rfl).symm.trans finished))
  have back := (reads (by decide)).2.2.2 [.u32, .u32]
    (.cons trivial (.cons trivial .nil))
  revert back
  decide

end M4KK1.Copland
