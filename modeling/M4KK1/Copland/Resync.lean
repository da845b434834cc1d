import M4KK1.Copland.Codec

/-!
# Reading on behind a truncated string

`cp_get_string` does not go over the padding of a string that it refuses.
-/

namespace M4KK1.Copland

open M4KK1.Lib List

variable {cap : Nat}

/-- A size that spells all of it, and one field after the other behind the header. -/
structure WellFormed (msg : CArray UInt8 cap) (fields : List Field) : Prop where
  typed : ∀ field ∈ fields, field.Typed
  short : cpMsgHdr + fieldsSize fields ≤ cpMsgMax
  inside : cpMsgHdr + fieldsSize fields ≤ cap
  sized : headerSize msg = .ok (cpMsgHdr + fieldsSize fields)
  held : msg.Segment cpMsgHdr (fields.flatMap Field.encode)

/-- The call that matches a field, whatever its buffer takes. -/
def Asks : Field → Want → Prop
  | .u32 _, .u32 => True
  | .i32 _, .i32 => True
  | .string _, .string _ => True
  | _, _ => False

/-- The string is longer than the buffer of its call. -/
def Overlong : Field → Want → Prop
  | .string (some s), @Want.string dstCap _ => dstCap < s.bytes.length + 1
  | _, _ => False

/-- The call reports a string longer than its buffer, and leaves the buffer as it was. -/
def Truncates (r : MsgReader cap) : Field → Want → Got → Prop
  | .string (some s), @Want.string dstCap dst, got =>
    dstCap < s.bytes.length + 1 ∧ wordAt r.msg r.pos = .ok (s.bytes.length + 1) ∧
      4 + (s.bytes.length + 1) ≤ r.left ∧ got = .string (-1) (textOf dst)
  | _, _, _ => False

/-- The field, or the report that the buffer is too small for it. -/
def Answers (r : MsgReader cap) (field : Field) (want : Want) (got : Got) : Prop :=
  Matches field want ∧ got = field.got ∨ Truncates r field want got

def ReadsOn (r : MsgReader cap) : List (Field × Want) → Prop
  | [] => True
  | (field, want) :: calls =>
    ∃ r' got, getField r want = .ok (r', got) ∧ Answers r field want got ∧ ReadsOn r' calls

/-- The calls behind one that reports truncation answer for the following fields. -/
def Resynchronises (r : MsgReader cap) : List (Field × Want) → Prop
  | [] => True
  | (field, want) :: calls =>
    ∃ r' got, getField r want = .ok (r', got) ∧
      (Truncates r field want got → ReadsOn r' calls) ∧ Resynchronises r' calls

/-- A field that is one zero word. -/
def Field.Quiet : Field → Prop
  | .u32 v => v = 0
  | .i32 v => v = 0
  | .string s => s = none

def Field.padding : Field → Nat
  | .string (some s) => paddedLength s.bytes.length - (s.bytes.length + 1)
  | _ => 0

/-- A string that is longer than its buffer has no padding, or nothing but zero words
behind it. -/
def Recovers : List (Field × Want) → Prop
  | [] => True
  | (field, want) :: calls =>
    (Overlong field want → field.padding = 0 ∨ ∀ call ∈ calls, call.1.Quiet) ∧ Recovers calls

/-- The reader stands `late` zero bytes before a sequence of fields. -/
structure Before (r : MsgReader cap) (late : Nat) (fields : List Field) : Prop where
  held : r.msg.Segment r.pos (List.replicate late 0 ++ fields.flatMap Field.encode)
  left : late + fieldsSize fields ≤ r.left
  bounded : r.left < 4294967296
  inside : r.pos + late + fieldsSize fields ≤ cap

theorem fieldsSize_cons (field : Field) (fields : List Field) :
    fieldsSize (field :: fields) = field.size + fieldsSize fields := by
  simp [fieldsSize]

variable {r : MsgReader cap} {field : Field} {fields : List Field} {want : Want} {late : Nat}
  {calls : List (Field × Want)}

theorem Before.getField_exact (before : Before r 0 (field :: fields)) (typed : field.Typed)
    (wanted : Matches field want) :
    getField r want = .ok (⟨r.msg, r.pos + field.size, r.left - field.size⟩, field.got) ∧
      Before (⟨r.msg, r.pos + field.size, r.left - field.size⟩ : MsgReader cap) 0 fields := by
  obtain ⟨held, left, bounded, inside⟩ := before
  rw [fieldsSize_cons] at left inside
  simp only [replicate_zero, nil_append, flatMap_cons] at held
  obtain ⟨heldField, heldRest⟩ := CArray.Segment.append_iff.mp held
  rw [Field.encode_length] at heldRest
  refine ⟨getField_segment typed wanted heldField (by omega) bounded (by omega), ?_, ?_, ?_, ?_⟩
  · simpa using heldRest
  · simp only
    omega
  · simp only
    omega
  · simp only
    omega

theorem Before.getField_truncated (before : Before r 0 (field :: fields))
    (overlong : Overlong field want) :
    ∃ r' got, getField r want = .ok (r', got) ∧ Truncates r field want got ∧
      Before r' field.padding fields := by
  obtain ⟨held, left, bounded, inside⟩ := before
  rw [fieldsSize_cons] at left inside
  simp only [replicate_zero, nil_append, flatMap_cons] at held
  match field, want, overlong with
  | .string (some s), @Want.string dstCap dst, small =>
    have small : dstCap < s.bytes.length + 1 := small
    have addressable := s.addressable
    have padding := paddedLength_le s.bytes.length
    obtain ⟨heldField, heldRest⟩ := CArray.Segment.append_iff.mp held
    rw [Field.encode_length] at heldRest
    simp only [Field.encode, Field.size] at heldField heldRest left inside
    obtain ⟨lengthHeld, textHeld⟩ := CArray.Segment.append_iff.mp heldField
    have length := wordAt_segment lengthHeld (by omega) (by omega)
    refine ⟨⟨r.msg, r.pos + 4 + (s.bytes.length + 1), r.left - 4 - (s.bytes.length + 1)⟩, _, ?_,
      ⟨small, length, by omega, rfl⟩, ?_, ?_, ?_, ?_⟩
    · have read : cpGetString r dst =
          .ok ((r.skip 4).skip (s.bytes.length + 1), dst, -1) := by
        rw [cpGetString, if_neg (by omega), length, ok_bind, if_neg (by omega),
          MsgReader.skip_eq (by omega) bounded]
        simp only
        rw [if_neg (by omega), if_pos small]
      rw [getField, read, MsgReader.skip_eq (r := r) (by omega) bounded,
        MsgReader.skip_eq (by simp only; omega) (by simp only; omega)]
      rfl
    · -- the terminator is the first of the zeros behind the text, the padding the rest
      have zeros : paddedLength s.bytes.length - s.bytes.length =
          1 + (paddedLength s.bytes.length - (s.bytes.length + 1)) := by omega
      rw [zeros, ← replicate_append_replicate, ← append_assoc] at textHeld
      have paddingHeld := (CArray.Segment.append_iff.mp textHeld).2
      refine CArray.Segment.append_iff.mpr ⟨?_, ?_⟩
      · simpa [wordBytes, Field.padding, Nat.add_assoc] using paddingHeld
      · have start : r.pos + 4 + (s.bytes.length + 1) +
            (paddedLength s.bytes.length - (s.bytes.length + 1)) =
              r.pos + (4 + paddedLength s.bytes.length) := by omega
        simp only [Field.padding, length_replicate]
        rwa [start]
    · simp only [Field.padding]
      omega
    · simp only
      omega
    · simp only [Field.padding]
      omega

theorem matches_or_overlong (asks : Asks field want) :
    Matches field want ∨ Overlong field want := by
  match field, want, asks with
  | .u32 _, .u32, _ => exact .inl trivial
  | .i32 _, .i32, _ => exact .inl trivial
  | .string none, .string _, _ => exact .inl trivial
  | .string (some s), @Want.string dstCap _, _ =>
    exact Nat.lt_or_ge dstCap (s.bytes.length + 1) |>.symm

theorem not_matches_of_overlong (overlong : Overlong field want) : ¬ Matches field want := by
  match field, want, overlong with
  | .string (some _), .string _, small => exact Nat.not_le.mpr small

theorem Field.Quiet.encode_eq (quiet : field.Quiet) : field.encode = List.replicate 4 0 := by
  match field, quiet with
  | .u32 _, rfl => rfl
  | .i32 _, rfl => rfl
  | .string _, rfl => rfl

theorem Before.getField_quiet (before : Before r late (field :: fields))
    (quiet : field.Quiet) (asks : Asks field want) :
    ∃ r', getField r want = .ok (r', field.got) ∧ Matches field want ∧ Before r' late fields := by
  obtain ⟨held, left, bounded, inside⟩ := before
  have four : field.size = 4 := by
    rw [← Field.encode_length, quiet.encode_eq, length_replicate]
  have typed : field.Typed := by
    match field, quiet with
    | .u32 _, rfl => exact show 0 < 4294967296 by decide
    | .i32 _, rfl => exact show (-2147483648 : Int) ≤ 0 ∧ (0 : Int) < 2147483648 by decide
    | .string _, rfl => trivial
  have wanted : Matches field want := by
    match field, want, quiet, asks with
    | .u32 _, .u32, _, _ => trivial
    | .i32 _, .i32, _, _ => trivial
    | .string _, .string _, rfl, _ => trivial
  rw [fieldsSize_cons, four] at left inside
  -- zeros commute: the word can be read first and the lateness kept
  have swapped : List.replicate late 0 ++ (field :: fields).flatMap Field.encode =
      field.encode ++ (List.replicate late 0 ++ fields.flatMap Field.encode) := by
    rw [flatMap_cons, quiet.encode_eq, ← append_assoc, ← append_assoc,
      replicate_append_replicate, replicate_append_replicate, Nat.add_comm]
  rw [swapped] at held
  obtain ⟨heldField, heldRest⟩ := CArray.Segment.append_iff.mp held
  rw [Field.encode_length] at heldRest
  refine ⟨_, getField_segment typed wanted heldField (by omega) bounded (by omega), wanted,
    heldRest, ?_, ?_, ?_⟩
  · simp only
    omega
  · simp only
    omega
  · simp only
    omega

theorem wordAt_late {msg : CArray UInt8 cap} {pos v : Nat}
    (held : msg.Segment pos (List.replicate late 0 ++ wordBytes v)) (early : 0 < late)
    (within : late < 4) (typed : v < 4294967296) (inside : pos + 4 ≤ cap) (other : v ≠ 0) :
    ∃ w, wordAt msg pos = .ok w ∧ w < 4294967296 ∧ w ≠ v := by
  have read : wordAt msg pos = .ok ((msg.cell pos).toNat + 256 * (msg.cell (pos + 1)).toNat +
      65536 * (msg.cell (pos + 2)).toNat + 16777216 * (msg.cell (pos + 3)).toNat) := by
    rw [wordAt, CArray.read_eq (by omega), ok_bind, CArray.read_eq (by omega), ok_bind,
      CArray.read_eq (by omega), ok_bind, CArray.read_eq (by omega), ok_bind,
      joined_bytes (UInt8.toNat_lt _) (UInt8.toNat_lt _) (UInt8.toNat_lt _)]
  have cells : ∀ index, index < 4 → msg.cell (pos + index) =
      (List.replicate late 0 ++ wordBytes v).getD index 0 := by
    intro index below
    have inList : index < (List.replicate late 0 ++ wordBytes v).length := by
      simp [wordBytes]
      omega
    rw [held index inList, getD_eq_getElem _ _ inList]
  have first := cells 0 (by decide)
  have second := cells 1 (by decide)
  have third := cells 2 (by decide)
  have fourth := cells 3 (by decide)
  simp only [Nat.add_zero] at first
  rw [first, second, third, fourth] at read
  refine ⟨_, read, ?_, ?_⟩
  · have low := UInt8.toNat_lt ((List.replicate late 0 ++ wordBytes v).getD 0 0)
    have b1 := UInt8.toNat_lt ((List.replicate late 0 ++ wordBytes v).getD 1 0)
    have b2 := UInt8.toNat_lt ((List.replicate late 0 ++ wordBytes v).getD 2 0)
    have b3 := UInt8.toNat_lt ((List.replicate late 0 ++ wordBytes v).getD 3 0)
    omega
  · have lates : late = 1 ∨ late = 2 ∨ late = 3 := by omega
    rcases lates with rfl | rfl | rfl
    · simp [wordBytes, byteOf_toNat]
      omega
    · simp [wordBytes, byteOf_toNat]
      omega
    · simp [wordBytes, byteOf_toNat]
      omega

theorem cpGetString_rc {dstCap : Nat} {r' : MsgReader cap} {dst dst' : CArray UInt8 dstCap}
    {wl : Nat} {rc : Int} (long : 4 ≤ r.left) (word : wordAt r.msg r.pos = .ok wl)
    (ran : cpGetString r dst = .ok (r', dst', rc)) : rc = 0 ∨ rc = -1 ∨ rc = wl := by
  rw [cpGetString, if_neg (by omega), word, ok_bind] at ran
  simp only at ran
  split at ran
  · left
    split at ran
    · obtain ⟨_, _, same⟩ := bind_ok ran
      cases same
      rfl
    · cases ran
      rfl
  · right
    split at ran
    · left
      cases ran
      rfl
    · split at ran
      · left
        cases ran
        rfl
      · right
        obtain ⟨_, _, stored⟩ := bind_ok ran
        obtain ⟨_, _, same⟩ := bind_ok stored
        cases same
        rfl

def Field.word : Field → Nat
  | .u32 v => v
  | .i32 v => (v % 4294967296).toNat
  | .string none => 0
  | .string (some s) => s.bytes.length + 1

theorem Field.encode_word (field : Field) : ∃ behind,
    field.encode = wordBytes field.word ++ behind := by
  match field with
  | .u32 _ => exact ⟨[], (append_nil _).symm⟩
  | .i32 _ => exact ⟨[], (append_nil _).symm⟩
  | .string none => exact ⟨[], (append_nil _).symm⟩
  | .string (some _) => exact ⟨_, rfl⟩

theorem Field.word_lt (typed : field.Typed) : field.word < 4294967296 := by
  match field, typed with
  | .u32 _, small => exact small
  | .i32 _, _ =>
    simp only [Field.word]
    omega
  | .string none, _ => decide
  | .string (some s), _ =>
    have addressable := s.addressable
    simp only [Field.word]
    omega

theorem Field.word_ne_zero (typed : field.Typed) (loud : ¬ field.Quiet) : field.word ≠ 0 := by
  match field, typed, loud with
  | .u32 _, _, loud => exact loud
  | .i32 v, ⟨low, high⟩, loud =>
    have loud : v ≠ 0 := loud
    simp only [Field.word]
    omega
  | .string none, _, loud => exact absurd rfl loud
  | .string (some s), _, _ => exact Nat.succ_ne_zero _

theorem Field.four_le_size (field : Field) : 4 ≤ field.size := by
  match field with
  | .u32 _ => exact Nat.le_refl 4
  | .i32 _ => exact Nat.le_refl 4
  | .string none => exact Nat.le_refl 4
  | .string (some _) => exact Nat.le_add_right 4 _

theorem Before.word_late (before : Before r late (field :: fields)) (early : 0 < late)
    (within : late < 4)
    (typed : field.Typed) (loud : ¬ field.Quiet) :
    4 ≤ r.left ∧ ∃ w, wordAt r.msg r.pos = .ok w ∧ w < 4294967296 ∧ w ≠ field.word := by
  obtain ⟨held, left, bounded, inside⟩ := before
  have long := field.four_le_size
  rw [fieldsSize_cons] at left inside
  obtain ⟨behind, isWord⟩ := field.encode_word
  rw [flatMap_cons, isWord, append_assoc, ← append_assoc] at held
  exact ⟨by omega, wordAt_late (CArray.Segment.append_iff.mp held).1 early within
    (Field.word_lt typed) (by omega) (Field.word_ne_zero typed loud)⟩

theorem Before.not_answers {r' : MsgReader cap} {got : Got}
    (before : Before r late (field :: fields))
    (early : 0 < late) (within : late < 4) (typed : field.Typed) (loud : ¬ field.Quiet)
    (ran : getField r want = .ok (r', got)) : ¬ Answers r field want got := by
  obtain ⟨left, w, word, small, different⟩ := before.word_late early within typed loud
  rintro (⟨wanted, same⟩ | truncates)
  · match field, want, wanted with
    | .u32 v, .u32, _ =>
      rw [getField, cpGetU32, if_neg (by omega), word] at ran
      simp only [ok_bind] at ran
      cases ran
      exact different (Got.u32.inj same)
    | .i32 v, .i32, _ =>
      obtain ⟨low, high⟩ := typed
      rw [getField, cpGetI32, cpGetU32, if_neg (by omega), word] at ran
      simp only [ok_bind] at ran
      cases ran
      have same : toInt32 w = v := Got.i32.inj same
      unfold toInt32 at same
      simp only [Field.word] at different
      split at same <;> omega
    | .string none, .string dst, _ => exact loud rfl
    | .string (some s), @Want.string dstCap dst, _ =>
      obtain ⟨⟨_, _, rc⟩, read, handed⟩ := bind_ok ran
      cases handed
      have code : rc = s.bytes.length + 1 := (Got.string.inj same).1
      simp only [Field.word] at different
      rcases cpGetString_rc left word read with zero | refused | length
      · omega
      · omega
      · omega
  · unfold Truncates at truncates
    split at truncates
    · exact different (Except.ok.inj (word.symm.trans truncates.2.1))
    · exact truncates

theorem Before.readsOn_late_iff (early : 0 < late) (within : late < 4)
    (typed : ∀ call ∈ calls, call.1.Typed)
    (asks : ∀ call ∈ calls, Asks call.1 call.2) (before : Before r late (calls.map Prod.fst)) :
    ReadsOn r calls ↔ ∀ call ∈ calls, call.1.Quiet := by
  induction calls generalizing r with
  | nil => simp [ReadsOn]
  | cons call calls ih =>
    obtain ⟨field, want⟩ := call
    obtain ⟨typedFirst, typedRest⟩ := forall_mem_cons.mp typed
    obtain ⟨asksFirst, asksRest⟩ := forall_mem_cons.mp asks
    rw [forall_mem_cons]
    constructor
    · rintro ⟨r', got, ran, answers, rest⟩
      have quiet : field.Quiet := by
        by_contra loud
        exact before.not_answers early within typedFirst loud ran answers
      obtain ⟨_, again, _, beforeRest⟩ := before.getField_quiet quiet asksFirst
      obtain ⟨rfl, _⟩ := Prod.mk.inj (Except.ok.inj (ran.symm.trans again))
      exact ⟨quiet, (ih typedRest asksRest beforeRest).mp rest⟩
    · rintro ⟨quiet, quietRest⟩
      obtain ⟨r', ran, wanted, beforeRest⟩ := before.getField_quiet quiet asksFirst
      exact ⟨r', _, ran, .inl ⟨wanted, rfl⟩, (ih typedRest asksRest beforeRest).mpr quietRest⟩

theorem ReadsOn.resynchronises (reads : ReadsOn r calls) : Resynchronises r calls := by
  induction calls generalizing r with
  | nil => trivial
  | cons call calls ih =>
    obtain ⟨r', got, ran, _, rest⟩ := reads
    exact ⟨r', got, ran, fun _ => rest, ih rest⟩

theorem recovers_of_quiet (quiet : ∀ call ∈ calls, call.1.Quiet) : Recovers calls := by
  induction calls with
  | nil => trivial
  | cons call calls ih =>
    obtain ⟨quietFirst, quietRest⟩ := forall_mem_cons.mp quiet
    exact ⟨fun _ => .inr quietRest, ih quietRest⟩

theorem padding_lt (field : Field) : field.padding < 4 := by
  match field with
  | .u32 _ => exact Nat.zero_lt_succ 3
  | .i32 _ => exact Nat.zero_lt_succ 3
  | .string none => exact Nat.zero_lt_succ 3
  | .string (some s) =>
    have padding := paddedLength_le s.bytes.length
    simp only [Field.padding]
    omega

theorem Before.readsOn (typed : ∀ call ∈ calls, call.1.Typed)
    (asks : ∀ call ∈ calls, Asks call.1 call.2) (recovers : Recovers calls)
    (before : Before r 0 (calls.map Prod.fst)) : ReadsOn r calls := by
  induction calls generalizing r with
  | nil => trivial
  | cons call calls ih =>
    obtain ⟨field, want⟩ := call
    obtain ⟨typedFirst, typedRest⟩ := forall_mem_cons.mp typed
    obtain ⟨asksFirst, asksRest⟩ := forall_mem_cons.mp asks
    obtain ⟨recoversFirst, recoversRest⟩ := recovers
    rcases matches_or_overlong asksFirst with wanted | overlong
    · obtain ⟨ran, beforeRest⟩ := before.getField_exact typedFirst wanted
      exact ⟨_, _, ran, .inl ⟨wanted, rfl⟩, ih typedRest asksRest recoversRest beforeRest⟩
    · obtain ⟨r', got, ran, truncates, beforeRest⟩ := before.getField_truncated overlong
      refine ⟨r', got, ran, .inr truncates, ?_⟩
      by_cases unpadded : field.padding = 0
      · rw [unpadded] at beforeRest
        exact ih typedRest asksRest recoversRest beforeRest
      · have quiet := (recoversFirst overlong).resolve_left unpadded
        exact (beforeRest.readsOn_late_iff (by omega) (padding_lt field) typedRest asksRest).mpr
          quiet

theorem Before.resynchronises_iff (typed : ∀ call ∈ calls, call.1.Typed)
    (asks : ∀ call ∈ calls, Asks call.1 call.2)
    (before : Before r 0 (calls.map Prod.fst)) :
    Resynchronises r calls ↔ Recovers calls := by
  refine ⟨fun resyncs => ?_, fun recovers => (before.readsOn typed asks recovers).resynchronises⟩
  induction calls generalizing r with
  | nil => trivial
  | cons call calls ih =>
    obtain ⟨field, want⟩ := call
    obtain ⟨typedFirst, typedRest⟩ := forall_mem_cons.mp typed
    obtain ⟨asksFirst, asksRest⟩ := forall_mem_cons.mp asks
    obtain ⟨r', got, ran, behind, resyncsRest⟩ := resyncs
    rcases matches_or_overlong asksFirst with wanted | overlong
    · obtain ⟨again, beforeRest⟩ := before.getField_exact typedFirst wanted
      obtain ⟨rfl, _⟩ := Prod.mk.inj (Except.ok.inj (ran.symm.trans again))
      exact ⟨fun overlong => absurd wanted (not_matches_of_overlong overlong),
        ih typedRest asksRest beforeRest resyncsRest⟩
    · obtain ⟨_, _, again, truncates, beforeRest⟩ := before.getField_truncated overlong
      obtain ⟨rfl, rfl⟩ := Prod.mk.inj (Except.ok.inj (ran.symm.trans again))
      by_cases unpadded : field.padding = 0
      · rw [unpadded] at beforeRest
        exact ⟨fun _ => .inl unpadded, ih typedRest asksRest beforeRest resyncsRest⟩
      · have quiet := (beforeRest.readsOn_late_iff (by omega) (padding_lt field) typedRest
          asksRest).mp (behind truncates)
        exact ⟨fun _ => .inr quiet, recovers_of_quiet quiet⟩

theorem finish_wellFormed {mem : CArray UInt8 cap} {obj op : Nat} (small : Small cap)
    (objTyped : obj < 4294967296) (opTyped : op < 65536)
    (typed : ∀ field ∈ fields, field.Typed) (fits : Fits cap fields)
    (short : cpMsgHdr + fieldsSize fields ≤ cpMsgMax) {m : Msgbuf cap}
    (put : putFields (cpMsgStart mem obj op) fields = .ok m) :
    ∃ m', cpMsgFinish m = .ok (m', ((cpMsgHdr + fieldsSize fields : Nat) : Int)) ∧
      WellFormed m'.b fields := by
  obtain ⟨m', finished, _, _, sized, held⟩ :=
    finish_holds small objTyped opTyped fits short put
  exact ⟨m', finished, typed, short, fits, sized, held⟩

theorem WellFormed.before {msg : CArray UInt8 cap} {unread : List Field}
    (formed : WellFormed msg (fields ++ unread)) :
    Before (cpReaderInit msg (cpMsgHdr + fieldsSize (fields ++ unread))) 0 fields := by
  obtain ⟨_, short, inside, _, held⟩ := formed
  have whole : fieldsSize (fields ++ unread) = fieldsSize fields + fieldsSize unread := by
    simp [fieldsSize]
  rw [flatMap_append] at held
  unfold cpMsgMax at short
  rw [cpReaderInit_eq (by omega)]
  refine ⟨?_, ?_, ?_, ?_⟩
  · simpa using (CArray.Segment.append_iff.mp held).1
  · simp only
    omega
  · simp only
    omega
  · simp only
    omega

/-- The calls stay in step exactly when a truncated string has no padding, or zero words follow. -/
theorem reader_resynchronises_iff {msg : CArray UInt8 cap} {calls : List (Field × Want)}
    {unread : List Field} (formed : WellFormed msg (calls.map Prod.fst ++ unread))
    (asks : ∀ call ∈ calls, Asks call.1 call.2) :
    Resynchronises (cpReaderInit msg (cpMsgHdr + fieldsSize (calls.map Prod.fst ++ unread)))
      calls ↔ Recovers calls := by
  refine formed.before.resynchronises_iff (fun call member => ?_) asks
  exact formed.typed _ (mem_append_left _ (mem_map_of_mem member))

/-- A buffer of two bytes for "hey" and one of one byte for "hi". -/
def shortCalls (last : Int) : List (Field × Want) :=
  [(.string (some ⟨[104, 101, 121], by decide⟩), .string (CArray.fill 0 : CArray UInt8 2)),
    (.u32 7, .u32),
    (.string (some ⟨[104, 105], by decide⟩), .string (CArray.fill 0 : CArray UInt8 1)),
    (.i32 last, .i32)]

theorem shortCalls_asks (last : Int) : ∀ call ∈ shortCalls last, Asks call.1 call.2 := by
  simp [shortCalls, Asks]

theorem shortCalls_message {last : Int} (low : -2147483648 ≤ last) (high : last < 2147483648) :
    ∃ m m' : Msgbuf 64,
      putFields (cpMsgStart (CArray.fill 0) 3 2) ((shortCalls last).map Prod.fst) = .ok m ∧
      cpMsgFinish m = .ok (m', 32) ∧ WellFormed m'.b ((shortCalls last).map Prod.fst ++ []) := by
  have size : fieldsSize ((shortCalls last).map Prod.fst) = 24 := rfl
  have typed : ∀ field ∈ (shortCalls last).map Prod.fst, field.Typed := by
    simp [shortCalls, Field.Typed, low, high]
  obtain ⟨b, put, _, _⟩ := putFields_fits (show Small 64 by unfold Small; decide)
    ((shortCalls last).map Prod.fst) (m := cpMsgStart (CArray.fill 0) 3 2)
    (show 8 + fieldsSize ((shortCalls last).map Prod.fst) ≤ 64 by rw [size]; decide)
  obtain ⟨m', finished, formed⟩ := finish_wellFormed (show Small 64 by unfold Small; decide)
    (by decide) (by decide) typed (show 8 + fieldsSize ((shortCalls last).map Prod.fst) ≤ 64 by
      rw [size]; decide) (show 8 + fieldsSize ((shortCalls last).map Prod.fst) ≤ 4088 by
      rw [size]; decide) put
  refine ⟨_, m', put, finished, ?_⟩
  rwa [append_nil]

/-- Two strings too long for their buffers, and a number behind them that happens to be 0. -/
theorem reader_resynchronises_zero : ∃ m m' : Msgbuf 64,
    putFields (cpMsgStart (CArray.fill 0) 3 2) ((shortCalls 0).map Prod.fst) = .ok m ∧
      cpMsgFinish m = .ok (m', 32) ∧
      Resynchronises (cpReaderInit m'.b 32) (shortCalls 0) := by
  obtain ⟨m, m', put, finished, formed⟩ :=
    shortCalls_message (by decide) (show (0 : Int) < _ by decide)
  refine ⟨m, m', put, finished, (reader_resynchronises_iff formed (shortCalls_asks 0)).mpr ?_⟩
  refine ⟨fun _ => .inl rfl, nofun, fun _ => .inr ?_, nofun, trivial⟩
  intro call member
  obtain rfl := mem_singleton.mp member
  rfl

/-- The number behind "hi" is 5, and `cp_get_i32` makes 1280 of it. -/
theorem truncated_string_shifts_reader : ∃ m m' : Msgbuf 64,
    putFields (cpMsgStart (CArray.fill 0) 3 2) ((shortCalls 5).map Prod.fst) = .ok m ∧
      cpMsgFinish m = .ok (m', 32) ∧ WellFormed m'.b ((shortCalls 5).map Prod.fst ++ []) ∧
      ¬ Resynchronises (cpReaderInit m'.b 32) (shortCalls 5) := by
  obtain ⟨m, m', put, finished, formed⟩ :=
    shortCalls_message (by decide) (show (5 : Int) < _ by decide)
  refine ⟨m, m', put, finished, formed, fun resyncs => ?_⟩
  have typed : ∀ call ∈ shortCalls 5, call.1.Typed := fun call member =>
    formed.typed _ (mem_append_left _ (mem_map_of_mem member))
  obtain ⟨_, _, behindHi, _⟩ :=
    (formed.before.resynchronises_iff typed (shortCalls_asks 5)).mp resyncs
  rcases behindHi (show 1 < 2 + 1 by decide) with unpadded | quiet
  · exact absurd unpadded (by decide)
  · exact absurd (quiet _ (mem_singleton.mpr rfl)) (show (5 : Int) ≠ 0 by decide)

end M4KK1.Copland
