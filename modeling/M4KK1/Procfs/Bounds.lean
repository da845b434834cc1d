import M4KK1.Procfs.Files

/-!
# The local buffers of procfs

Where the texts stay inside their buffers.
-/

namespace M4KK1.Procfs

open Lib Lib.CArray Yafs Kernel List

variable (tags : UInt64)

/-- The names of the tags that are set, in the order of the table. -/
def tagNames : List CString :=
  (stateTagNames.filter fun entry => tags &&& entry.1 ≠ 0).map Prod.snd

/-- The length of names with `", "` between them. -/
def joinedLength (names : List CString) : Nat := (List.intercalate (cstr ", ") names).length

/-- No name follows a text of 126 bytes or more, unless a comma makes the loop stop. -/
def TagsFit (names : List CString) : Prop :=
  ∀ front last, names = front ++ [last] →
    joinedLength front < 126 ∨ ∃ shorter, shorter <+: front ∧ joinedLength shorter = 125

def nameLoop : List CString → Bool → List UInt8 → Except Fault (Bool × List UInt8)
  | [], first, buf => .ok (first, buf)
  | name :: names, first, buf =>
    if first = true then do
      let buf ← putUpTo 128 126 buf name
      nameLoop names false buf
    else do
      let buf ← put 128 buf 44
      if buf.length ≥ 126 then .ok (first, buf)
      else
        let buf ← put 128 buf 32
        let buf ← putUpTo 128 126 buf name
        nameLoop names false buf

theorem tagLoop_eq (map : List (UInt64 × CString)) : ∀ first buf, tagLoop tags map first buf =
      nameLoop ((map.filter fun entry => tags &&& entry.1 ≠ 0).map Prod.snd) first buf := by
  induction map with
  | nil => exact fun _ _ => rfl
  | cons entry map ih =>
    obtain ⟨bit, name⟩ := entry
    intro first buf
    by_cases set : tags &&& bit ≠ 0
    · simp only [tagLoop, if_pos set, filter_cons, decide_eq_true set, if_true, map_cons, nameLoop,
        ih]
    · simp only [tagLoop, if_neg set, filter_cons, decide_eq_false set, ih, Bool.false_eq_true,
        if_false]

/-- The end of `format_state_tags`. -/
def closeTags (first : Bool) (buf : List UInt8) : Except Fault CString := do
  let buf ← if first = true then putAll 128 buf (cstr "NONE") else .ok buf
  let buf ← put 128 buf 93
  let _ ← put 128 buf 0
  .ok buf

theorem formatStateTags_eq : formatStateTags tags =
    nameLoop (tagNames tags) true [] >>= fun end_ => closeTags end_.1 end_.2 := by
  rw [formatStateTags, tagLoop_eq]
  rfl

theorem closeTags_ok {buf : List UInt8} : (∃ text, closeTags false buf = .ok text) ↔
    buf.length ≤ 126 := by
  simp only [closeTags, Bool.false_eq_true, if_false, ok_bind]
  constructor
  · rintro ⟨text, closed⟩
    obtain ⟨bracketed, first, closed⟩ := bind_ok closed
    obtain ⟨_, second, -⟩ := bind_ok closed
    by_contra past
    by_cases room : buf.length < 128
    · rw [put_eq room] at first
      cases first
      rw [put_full (by rw [length_append, length_singleton]; omega)] at second
      cases second
    · rw [put_full (by omega)] at first
      cases first
  · intro fits
    refine ⟨buf ++ [93], ?_⟩
    rw [put_eq (by omega), ok_bind, put_eq (by rw [length_append, length_singleton]; omega)]
    rfl

/-- What a loop needs of the names behind; `length` is that of the uncut text. -/
def Follows (length : Nat) (names : List CString) : Prop :=
  ∀ front last, names = front ++ [last] →
    length + (front.map fun name => name.length + 2).sum < 126 ∨
      ∃ shorter, shorter <+: front ∧ length + (shorter.map fun name => name.length + 2).sum = 125

theorem follows_nil (length : Nat) : Follows length [] := by
  intro front last split
  cases front <;> cases split

theorem follows_stopped (names : List CString) : Follows 125 names := by
  intro front last _
  exact .inr ⟨[], nil_prefix, rfl⟩

theorem not_follows_full {length : Nat} (full : 126 ≤ length) (name : CString)
    (names : List CString) : ¬ Follows length (name :: names) := by
  intro follows
  have split := (dropLast_concat_getLast (cons_ne_nil name names)).symm
  rcases follows _ _ split with short | ⟨shorter, -, exact_⟩
  · omega
  · omega

theorem follows_cons {length : Nat} (short : length < 125) (name : CString) (names : List CString) :
    Follows length (name :: names) ↔ Follows (length + 2 + name.length) names := by
  constructor
  · intro follows front last split
    rcases follows (name :: front) last (congrArg (name :: ·) split) with fits | ⟨shorter, part,
      exact_⟩
    · left
      rw [map_cons, sum_cons] at fits
      omega
    · right
      cases shorter with
      | nil =>
        rw [map_nil, sum_nil] at exact_
        omega
      | cons first shorter =>
        obtain ⟨rfl, within⟩ := cons_prefix_cons.mp part
        refine ⟨shorter, within, ?_⟩
        rw [map_cons, sum_cons] at exact_
        omega
  · intro follows front last split
    cases front with
    | nil =>
      left
      rw [map_nil, sum_nil]
      omega
    | cons first front =>
      obtain ⟨rfl, rest⟩ := List.cons.inj split
      rcases follows front last rest with fits | ⟨shorter, part, exact_⟩
      · left
        rw [map_cons, sum_cons]
        omega
      · right
        refine ⟨name :: shorter, cons_prefix_cons.mpr ⟨rfl, part⟩, ?_⟩
        rw [map_cons, sum_cons]
        omega

theorem nameLoop_ok (names : List CString) : ∀ (buf : List UInt8) (length : Nat),
    buf.length = min 126 length →
    ((∃ text, (nameLoop names false buf >>= fun end_ => closeTags end_.1 end_.2) = .ok text) ↔
      Follows length names) := by
  induction names with
  | nil =>
    intro buf length cut
    rw [nameLoop, ok_bind]
    dsimp only
    rw [closeTags_ok]
    exact ⟨fun _ => follows_nil length, fun _ => by omega⟩
  | cons name names ih =>
    intro buf length cut
    have comma : (buf ++ [44]).length = buf.length + 1 := length_append
    rw [nameLoop, if_neg (by decide), put_eq (by omega), ok_bind]
    rcases Nat.lt_trichotomy length 125 with short | stopped | full
    · have spaced : (buf ++ [44] ++ [32]).length = length + 2 := by
        rw [length_append, comma, length_singleton]
        omega
      rw [if_neg (by omega), put_eq (by omega), ok_bind, putUpTo_eq (by decide), ok_bind, ih _
        (length + 2 + name.length) ?_, follows_cons short]
      rw [length_upTo, spaced]
      omega
    · subst stopped
      rw [if_pos (by omega), ok_bind]
      dsimp only
      rw [closeTags_ok]
      exact ⟨fun _ => follows_stopped _, fun _ => by omega⟩
    · rw [if_pos (by omega), ok_bind]
      dsimp only
      rw [closeTags_ok]
      refine ⟨fun fits => ?_, fun follows => absurd follows (not_follows_full full name names)⟩
      omega

theorem joinedLength_cons (name : CString) (names : List CString) :
    joinedLength (name :: names) = name.length + (names.map fun name => name.length + 2).sum := by
  induction names generalizing name with
  | nil => simp [joinedLength, List.intercalate]
  | cons next names ih =>
    have step : joinedLength (name :: next :: names) =
        name.length + (2 + joinedLength (next :: names)) := by
      simp only [joinedLength, List.intercalate, intersperse_cons_cons, flatten_cons, length_append]
      rfl
    rw [step, ih, map_cons, sum_cons]
    omega

theorem tagsFit_cons (name : CString) (names : List CString) :
    TagsFit (name :: names) ↔ Follows name.length names := by
  constructor
  · intro fit front last split
    rcases fit (name :: front) last (congrArg (name :: ·) split) with short | ⟨shorter, part,
      exact_⟩
    · exact .inl (joinedLength_cons .. ▸ short)
    · right
      cases shorter with
      | nil => cases exact_
      | cons first shorter =>
        obtain ⟨rfl, within⟩ := cons_prefix_cons.mp part
        exact ⟨shorter, within, joinedLength_cons .. ▸ exact_⟩
  · intro follows front last split
    cases front with
    | nil => exact .inl (by decide)
    | cons first front =>
      obtain ⟨rfl, rest⟩ := List.cons.inj split
      rcases follows front last rest with short | ⟨shorter, part, exact_⟩
      · exact .inl (joinedLength_cons .. ▸ short)
      · exact .inr ⟨name :: shorter, cons_prefix_cons.mpr ⟨rfl, part⟩,
          joinedLength_cons .. ▸ exact_⟩

theorem formatStateTags_ok : (∃ text, formatStateTags tags = .ok text) ↔
    TagsFit (tagNames tags) := by
  rw [formatStateTags_eq]
  cases tagNames tags with
  | nil =>
    have none_ : TagsFit [] := by
      intro front last split
      cases front <;> cases split
    exact ⟨fun _ => none_, fun _ => ⟨_, rfl⟩⟩
  | cons name names =>
    rw [nameLoop, if_pos rfl, putUpTo_eq (by decide), ok_bind, nameLoop_ok _ _ name.length,
      tagsFit_cons]
    rw [length_upTo, length_nil]
    omega

theorem revLoop_ok (width : Nat) : ∀ (rounds n : Nat) (rev : List UInt8), n < 10 ^ width →
    rev.length + width ≤ 16 →
    ∃ rev', revLoop rounds n rev = .ok rev' ∧ rev'.length ≤ rev.length + width := by
  induction width with
  | zero =>
    intro rounds n rev small _
    have zero : ¬ n > 0 := by omega
    cases rounds with
    | zero => exact ⟨rev, rfl, Nat.le_add_right ..⟩
    | succ rounds => exact ⟨rev, if_neg zero, Nat.le_add_right ..⟩
  | succ width ih =>
    intro rounds n rev small room
    cases rounds with
    | zero => exact ⟨rev, rfl, Nat.le_add_right ..⟩
    | succ rounds =>
      rw [revLoop]
      split
      · have longer : (rev ++ [UInt8.ofNat (48 + n % 10)]).length = rev.length + 1 :=
          length_append
        rw [put_eq (by omega), ok_bind]
        obtain ⟨rev', ended, short⟩ := ih rounds (n / 10) (rev ++ [UInt8.ofNat (48 + n % 10)])
          (by rw [Nat.pow_succ] at small; omega) (by omega)
        exact ⟨rev', ended, by omega⟩
      · exact ⟨rev, rfl, Nat.le_add_right ..⟩

theorem digits_ok (n : UInt32) : ∃ nbuf, digits n = .ok nbuf ∧ nbuf.length ≤ 10 := by
  have small := n.toNat_lt
  unfold digits
  split
  · exact ⟨[48], rfl, by decide⟩
  · obtain ⟨rev, ended, short⟩ := revLoop_ok 10 n.toNat n.toNat [] (by omega) (by decide)
    rw [length_nil, Nat.zero_add] at short
    refine ⟨[] ++ rev.reverse, ?_, ?_⟩
    · rw [ended, ok_bind, putAll_eq _ (by rw [length_nil, length_reverse]; omega)]
    · rwa [nil_append, length_reverse]

theorem fillPids_ok (procs : List Process) : ∀ (pids : CArray UInt32 128) (n : Nat), n ≤ 128 →
    ∃ pids' n', fillPids pids n procs = .ok (pids', n') ∧ n' ≤ 128 := by
  induction procs with
  | nil => exact fun pids n le => ⟨pids, n, rfl, le⟩
  | cons p procs ih =>
    intro pids n le
    rw [fillPids]
    split
    · next room =>
      rw [write_eq room, ok_bind]
      exact ih _ (n + 1) room
    · exact ⟨pids, n, rfl, le⟩

theorem getPids_ok (procs : Processes) (pids : CArray UInt32 128) :
    ∃ pids' np, getPids procs pids = .ok (pids', np) ∧ np ≤ 128 := by
  obtain ⟨pids', n, filled, le⟩ := fillPids_ok procs.all pids 0 (by decide)
  rw [getPids, filled, ok_bind]
  cases procs.current with
  | none => exact ⟨pids', n, rfl, le⟩
  | some current =>
    dsimp only
    split
    · next absent =>
      rw [write_eq absent.1]
      exact ⟨_, n + 1, rfl, absent.1⟩
    · exact ⟨pids', n, rfl, le⟩

theorem insertKey_ok (key : UInt32) (j : Nat) : ∀ pids : CArray UInt32 128, j < 128 →
    ∃ pids', insertKey key j pids = .ok pids' := by
  induction j with
  | zero => exact fun pids inside => ⟨_, write_eq inside⟩
  | succ j ih =>
    intro pids inside
    rw [insertKey, read_eq (by omega), ok_bind]
    split
    · rw [write_eq inside, ok_bind]
      exact ih _ (by omega)
    · exact ⟨_, write_eq inside⟩

theorem sortPids_ok (count : Nat) : ∀ (i : Nat) (pids : CArray UInt32 128), i + count ≤ 128 →
    ∃ pids', sortPids count i pids = .ok pids' := by
  induction count with
  | zero => exact fun _ pids _ => ⟨pids, rfl⟩
  | succ count ih =>
    intro i pids inside
    rw [sortPids, read_eq (by omega), ok_bind]
    obtain ⟨pids', inserted⟩ := insertKey_ok (pids.cell i) i pids (by omega)
    rw [inserted, ok_bind]
    exact ih _ _ (by omega)

variable (limit : Int)

theorem listLoop_ok (pids : CArray UInt32 128) (count : Nat) :
    ∀ (i : Nat) (tmp : List UInt8), i + count ≤ 128 → tmp.length ≤ 511 →
    ∃ tmp', listLoop limit pids count i tmp = .ok tmp' ∧ tmp'.length ≤ 511 := by
  induction count with
  | zero => exact fun _ tmp _ short => ⟨tmp, rfl, short⟩
  | succ count ih =>
    intro i tmp inside short
    rw [listLoop]
    split
    · next going =>
      obtain ⟨nbuf, printed, width⟩ := digits_ok (pids.cell i)
      have length := length_upTo 511 tmp nbuf
      rw [read_eq (by omega), ok_bind, printed, ok_bind, putUpTo_eq (by decide), ok_bind,
        put_eq (by omega), ok_bind]
      refine ih _ _ (by omega) ?_
      rw [length_append, length, length_singleton]
      omega
    · exact ⟨tmp, rfl, short⟩

theorem newline_ok {tmp : List UInt8} :
    ∃ tmp', (if tmp.length = 0 then put 512 tmp 10 else .ok tmp) = .ok tmp' := by
  split
  · next empty => exact ⟨_, put_eq (by omega)⟩
  · exact ⟨tmp, rfl⟩

theorem listingText_ok (procs : Processes) (stack : CArray UInt32 128) (count : UInt32) :
    ∃ tmp, listingText procs stack count = .ok tmp := by
  obtain ⟨pids, np, got, le⟩ := getPids_ok procs stack
  rw [listingText, got, ok_bind]
  cases np with
  | zero => exact ⟨[10], rfl⟩
  | succ np =>
    obtain ⟨sorted, ended⟩ := sortPids_ok np 1 pids (by omega)
    obtain ⟨tmp, listed, -⟩ :=
      listLoop_ok (signed32 (signed32 count.toNat - 12)) sorted (np + 1) 0 []
      (by omega) (by decide)
    dsimp only
    rw [Nat.add_sub_cancel, ended, ok_bind, listed, ok_bind]
    exact newline_ok

variable (proc : Process)

theorem cwdText_ok : ∃ tmp, cwdText proc = .ok tmp := by
  have length := length_upTo 508 [] proc.cwd
  rw [length_nil] at length
  rw [cwdText, putUpTo_eq (by decide), ok_bind]
  exact ⟨_, put_eq (by rw [length_nil]; omega)⟩

theorem wordLoop_ok (words : List CString) : ∀ tmp : List UInt8, tmp.length ≤ 509 →
    ∃ tmp', wordLoop words tmp = .ok tmp' := by
  induction words with
  | nil => exact fun tmp _ => ⟨tmp, rfl⟩
  | cons word words ih =>
    intro tmp short
    rw [wordLoop]
    split
    · next below =>
      have length := length_upTo 508 tmp word
      rw [putUpTo_eq (by decide), ok_bind, put_eq (by omega), ok_bind]
      apply ih
      rw [length_append, length_singleton]
      omega
    · exact ⟨tmp, rfl⟩

/-- The length behind a mount that is started at `length`. -/
def mountEnd (limit length : Nat) (e : NsEntry) : Nat :=
  length + min e.mntPath.text.length (limit - length) + 4 +
    min e.targetPath.text.length
      (500 - (length + min e.mntPath.text.length (limit - length) + 4)) + 1

theorem addMount_ok (limit : Nat) (inside : limit ≤ 500) (e : NsEntry) (tmp : List UInt8)
    (short : tmp.length < 508) :
    ∃ tmp', addMount limit e tmp = .ok tmp' ∧ tmp'.length = mountEnd limit tmp.length e := by
  have path := length_upTo limit tmp e.mntPath.text
  have arrow : (cstr " -> ").length = 4 := by decide
  rw [addMount, putUpTo_eq (by omega), ok_bind]
  generalize tmp ++ e.mntPath.text.take (limit - tmp.length) = first at path
  have line : (first ++ cstr " -> ").length = first.length + 4 := by rw [length_append, arrow]
  rw [putAll_eq _ (by omega), ok_bind, putUpTo_eq (by decide), ok_bind]
  have both := length_upTo 500 (first ++ cstr " -> ") e.targetPath.text
  refine ⟨_, put_eq (by omega), ?_⟩
  rw [length_append, both, length_singleton, line, path, mountEnd]

theorem addMount_full (e : NsEntry) {tmp : List UInt8} (full : 508 ≤ tmp.length)
    (inside : tmp.length ≤ 512) : addMount 500 e tmp = .error .outOfBounds := by
  have arrow : (cstr " -> ").length = 4 := by decide
  have cut : 500 - tmp.length = 0 := by omega
  rw [addMount, putUpTo_eq (by decide), cut, take_zero, append_nil, ok_bind]
  by_cases last : tmp.length = 508
  · have whole : (tmp ++ cstr " -> ").length = 512 := by rw [length_append, arrow, last]
    rw [putAll_eq _ (by omega), ok_bind, putUpTo_eq (by decide), whole, take_zero,
      append_nil, ok_bind, put_full (by omega)]
  · rw [putAll_full _ inside (by omega), error_bind]

/-- No mount is started at 508 bytes or behind. -/
def MountsFit (length : Nat) (entries : List NsEntry) : Prop :=
  ∀ front e rest, entries = front ++ e :: rest →
    front.foldl (mountEnd 500) length < 508 ∨ limit ≤ (front.foldl (mountEnd 500) length : Nat)

theorem le_mountsEnd (front : List NsEntry) : ∀ length : Nat,
    length ≤ front.foldl (mountEnd 500) length := by
  induction front with
  | nil => exact fun length => le_rfl
  | cons e front ih =>
    intro length
    have step : length ≤ mountEnd 500 length e := by
      unfold mountEnd
      omega
    exact step.trans (ih _)

theorem mountsFit_cons {limit : Int} {length : Nat} (below : length < limit) (e : NsEntry)
    (entries : List NsEntry) : MountsFit limit length (e :: entries) ↔
      length < 508 ∧ MountsFit limit (mountEnd 500 length e) entries := by
  constructor
  · intro fit
    refine ⟨?_, fun front next rest split => fit (e :: front) next rest (congrArg (e :: ·) split)⟩
    rcases fit [] e entries rfl with short | past
    · exact short
    · rw [foldl_nil] at past
      omega
  · rintro ⟨short, fit⟩ front next rest split
    cases front with
    | nil => exact .inl short
    | cons first front =>
      obtain ⟨rfl, behind⟩ := List.cons.inj split
      exact fit front next rest behind

theorem nsLoop_ok (entries : List NsEntry) : ∀ tmp : List UInt8, tmp.length ≤ 512 →
    ((∃ tmp', nsLoop limit entries tmp = .ok tmp') ↔ MountsFit limit tmp.length entries) := by
  induction entries with
  | nil =>
    intro tmp _
    refine ⟨fun _ front e rest split => ?_, fun _ => ⟨tmp, rfl⟩⟩
    cases front <;> cases split
  | cons e entries ih =>
    intro tmp inside
    rw [nsLoop]
    split
    · next below =>
      rw [mountsFit_cons below]
      by_cases short : tmp.length < 508
      · obtain ⟨tmp', added, length⟩ := addMount_ok 500 le_rfl e tmp short
        have still : tmp'.length ≤ 512 := by
          rw [length, mountEnd]
          omega
        rw [added, ok_bind, ih tmp' still, length]
        exact ⟨fun fit => ⟨short, fit⟩, fun fit => fit.2⟩
      · rw [addMount_full e (by omega) inside, error_bind]
        exact ⟨fun ⟨_, failed⟩ => (nomatch failed), fun fit => absurd fit.1 short⟩
    · next past =>
      refine ⟨fun _ front next rest _ => .inr ?_, fun _ => ⟨tmp, rfl⟩⟩
      have grows := le_mountsEnd front tmp.length
      omega

theorem nsText_ok (nsIndex : Int) (count : UInt32) : (∃ tmp, nsText proc nsIndex count = .ok tmp) ↔
      (0 ≤ nsIndex ∧ nsIndex < proc.ns.entries.length) ∨
        MountsFit (signed32 (signed32 count.toNat - 50)) 0 proc.ns.entries := by
  rw [nsText]
  split
  · next chosen =>
    have inside : nsIndex.toNat < proc.ns.entries.length := by omega
    rw [getElem?_eq_getElem inside]
    obtain ⟨tmp, added, -⟩ := addMount_ok 100 (by decide) proc.ns.entries[nsIndex.toNat] []
      (by decide)
    exact ⟨fun _ => .inl chosen, fun _ => ⟨tmp, added⟩⟩
  · next other =>
    have fits := nsLoop_ok (signed32 (signed32 count.toNat - 50)) proc.ns.entries [] (by decide)
    rw [length_nil] at fits
    rw [or_iff_right other, ← fits]
    constructor
    · rintro ⟨tmp, ran⟩
      obtain ⟨listed, looped, -⟩ := bind_ok ran
      exact ⟨listed, looped⟩
    · rintro ⟨tmp, looped⟩
      rw [looped, ok_bind]
      exact newline_ok

theorem addNumber_ok (label : CString) (v : UInt32) (tmp : List UInt8)
    (room : tmp.length + label.length + 11 ≤ 512) :
    ∃ tmp', addNumber label v tmp = .ok tmp' ∧ tmp'.length ≤ tmp.length + label.length + 11 := by
  obtain ⟨nbuf, printed, width⟩ := digits_ok v
  rw [addNumber, putAll_eq _ (by omega), ok_bind, printed, ok_bind,
    putAll_eq _ (by rw [length_append]; omega), ok_bind]
  refine ⟨_, put_eq (by simp only [length_append]; omega), ?_⟩
  simp only [length_append, length_singleton]
  omega

theorem addString_ok (label s : CString) (tmp : List UInt8)
    (room : tmp.length + label.length + 61 ≤ 512) :
    ∃ tmp', addString label s tmp = .ok tmp' ∧ tmp'.length ≤ tmp.length + label.length + 61 := by
  have cut : (s.take 60).length ≤ 60 := length_take_le ..
  rw [addString, putAll_eq _ (by omega), ok_bind, putAll_eq _ (by rw [length_append]; omega),
    ok_bind]
  refine ⟨_, put_eq (by simp only [length_append]; omega), ?_⟩
  simp only [length_append, length_singleton]
  omega

theorem statusText_ok : (∃ tmp, statusText proc = .ok tmp) ↔ TagsFit (tagNames proc.stateTags) := by
  rw [← formatStateTags_ok]
  constructor
  · rintro ⟨tmp, ran⟩
    obtain ⟨text, formatted, -⟩ := bind_ok ran
    exact ⟨text, formatted⟩
  · rintro ⟨text, formatted⟩
    have labels : (cstr "PID: ").length = 5 ∧ (cstr "PPID: ").length = 6 ∧
        (cstr "UID: ").length = 5 ∧ (cstr "GID: ").length = 5 ∧ (cstr "EUID: ").length = 6 ∧
        (cstr "EGID: ").length = 6 ∧ (cstr "State: ").length = 7 ∧ (cstr "CMD: ").length = 5 := by
      decide
    obtain ⟨pidLabel, ppidLabel, uidLabel, gidLabel, euidLabel, egidLabel, stateLabel, cmdLabel⟩ :=
      labels
    have empty : ([] : List UInt8).length = 0 := rfl
    obtain ⟨tmp1, pid, le1⟩ := addNumber_ok (cstr "PID: ") proc.pid [] (by omega)
    obtain ⟨tmp2, ppid, le2⟩ := addNumber_ok (cstr "PPID: ") proc.ppid tmp1 (by omega)
    obtain ⟨tmp3, uid, le3⟩ := addNumber_ok (cstr "UID: ") proc.uid tmp2 (by omega)
    obtain ⟨tmp4, gid, le4⟩ := addNumber_ok (cstr "GID: ") proc.gid tmp3 (by omega)
    obtain ⟨tmp5, euid, le5⟩ := addNumber_ok (cstr "EUID: ") proc.euid tmp4 (by omega)
    obtain ⟨tmp6, egid, le6⟩ := addNumber_ok (cstr "EGID: ") proc.egid tmp5 (by omega)
    obtain ⟨tmp7, state, le7⟩ := addString_ok (cstr "State: ") text tmp6 (by omega)
    obtain ⟨tmp8, cmd, -⟩ := addString_ok (cstr "CMD: ") proc.name tmp7 (by omega)
    refine ⟨tmp8, ?_⟩
    rw [statusText, formatted, ok_bind, pid, ok_bind, ppid, ok_bind, uid, ok_bind, gid, ok_bind,
      euid, ok_bind, egid, ok_bind, state, ok_bind, cmd]

/-- What a read of a process file needs to stay inside its buffers. -/
def TextFits (count : UInt32) : FileType → Int → Prop
  | .status, _ => TagsFit (tagNames proc.stateTags)
  | .ns, nsIndex => (0 ≤ nsIndex ∧ nsIndex < proc.ns.entries.length) ∨
      MountsFit (signed32 (signed32 count.toNat - 50)) 0 proc.ns.entries
  | _, _ => True

/-- The file is read from behind its start, or its text fits the buffer. -/
def ReadFits (st : State) (procs : Processes) (fd : Nat) (count : UInt32) : Prop :=
  ∀ k proc, st.findByFd fd = some k → (st.files k).readOffset ≤ 0 →
    procs.find (st.files k).pid = some proc →
    TextFits proc count (st.files k).fileType (st.files k).nsIndex

theorem fileText_ok {fileType : FileType} (nsIndex : Int) (count : UInt32)
    (noListing : fileType ≠ .listing) (noCtl : fileType ≠ .ctl) :
    (∃ tmp, fileText proc fileType nsIndex count = .ok tmp) ↔
    TextFits proc count fileType nsIndex := by
  cases fileType with
  | listing => exact absurd rfl noListing
  | ctl => exact absurd rfl noCtl
  | status => exact statusText_ok proc
  | cmdline => exact ⟨fun _ => trivial, fun _ => wordLoop_ok _ [] (by decide)⟩
  | environ => exact ⟨fun _ => trivial, fun _ => wordLoop_ok _ [] (by decide)⟩
  | cwd => exact ⟨fun _ => trivial, fun _ => cwdText_ok proc⟩
  | ns => exact nsText_ok proc nsIndex count

theorem readFits_iff {st : State} {procs : Processes} {fd : Nat} {k : Fin 64} {proc : Process}
    (count : UInt32) (found : st.findByFd fd = some k) (fresh : (st.files k).readOffset ≤ 0)
    (live : procs.find (st.files k).pid = some proc) :
    ReadFits st procs fd count ↔
    TextFits proc count (st.files k).fileType (st.files k).nsIndex := by
  constructor
  · exact fun fits => fits k proc found fresh live
  · intro fits other p alsoFound _ alsoLive
    obtain rfl := Option.some.inj (found.symm.trans alsoFound)
    obtain rfl := Option.some.inj (live.symm.trans alsoLive)
    exact fits

theorem procfsRead_ok (st : State) (procs : Processes) (stack : CArray UInt32 128) (fd : Nat)
    (count : UInt32) :
    (∃ result, procfsRead st procs stack fd count = .ok result) ↔ ReadFits st procs fd count := by
  cases found : st.findByFd fd with
  | none =>
    simp only [procfsRead, ReadFits, found]
    exact ⟨fun _ _ _ nothing => (nomatch nothing), fun _ => ⟨_, rfl⟩⟩
  | some k =>
    by_cases read : (st.files k).readOffset > 0
    · simp only [procfsRead, ReadFits, found, if_pos read]
      refine ⟨fun _ other _ same fresh => ?_, fun _ => ⟨_, rfl⟩⟩
      cases same
      omega
    · have fresh : (st.files k).readOffset ≤ 0 := by omega
      by_cases listing : (st.files k).fileType = .listing
      · obtain ⟨tmp, listed⟩ := listingText_ok procs stack count
        simp only [procfsRead, ReadFits, found, if_neg read, if_pos listing, listed, ok_bind]
        refine ⟨fun _ other _ same _ _ => ?_, fun _ => ⟨_, rfl⟩⟩
        cases same
        rw [listing]
        trivial
      · cases live : procs.find (st.files k).pid with
        | none =>
          simp only [procfsRead, ReadFits, found, if_neg read, if_neg listing, live]
          refine ⟨fun _ other _ same _ alsoLive => ?_, fun _ => ⟨_, rfl⟩⟩
          cases same
          rw [live] at alsoLive
          cases alsoLive
        | some proc =>
          rw [readFits_iff count found fresh live]
          simp only [procfsRead, found, if_neg read, if_neg listing, live]
          by_cases ctl : (st.files k).fileType = .ctl
          · rw [if_pos ctl, ctl]
            exact ⟨fun _ => trivial, fun _ => ⟨_, rfl⟩⟩
          · rw [if_neg ctl, ← fileText_ok proc _ count listing ctl]
            constructor
            · rintro ⟨result, ran⟩
              obtain ⟨tmp, text, -⟩ := bind_ok ran
              exact ⟨tmp, text⟩
            · rintro ⟨tmp, text⟩
              rw [text, ok_bind]
              exact ⟨_, rfl⟩

/-- Every byte written lies inside its buffer exactly when names and mounts fit. -/
theorem procfs_in_bounds_iff (tags : UInt64) (st : State) (procs : Processes)
    (stack : CArray UInt32 128) (fd : Nat) (count : UInt32) :
    ((∃ text, formatStateTags tags = .ok text) ↔ TagsFit (tagNames tags)) ∧
      ((∃ result, procfsRead st procs stack fd count = .ok result) ↔
        ReadFits st procs fd count) :=
  ⟨formatStateTags_ok tags, procfsRead_ok st procs stack fd count⟩

/-- A running process with every tag that `mkrn_procfs_write` knows a name for. -/
def tagged : Process :=
  ⟨2, 1, 0, 0, 0, 0, 0x37F07, cstr "sh", cstr "/", none, none, nsInit⟩

/-- Its tags are written out of bounds when its status is read. -/
theorem not_procfs_in_bounds :
    ¬ ∀ st procs stack fd count, ∃ result, procfsRead st procs stack fd count = .ok result := by
  intro all
  obtain ⟨result, ran⟩ := all (procfsOpen procfsInit ⟨[tagged], none⟩ (cstr "/sys/proc/2")).1
    ⟨[tagged], none⟩ (.fill 0) 1000 512
  have failed : (procfsRead (procfsOpen procfsInit ⟨[tagged], none⟩ (cstr "/sys/proc/2")).1
      ⟨[tagged], none⟩ (.fill 0) 1000 512).isOk = false := by decide +kernel
  rw [ran] at failed
  cases failed

end M4KK1.Procfs
