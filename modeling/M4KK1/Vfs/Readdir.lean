import M4KK1.Vfs.Boot
import M4KK1.Yafs.WalkRange

/-!
# Listing a directory

`mkrn_yafs_readdir` walks the keys of a directory and looks up inodes in the same tree.
-/

namespace M4KK1.Vfs

open Lib Yafs Function

structure Dirent where
  inode : Nat
  type : Nat
  name : CString
  size : Nat

/-- The digits of a number, last digit first; a 64-bit number has at most 20. -/
def digitsReversed : Nat → Nat → CString
  | 0, _ => []
  | places + 1, n =>
    UInt8.ofNat (48 + n % 10) :: if n / 10 > 0 then digitsReversed places (n / 10) else []

/-- The name `readdir_cb` makes up for an inode number without a record. -/
def inoName (inode : Nat) : CString := cstr "ino_" ++ (digitsReversed 20 inode).reverse

/-- The record that `readdir_cb` fills in for an entry's inode number. -/
def direntOf (device : Device) (rootTree child : Nat) : Except Fault Dirent := do
  match ← btreeLookup device rootTree (inodeKey child) with
  | none => return ⟨child, 1, inoName child, 0⟩
  | some lba =>
    match ← inodeRead device lba with
    | none => return ⟨child, 1, inoName child, 0⟩
    | some value =>
      if value.fileType = ftSymlink then
        return ⟨child, 3, cstr "->" ++ value.name.take 253, value.size⟩
      else return ⟨child, if value.fileType = ftDir then 2 else 1, value.name.take 255, value.size⟩

/-- The part of `struct readdir_ctx` that changes. -/
structure ReaddirCtx (max : Nat) where
  buf : CArray Dirent max
  written : Nat

/-- The rest of `readdir_cb` for an entry of the directory. -/
def addRecord {max : Nat} (device : Device) (rootTree child : Nat) (ctx : ReaddirCtx max) :
    Except Fault (ReaddirCtx max) := do
  let record ← direntOf device rootTree child
  let buf ← ctx.buf.write ctx.written record
  return ⟨buf, ctx.written + 1⟩

/-- `readdir_cb`. A fault ends the walk. -/
def readdirCb {max : Nat} (device : Device) (rootTree dir : Nat) :
    WalkCallback (Except Fault (ReaddirCtx max)) := fun key value state =>
  match state with
  | .error fault => (.error fault, true)
  | .ok ctx =>
    if ctx.written ≥ max then (.ok ctx, true)
    else if keyTag key ≠ ksDirEntry then (.ok ctx, false)
    else if keyParent key ≠ dir then (.ok ctx, false)
    else (addRecord device rootTree value ctx, false)

/-- `mkrn_yafs_readdir`: the buffer, and the number of records or -1. -/
def readdir {max : Nat} (device : Device) (rootTree dir : Nat) (buf : CArray Dirent max) :
    Except Fault (CArray Dirent max × Option Nat) :=
  if rootTree = 0 then return (buf, none)
  else if dir ≥ uint64Max >>> 16 then return (buf, none)
  else do
    let (state, _) ← btreeWalkRange device rootTree
      (makeKey ksDirEntry ((dir <<< 16) % 2 ^ 64))
        (makeKey ksDirEntry (((dir + 1) <<< 16) % 2 ^ 64))
      (readdirCb device rootTree dir) (.ok ⟨buf, 0⟩)
    let ctx ← state
    return (ctx.buf, some ctx.written)

variable {dir : Nat} {bindings : Nat → Option Nat}

theorem dir_range {key : Nat} (fits : dir < 2 ^ 44 - 1) :
    makeKey ksDirEntry ((dir <<< 16) % 2 ^ 64) ≤ key ∧
        key < makeKey ksDirEntry (((dir + 1) <<< 16) % 2 ^ 64) ↔
      keyTag key = ksDirEntry ∧ keyParent key = dir := by
  rw [makeKey_eq (by decide), makeKey_eq (by decide), keyTag, keyParent, keyValue, ksTagShift,
    ksValueMask,
    Nat.and_two_pow_sub_one_eq_mod, ksDirEntry]
  simp only [Nat.shiftRight_eq_div_pow, Nat.shiftLeft_eq]
  omega

/-- The entries of a directory, in the order of their keys. -/
def dirEntries (bindings : Nat → Option Nat) (dir : Nat) : List (Nat × Nat) :=
  listing bindings (makeKey ksDirEntry ((dir <<< 16) % 2 ^ 64))
    (makeKey ksDirEntry (((dir + 1) <<< 16) % 2 ^ 64))

theorem mem_dirEntries {key value : Nat} (fits : dir < 2 ^ 44 - 1) :
    (key, value) ∈ dirEntries bindings dir ↔
      bindings key = some value ∧ keyTag key = ksDirEntry ∧ keyParent key = dir := by
  rw [dirEntries, mem_listing, dir_range fits]

theorem direntOf_ok {tree : BtreeState} {height : Nat} (inv : YafsInv tree height bindings)
    (child : Nat) :
    ∃ record, direntOf tree.device tree.rootLba child = .ok record ∧ record.inode = child := by
  rw [direntOf, inv.rep.lookup, ok_bind]
  cases bound : bindings (inodeKey child) with
  | none => exact ⟨_, rfl, rfl⟩
  | some lba =>
    obtain ⟨value, _, isRead⟩ := inv.inodeRead_eq (keyTag_inodeKey child) bound
    dsimp only
    rw [isRead, ok_bind]
    dsimp only
    split
    next => exact ⟨_, rfl, rfl⟩
    next => exact ⟨_, rfl, rfl⟩

/-- The walk has written the records of the entries, as far as the buffer goes. -/
structure Listed {max : Nat} (device : Device) (rootTree : Nat) (entries : List (Nat × Nat))
    (before after : ReaddirCtx max) : Prop where
  count : after.written = min max (before.written + entries.length)
  record : ∀ i (inside : i < entries.length), before.written + i < max →
    direntOf device rootTree entries[i].2 = .ok (after.buf.cell (before.written + i))
  kept : ∀ i, i < before.written ∨ after.written ≤ i → after.buf.cell i = before.buf.cell i

theorem visit_readdirCb {max rootTree : Nat} {device : Device} {entries : List (Nat × Nat)}
    (areEntries : ∀ entry ∈ entries, keyTag entry.1 = ksDirEntry ∧ keyParent entry.1 = dir)
    (found : ∀ child, ∃ record, direntOf device rootTree child = .ok record)
    (ctx : ReaddirCtx max) (fits : ctx.written ≤ max) :
    ∃ after, (visit (visitEntry (readdirCb device rootTree dir)) entries (.ok ctx)).1 = .ok after ∧
      Listed device rootTree entries ctx after := by
  induction entries generalizing ctx with
  | nil =>
    have nothing : ctx.written = min max (ctx.written + ([] : List (Nat × Nat)).length) :=
      (Nat.min_eq_right fits).symm
    exact ⟨ctx, rfl, nothing, fun i inside => absurd inside (Nat.not_lt_zero i), fun _ _ => rfl⟩
  | cons entry entries ih =>
    obtain ⟨isEntry, inDir⟩ := areEntries entry List.mem_cons_self
    by_cases full : ctx.written ≥ max
    · have stops : visitEntry (readdirCb device rootTree dir) entry (.ok ctx) = (.ok ctx, true) :=
        if_pos full
      refine ⟨ctx, by rw [visit, stops]; rfl, by omega, fun i _ room => by omega, fun _ _ => rfl⟩
    · obtain ⟨record, isRecord⟩ := found entry.2
      let next : ReaddirCtx max := ⟨⟨update ctx.buf.cell ctx.written record⟩, ctx.written + 1⟩
      have adds : addRecord device rootTree entry.2 ctx = .ok next := by
        rw [addRecord, isRecord, ok_bind, CArray.write_eq (Nat.lt_of_not_le full), ok_bind]
        rfl
      have step : visitEntry (readdirCb device rootTree dir) entry (.ok ctx) =
          (.ok next, false) := by
        rw [← adds]
        exact (if_neg full).trans
          ((if_neg (not_not.mpr isEntry)).trans (if_neg (not_not.mpr inDir)))
      obtain ⟨after, visited, count, records, kept⟩ := ih
        (fun other member => areEntries other (List.mem_cons_of_mem entry member)) next
        (Nat.lt_of_not_le full)
      have nextWritten : next.written = ctx.written + 1 := rfl
      refine ⟨after, by rw [visit, step]; exact visited, ?_, fun i inside room => ?_,
        fun i outside => ?_⟩
      · rw [count, nextWritten, List.length_cons]
        omega
      · cases i with
        | zero =>
          have here : next.buf.cell ctx.written = record := update_self _ _ _
          rw [Nat.add_zero, List.getElem_cons_zero, isRecord, kept _ (.inl (Nat.lt_succ_self _)),
            here]
        | succ i =>
          have shift : ctx.written + (i + 1) = next.written + i := by omega
          rw [shift] at room ⊢
          rw [List.getElem_cons_succ, records i (Nat.lt_of_succ_lt_succ inside) room]
      · rw [kept i (by rw [nextWritten]; omega)]
        exact update_of_ne (by omega) _ _

theorem YafsInv.readdir_listed {tree : BtreeState} {height : Nat}
    (inv : YafsInv tree height bindings) {max : Nat} (fits : dir < 2 ^ 44 - 1)
    (buf : CArray Dirent max) :
    ∃ after : ReaddirCtx max,
      readdir tree.device tree.rootLba dir buf =
        .ok (after.buf, if tree.rootLba = 0 then none else some after.written) ∧
      Listed tree.device tree.rootLba (dirEntries bindings dir) ⟨buf, 0⟩ after := by
  have word (value : Nat) : makeKey ksDirEntry value ≤ uint64Max := by
    rw [makeKey_eq (by decide), ksDirEntry, uint64Max]
    omega
  by_cases noRoot : tree.rootLba = 0
  · have none : dirEntries bindings dir = [] :=
      listing_nil fun key _ _ => Option.eq_none_iff_forall_ne_some.mpr fun value bound =>
        inv.rep.rooted_of_bound key (by simp [bound]) noRoot
    rw [none, readdir, if_pos noRoot]
    exact ⟨⟨buf, 0⟩, by rw [if_pos noRoot]; rfl, (Nat.min_zero _).symm,
      fun i inside => absurd inside (Nat.not_lt_zero i), fun _ _ => rfl⟩
  · have small : ¬dir ≥ uint64Max >>> 16 := by
      rw [uint64Max, Nat.shiftRight_eq_div_pow]
      omega
    have areEntries : ∀ entry ∈ dirEntries bindings dir,
        keyTag entry.1 = ksDirEntry ∧ keyParent entry.1 = dir :=
      fun _ member => ((mem_dirEntries fits).mp member).2
    obtain ⟨after, visited, listed⟩ := visit_readdirCb areEntries
      (fun child => (direntOf_ok inv child).imp fun _ => And.left) ⟨buf, 0⟩ (Nat.zero_le max)
    refine ⟨after, ?_, listed⟩
    rw [readdir, if_neg noRoot, if_neg small, inv.rep.walk_range (word _) (word _), ok_bind,
      if_neg noRoot]
    dsimp only
    rw [← dirEntries, visited]
    rfl

/-- One record for each entry in the order of their keys, up to the size of the buffer. -/
theorem readdir_entries {blocks : Nat → Block} {start state : State} {calls : List Call}
    (booted : boot blocks = .ok start) (run : Steps VfsStep start calls state) {dir : Nat}
    (fits : dir < 2 ^ 44 - 1) :
    ∃ entries : List (Nat × Nat),
      (entries.Pairwise fun first second => first.1 < second.1) ∧
      (∀ key value, (key, value) ∈ entries ↔
        btreeLookup state.yafs.device state.yafs.rootLba key = .ok (some value) ∧
          keyTag key = ksDirEntry ∧ keyParent key = dir) ∧
      ∀ (max : Nat) (buf : CArray Dirent max), ∃ after : CArray Dirent max,
        readdir state.yafs.device state.yafs.rootLba dir buf =
          .ok (after, if state.yafs.rootLba = 0 then none else some (min max entries.length)) ∧
        (∀ i (inside : i < entries.length), i < max →
          (after.cell i).inode = entries[i].2 ∧
          direntOf state.yafs.device state.yafs.rootLba entries[i].2 = .ok (after.cell i)) ∧
        ∀ i, min max entries.length ≤ i → after.cell i = buf.cell i := by
  obtain ⟨height, bindings, inv⟩ := mounted_sound booted run
  refine ⟨dirEntries bindings dir, listing_sorted bindings _ _, fun key value => ?_,
    fun max buf => ?_⟩
  · rw [inv.yafs.rep.lookup, mem_dirEntries fits, Except.ok.injEq]
  · obtain ⟨after, isRead, count, records, kept⟩ := YafsInv.readdir_listed inv.yafs fits buf
    rw [Nat.zero_add] at count
    refine ⟨after.buf, count ▸ isRead, fun i inside room => ?_,
      fun i behind => kept i (.inr (count ▸ behind))⟩
    have isRecord := records i inside ((Nat.zero_add i).symm ▸ room)
    rw [Nat.zero_add] at isRecord
    obtain ⟨record, isRecord', number⟩ := direntOf_ok inv.yafs (dirEntries bindings dir)[i].2
    rw [Except.ok.inj (isRecord.symm.trans isRecord')]
    exact ⟨number, isRecord'⟩

/-- The root directory of the freshly mounted filesystem. -/
theorem readdir_entries_root : ∃ (start : State) (entries : List (Nat × Nat))
    (after : CArray Dirent 8), boot (fun _ => .zero) = .ok start ∧
    readdir start.yafs.device start.yafs.rootLba 1 (.fill ⟨0, 0, [], 0⟩) =
      .ok (after, some (min 8 entries.length)) ∧
    ∀ key value, (key, value) ∈ entries ↔
      btreeLookup start.yafs.device start.yafs.rootLba key = .ok (some value) ∧
        keyTag key = ksDirEntry ∧ keyParent key = 1 := by
  obtain ⟨start, bindings, booted, built, _⟩ := boot_built fun _ => .zero
  obtain ⟨entries, _, member, reads⟩ := readdir_entries booted .refl (show 1 < 2 ^ 44 - 1 by decide)
  obtain ⟨after, isRead, _⟩ := reads 8 (.fill ⟨0, 0, [], 0⟩)
  rw [if_neg built.rooted] at isRead
  exact ⟨start, entries, after, booted, isRead, member⟩

end M4KK1.Vfs
