import M4KK1.Kernel.NormalPath
import M4KK1.Vfs.Resolution
import M4KK1.Vfs.TreeShape

/-!
# Normalised paths and walks through the directories

`mkrn_resolve_path` takes `..` out of a path by its text, `lookup_path` follows it.
-/

namespace M4KK1.Kernel

open List Lib Yafs Vfs

/-- One component of a walk; a walk that has failed stays at 0. -/
def walkStep (state : Vfs.State) (inode : Nat) (comp : CString) : Except Fault Nat :=
  if inode = 0 then return 0
  else
    pathStep (lookupName state.yafs.device state.yafs.rootLba)
      (lookupParent state.yafs.device state.yafs.rootLba)
      inode comp

def walk (state : Vfs.State) (inode : Nat) (comps : List CString) : Except Fault Nat :=
  comps.foldlM (walkStep state) inode

def walkStart (state : Vfs.State) (cwd path : CString) : Except Fault Nat :=
  if path.head? = some slash then return 1 else lookupPath state.yafs.device state.yafs.rootLba cwd

/-- `parent` has an entry for the inode; the root is in itself. -/
def ParentOf (state : Vfs.State) (parent inode : Nat) : Prop :=
  parent = 1 ∧ inode = 1 ∨ ∃ key, entries state key = some inode ∧ keyParent key = parent

/-- The inode is in one directory. -/
def SingleParent (state : Vfs.State) (inode : Nat) : Prop :=
  ∀ parent other, ParentOf state parent inode → ParentOf state other inode → parent = other

/-- Each `..` of the path is met at an inode that has a single parent. -/
def UpsReturn (state : Vfs.State) (start : Nat) (path : CString) : Prop :=
  ∀ before after, components path = before ++ cstr ".." :: after →
    ∃ inode, walk state start before = .ok inode ∧ inode ≠ 0 ∧ SingleParent state inode

/-- Where a name leads; a walk that has failed stays at 0. -/
def nameIn (bindings : Nat → Option Nat) (inode : Nat) (name : CString) : Nat :=
  if inode = 0 then 0 else entryIn bindings inode name

variable {state : Vfs.State} {height : Nat} {bindings : Nat → Option Nat}

theorem stepLive_eq (bindings : Nat → Option Nat) (inode : Nat) (comp : CString) :
    stepLive bindings inode comp =
      Move.lead (parentIn bindings) (nameIn bindings) inode (moveOf comp) := by
  unfold stepLive stepIn moveOf
  split
  next dead =>
    rw [dead]
    split
    · rfl
    · split <;> rfl
  next live =>
    split
    · rfl
    · split
      · rfl
      · rw [Move.lead, nameIn, if_neg live]

theorem foldl_stepLive (bindings : Nat → Option Nat) (inode : Nat) (comps : List CString) :
    comps.foldl (stepLive bindings) inode =
      (comps.map moveOf).foldl (Move.lead (parentIn bindings) (nameIn bindings)) inode := by
  rw [foldl_map]
  exact congrFun (congrFun (congrArg List.foldl (funext₂ (stepLive_eq bindings))) inode) comps

section

variable (inv : Inv state height bindings)

include inv

theorem walk_eq (inode : Nat) (comps : List CString) :
    walk state inode comps = .ok (comps.foldl (stepLive bindings) inode) := by
  have step (inode : Nat) (comp : CString) : walkStep state inode comp =
      .ok (stepLive bindings inode comp) := by
    unfold walkStep stepLive pathStep stepIn
    split
    · rfl
    · split
      · rfl
      · split
        · exact lookupParent_eq inv.yafs.rep inode
        · exact inv.yafs.rep.lookupName_eq inode comp
  induction comps generalizing inode with
  | nil => rfl
  | cons comp comps ih =>
    rw [walk, foldlM_cons, step, ok_bind]
    exact ih _

theorem lookupPath_walk {path : CString} (short : ∀ comp ∈ components path, comp.length ≤ 255) :
    lookupPath state.yafs.device state.yafs.rootLba path = walk state 1 (components path) := by
  rw [lookupPath_eq, foldPath_eq inv.yafs.rep Nat.one_ne_zero short, walk_eq inv]

theorem lookupPath_absolute {names : List CString} (normal : NormalNames names) :
    lookupPath state.yafs.device state.yafs.rootLba (absolute names) =
      .ok (names.foldl (nameIn bindings) 1) := by
  have short : ∀ comp ∈ components (absolute names), comp.length ≤ 255 := fun comp member =>
    Nat.le_trans (components_length member) (Nat.le_of_lt_succ normal.short)
  have downs (inode : Nat) : (names.map Move.down).foldl
    (Move.lead (parentIn bindings) (nameIn bindings)) inode =
      names.foldl (nameIn bindings) inode := foldl_map
  rw [lookupPath_walk inv short, walk_eq inv, foldl_stepLive, ← moves, moves_absolute normal.isName]
  split
  next empty =>
    rw [empty]
    rfl
  next => rw [foldl_cons, Move.lead, downs]

theorem names_lt (names : List CString) : names.foldl (nameIn bindings) 1 < 2 ^ 44 := by
  induction names using List.reverseRecOn with
  | nil => exact (by decide : 1 < 2 ^ 44)
  | append_singleton names name _ =>
    rw [foldl_append, foldl_cons, foldl_nil, nameIn]
    split
    next => decide
    next =>
      by_cases missing : entryIn bindings (names.foldl (nameIn bindings) 1) name = 0
      · rw [missing]
        decide
      · exact Nat.lt_trans
          (inv.yafs.filed.entry (keyTag_dirEntryKey _ name) (entryIn_bound missing)).2 (by decide)

theorem returnsFrom_single {inode : Nat} (live : inode ≠ 0) (single : SingleParent state inode) :
    Move.ReturnsFrom (parentIn bindings) (nameIn bindings) 1 inode := by
  intro names name leads
  have small := names_lt inv names
  generalize names.foldl (nameIn bindings) 1 = above at leads small
  have aboveLive : above ≠ 0 := fun dead => live (by rw [← leads, dead, nameIn, if_pos rfl])
  rw [nameIn, if_neg aboveLive] at leads
  have bound : bindings (dirEntryKey above name) = some inode := by
    have found : entryIn bindings above name ≠ 0 := leads.symm ▸ live
    rw [entryIn_bound found, leads]
  have isParent {key : Nat} (tag : keyTag key = ksDirEntry) (bound : bindings key = some inode) :
      ParentOf state (keyParent key) inode := by
    refine .inr ⟨key, ?_, rfl⟩
    rw [inv.entries_eq, dirEdges, if_pos tag, bound]
  have isAbove := isParent (keyTag_dirEntryKey above name) bound
  rw [keyParent_dirEntryKey small] at isAbove
  by_cases isRoot : inode = 1
  · rw [isRoot, parentIn, if_neg Nat.one_ne_zero, if_pos rfl]
    exact single 1 above (.inl ⟨rfl, isRoot⟩) isAbove
  · rw [parentIn_of_single live isRoot (keyTag_dirEntryKey above name) bound,
      keyParent_dirEntryKey small]
    intro other tag otherBound
    rw [keyParent_dirEntryKey small]
    exact single _ _ (isParent tag otherBound) isAbove

theorem UpsReturn.returns {start : Nat} {path : CString}
    (ups : UpsReturn state start path) {before after : List (Move CString)}
    (split : moves path = before ++ .up :: after) :
    Move.ReturnsFrom (parentIn bindings) (nameIn bindings) 1
      (before.foldl (Move.lead (parentIn bindings) (nameIn bindings)) start) := by
  obtain ⟨first, rest, whole, rfl, isRest⟩ := map_eq_append_iff.mp split
  obtain ⟨comp, second, rfl, isUp, _⟩ := map_eq_cons_iff.mp isRest
  have dots : comp = cstr ".." := by
    unfold moveOf at isUp
    split at isUp
    next => cases isUp
    next =>
      split at isUp
      next dots => exact dots
      next => cases isUp
  obtain ⟨inode, walked, live, single⟩ := ups first second (dots ▸ whole)
  rw [walk_eq inv, foldl_stepLive, Except.ok.injEq] at walked
  rw [walked]
  exact returnsFrom_single inv live single

theorem walkStart_eq {names : List CString} (normal : NormalNames names)
    (path : CString) :
    walkStart state (absolute names) path =
      .ok ((if path.head? = some slash then [] else names).foldl (nameIn bindings) 1) := by
  unfold walkStart
  split
  next => rfl
  next => exact lookupPath_absolute inv normal

end

/-- A result that fits is normal and resolves to itself; with single parents it leads where a walk
does. -/
theorem resolvePath_normalises {blocks : Nat → Block} {start state : Vfs.State}
    {calls : List Vfs.Call}
    (booted : Vfs.boot blocks = .ok start) (run : Steps VfsStep start calls state)
    {cwd path : CString}
    (resolved : Resolved cwd) (fits : PathFits cwd path) :
    NormalPath (resolvePath cwd path pathRoom) ∧
    (∀ other, resolvePath other (resolvePath cwd path pathRoom) pathRoom =
      resolvePath cwd path pathRoom) ∧
    ∃ origin inode, walkStart state cwd path = .ok origin ∧
      walk state origin (components path) = .ok inode ∧
      (UpsReturn state origin path →
        lookupPath state.yafs.device state.yafs.rootLba (resolvePath cwd path pathRoom) =
          .ok inode) := by
  obtain ⟨height, bindings, inv⟩ := mounted_sound booted run
  obtain ⟨names, normal, rfl⟩ := resolved.shape
  obtain ⟨after, afterNormal, result, settled⟩ := fits.resolved_names normal
  rw [result]
  refine ⟨afterNormal.normalPath, afterNormal.resolvePath_self, _, _, walkStart_eq inv normal path,
    walk_eq inv _ _, ?_⟩
  intro ups
  rw [lookupPath_absolute inv afterNormal, settled, foldl_stepLive, ← moves]
  rw [Move.lead_settle rfl fun before after split => ups.returns inv split]

theorem singleParent_of_tree (tree : TreeShape state) (inode : Nat) : SingleParent state inode := by
  rintro parent other (⟨rfl, rfl⟩ | ⟨key, edge, rfl⟩) (⟨rfl, root⟩ | ⟨key', edge', rfl⟩)
  · rfl
  · exact absurd edge' (tree.root_free key')
  · exact absurd (root ▸ edge) (tree.root_free key)
  · by_cases isRoot : inode = 1
    · exact absurd (isRoot ▸ edge) (tree.root_free key)
    · rw [tree.once edge edge' isRoot]

theorem stepLive_missing (built : Built state.yafs bindings fhsNames 63) :
    stepLive bindings 1 (cstr "x") = 0 := by
  have missing : fhsNames.lookup (dirEntryKey 1 (cstr "x")) = none := by decide +kernel
  rw [stepLive, if_neg Nat.one_ne_zero, stepIn, if_neg (by decide), if_neg (by decide), entryIn,
    built.names _ (keyTag_dirEntryKey 1 _), missing, Option.getD_none]

theorem stepLive_bin (built : Built state.yafs bindings fhsNames 63) :
    stepLive bindings 1 (cstr "bin") = 2 := by
  rw [stepLive, if_neg Nat.one_ne_zero, stepIn, if_neg (by decide), if_neg (by decide), entryIn,
    built.names _ (keyTag_dirEntryKey 1 _), fhsFacts.bin, Option.getD_some]

theorem walkStart_root (inv : Inv state height bindings) {path : CString} :
    walkStart state (cstr "/") path = .ok 1 := by
  have isRoot : cstr "/" = absolute [] := by decide
  rw [isRoot, walkStart_eq inv normalNames_nil, ite_self, foldl_nil]

/-- From the root, `bin/../sys` leads to where its normal form leads. -/
theorem resolvePath_normalises_sys : ∃ start origin inode, Vfs.boot (fun _ => .zero) = .ok start ∧
    walkStart start (cstr "/") (cstr "bin/../sys") = .ok origin ∧
    walk start origin (components (cstr "bin/../sys")) = .ok inode ∧
    lookupPath start.yafs.device start.yafs.rootLba
      (resolvePath (cstr "/") (cstr "bin/../sys") pathRoom) =
      .ok inode := by
  obtain ⟨start, bindings, booted, built, next, _⟩ := boot_built fun _ => .zero
  have inv : Inv start 0 bindings := built.inv_boot next
  have tree : TreeShape start := built.treeShape inv
  have fits : PathFits (cstr "/") (cstr "bin/../sys") :=
    ⟨.inr ⟨by decide, Move.within_short (by decide)⟩, by decide⟩
  obtain ⟨_, _, origin, inode, started, walked, leads⟩ :=
    resolvePath_normalises booted .refl resolved_root fits
  refine ⟨start, origin, inode, booted, started, walked, leads fun before after split => ?_⟩
  obtain rfl := Except.ok.inj ((walkStart_root inv).symm.trans started)
  have parts : components (cstr "bin/../sys") = [cstr "bin", cstr "..", cstr "sys"] := by decide
  have isFirst : before = [cstr "bin"] := by
    rw [parts] at split
    rcases before with _ | ⟨first, _ | ⟨second, _ | ⟨third, rest⟩⟩⟩
    · exact absurd (List.cons.inj split).1 (by decide)
    · rw [(List.cons.inj split).1]
    · exact absurd (List.cons.inj (List.cons.inj (List.cons.inj split).2).2).1 (by decide)
    · simp at split
  refine ⟨2, ?_, by decide, singleParent_of_tree tree 2⟩
  rw [isFirst, walk_eq inv, foldl_cons, foldl_nil, stepLive_bin built]

/-- A path out of a missing directory leads nowhere, but what it is normalised to does. -/
theorem not_resolvePath_sameInode :
    ¬ ∀ (blocks : Nat → Block) (start state : Vfs.State) (calls : List Vfs.Call),
    Vfs.boot blocks = .ok start → Steps VfsStep start calls state →
    ∀ cwd path : CString, Resolved cwd → PathFits cwd path → (∀ inode, SingleParent state inode) →
      ∃ origin inode, walkStart state cwd path = .ok origin ∧
        walk state origin (components path) = .ok inode ∧
        lookupPath state.yafs.device state.yafs.rootLba (resolvePath cwd path pathRoom) =
          .ok inode := by
  intro law
  obtain ⟨start, bindings, booted, built, next, _⟩ := boot_built fun _ => .zero
  have inv : Inv start 0 bindings := built.inv_boot next
  have tree : TreeShape start := built.treeShape inv
  have fits : PathFits (cstr "/") (cstr "x/../bin") :=
    ⟨.inr ⟨by decide, Move.within_short (by decide)⟩, by decide⟩
  obtain ⟨origin, inode, started, walked, leads⟩ :=
    law _ start start [] booted .refl (cstr "/") (cstr "x/../bin")
    resolved_root fits (singleParent_of_tree tree)
  obtain rfl := Except.ok.inj ((walkStart_root inv).symm.trans started)
  have parts : components (cstr "x/../bin") = [cstr "x", cstr "..", cstr "bin"] := by decide
  rw [parts, walk_eq inv, foldl_cons, stepLive_missing built, stepLive_zero] at walked
  have result : resolvePath (cstr "/") (cstr "x/../bin") pathRoom = cstr "/bin" := by decide
  have bin : components (cstr "/bin") = [[], cstr "bin"] := by decide
  rw [result, lookupPath_walk inv (by decide), bin, walk_eq inv] at leads
  have found : [[], cstr "bin"].foldl (stepLive bindings) 1 = 2 := stepLive_bin built
  rw [found, ← walked] at leads
  cases leads

end M4KK1.Kernel

/-!
## Changing the current directory

`chdir` looks the result of `mkrn_resolve_path` up and copies it to the process. A path that does
not fit the buffers has the empty result, which `lookup_path` takes for the root, so the call
succeeds and leaves an empty `cwd` behind. A longer result is cut, at 255 bytes before it is looked
up and at 254 afterwards, and nothing checks that what was found is a directory.
-/

namespace M4KK1.Kernel

open List Lib Yafs Vfs

/-- The most bytes that `mkrn_syscall_chdir_impl` copies to `cwd`. -/
def cwdBytes : Nat := 254

/-- `mkrn_syscall_chdir_impl`: the `cwd` of the process, and whether the call succeeds. -/
def chdir (state : Vfs.State) (current path : Option CString) :
    Except Fault (Option CString × Bool) :=
  match path, current with
  | some path, some cwd =>
    if state.yafs.rootLba ≠ 0 then do
      let resolved := resolvePath cwd path pathRoom
      let inode ← lookupPath state.yafs.device state.yafs.rootLba resolved
      if inode = 0 then return (current, false)
      else return (some (resolved.take cwdBytes), true)
    else return (current, false)
  | _, _ => return (current, false)

/-- The record of the inode says so. -/
def IsDirectory (state : Vfs.State) (inode : Nat) : Prop :=
  ∃ lba value, btreeLookup state.yafs.device state.yafs.rootLba (inodeKey inode) = .ok (some lba) ∧
    inodeRead state.yafs.device lba = .ok (some value) ∧ value.fileType = ftDir

/-- A call fails and keeps the directory, or the path fits and the new one is the one it names. -/
inductive AllOrNothing (state : Vfs.State) (current path : Option CString) :
    Option CString × Bool → Prop where
  | refused : AllOrNothing state current path (current, false)
  | moved {cwd text after : CString} {inode : Nat} (isCurrent : current = some cwd)
      (isPath : path = some text)
      (fits : PathFits cwd text) (isDirectory : IsDirectory state inode)
      (asked : lookupPath state.yafs.device state.yafs.rootLba (fullPath cwd text) = .ok inode)
      (leads : lookupPath state.yafs.device state.yafs.rootLba after = .ok inode) :
      AllOrNothing state current path (some after, true)

/-- The path fits `tmp` and `parts`, and what is copied to `cwd` leads where the path does. -/
def ChdirFits (state : Vfs.State) (cwd text : CString) : Prop :=
  FitsParts cwd text ∧
    (lookupPath state.yafs.device state.yafs.rootLba ((fullPath cwd text).take (pathRoom - 1)) =
      .ok 0 ∨
      ∃ inode, lookupPath state.yafs.device state.yafs.rootLba (fullPath cwd text) = .ok inode ∧
        IsDirectory state inode ∧
        ((fullPath cwd text).length ≤ cwdBytes ∨
          (fullPath cwd text).length = cwdBytes + 1 ∧
            lookupPath state.yafs.device state.yafs.rootLba ((fullPath cwd text).take cwdBytes) =
              .ok inode))

variable {state : Vfs.State} {height : Nat} {bindings : Nat → Option Nat} {cwd text : CString}

theorem chdir_fits (rooted : state.yafs.rootLba ≠ 0) (fits : FitsParts cwd text) {inode : Nat}
    (looked : lookupPath state.yafs.device state.yafs.rootLba
      ((fullPath cwd text).take (pathRoom - 1)) = .ok inode) :
    chdir state (some cwd) (some text) =
      .ok (if inode = 0 then (some cwd, false)
        else (some ((fullPath cwd text).take cwdBytes), true)) := by
  have again : ((fullPath cwd text).take (pathRoom - 1)).take cwdBytes =
      (fullPath cwd text).take cwdBytes :=
    (take_take ..).trans rfl
  simp only [chdir, resolvePath_fits (by decide : 1 < pathRoom) fits, if_pos rooted, looked,
    ok_bind, again]
  split <;> rfl

theorem chdir_overflow (rooted : state.yafs.rootLba ≠ 0) (outside : ¬ FitsParts cwd text) :
    chdir state (some cwd) (some text) = .ok (some [], true) := by
  simp only [chdir, resolvePath_overflow outside, if_pos rooted]
  rfl

theorem chdir_refused {current path : Option CString}
    (missing : current = none ∨ path = none ∨ state.yafs.rootLba = 0) :
    chdir state current path = .ok (current, false) := by
  unfold chdir
  split
  next path cwd =>
    have unrooted : state.yafs.rootLba = 0 := by simpa using missing
    rw [if_neg (not_not.mpr unrooted)]
    rfl
  next => rfl

theorem chdir_sound (rooted : state.yafs.rootLba ≠ 0) (inv : Inv state height bindings)
    (holds : ChdirFits state cwd text) :
    ∃ outcome, chdir state (some cwd) (some text) = .ok outcome ∧
      AllOrNothing state (some cwd) (some text) outcome := by
  obtain ⟨fits, leads⟩ := holds
  obtain ⟨inode, looked⟩ := inv.yafs.rep.lookupPath_total ((fullPath cwd text).take (pathRoom - 1))
  refine ⟨_, chdir_fits rooted fits looked, ?_⟩
  split
  next => exact .refused
  next live =>
    rcases leads with nowhere | ⟨found, asked, isDirectory, short⟩
    · exact absurd (Except.ok.inj (looked.symm.trans nowhere)) live
    · have room : (fullPath cwd text).length < pathRoom := by
        unfold pathRoom
        unfold cwdBytes at short
        omega
      refine .moved rfl rfl ⟨fits, room⟩ isDirectory asked ?_
      rcases short with short | ⟨_, leads⟩
      · rwa [take_of_length_le short]
      · exact leads

theorem chdirFits_of_sound (rooted : state.yafs.rootLba ≠ 0) (inv : Inv state height bindings)
    {outcome : Option CString × Bool} (ran : chdir state (some cwd) (some text) = .ok outcome)
    (sound : AllOrNothing state (some cwd) (some text) outcome) : ChdirFits state cwd text := by
  by_cases fits : FitsParts cwd text
  · refine ⟨fits, ?_⟩
    obtain ⟨inode, looked⟩ :=
      inv.yafs.rep.lookupPath_total ((fullPath cwd text).take (pathRoom - 1))
    have result := ran.symm.trans (chdir_fits rooted fits looked)
    by_cases dead : inode = 0
    · exact .inl (dead ▸ looked)
    · rw [if_neg dead] at result
      cases sound with
      | refused => exact absurd (congrArg Prod.snd (Except.ok.inj result)) Bool.false_ne_true
      | moved isCurrent isPath fits' isDirectory asked leads =>
        cases isCurrent
        cases isPath
        cases result
        refine .inr ⟨_, asked, isDirectory, ?_⟩
        have room := fits'.2
        by_cases short : (fullPath cwd text).length ≤ cwdBytes
        · exact .inl short
        · refine .inr ⟨?_, leads⟩
          unfold pathRoom at room
          unfold cwdBytes at short ⊢
          omega
  · have result := ran.symm.trans (chdir_overflow rooted fits)
    cases sound with
    | refused => cases result
    | moved isCurrent isPath fits' _ _ _ =>
      cases isCurrent
      cases isPath
      exact absurd fits'.1 fits

/-- `chdir` is all or nothing exactly when the bytes copied to `cwd` lead where the path does. -/
theorem chdir_iff {blocks : Nat → Block} {start state : Vfs.State} {calls : List Vfs.Call}
    (booted : Vfs.boot blocks = .ok start) (run : Steps VfsStep start calls state)
    (current path : Option CString) :
    (∃ outcome, chdir state current path = .ok outcome ∧ AllOrNothing state current path outcome) ↔
      ∀ cwd text, current = some cwd → path = some text → state.yafs.rootLba ≠ 0 →
        ChdirFits state cwd text := by
  obtain ⟨height, bindings, inv⟩ := mounted_sound booted run
  constructor
  · rintro ⟨outcome, ran, sound⟩ cwd text rfl rfl rooted
    exact chdirFits_of_sound rooted inv ran sound
  · intro holds
    cases current with
    | none => exact ⟨_, chdir_refused (.inl rfl), .refused⟩
    | some cwd =>
      cases path with
      | none => exact ⟨_, chdir_refused (.inr (.inl rfl)), .refused⟩
      | some text =>
        by_cases rooted : state.yafs.rootLba = 0
        · exact ⟨_, chdir_refused (.inr (.inr rooted)), .refused⟩
        · exact chdir_sound rooted inv (holds cwd text rfl rfl rooted)

/-- `cd x` fails at the root, where there is no such name, and `cd ..` leads from `/bin` back to
it. -/
theorem chdir_iff_parent : ∃ start, Vfs.boot (fun _ => .zero) = .ok start ∧
    (∃ outcome, chdir start (some (cstr "/")) (some (cstr "x")) = .ok outcome ∧
      AllOrNothing start (some (cstr "/")) (some (cstr "x")) outcome) ∧
    chdir start (some (cstr "/bin")) (some (cstr "..")) = .ok (some (cstr "/"), true) ∧
    AllOrNothing start (some (cstr "/bin")) (some (cstr "..")) (some (cstr "/"), true) := by
  obtain ⟨start, bindings, booted, built, next, _⟩ := boot_built fun _ => .zero
  have inv : Inv start 0 bindings := built.inv_boot next
  refine ⟨start, booted, (chdir_iff booted .refl _ _).mpr ?_, ?_⟩
  · rintro cwd text ⟨⟩ ⟨⟩ _
    refine ⟨.inr ⟨by decide, Move.within_short (by decide)⟩, .inl ?_⟩
    have full : (fullPath (cstr "/") (cstr "x")).take (pathRoom - 1) = cstr "/x" := by decide
    have parts : components (cstr "/x") = [[], cstr "x"] := by decide
    rw [full, lookupPath_walk inv (by decide), parts, walk_eq inv]
    exact congrArg Except.ok (stepLive_missing built)
  · have isRoot : fullPath (cstr "/bin") (cstr "..") = cstr "/" := by decide
    have fits : FitsParts (cstr "/bin") (cstr "..") :=
      .inr ⟨by decide, Move.within_short (by decide)⟩
    have root : lookupPath start.yafs.device start.yafs.rootLba (cstr "/") = .ok 1 :=
      built.lookupPath rfl
    have isDirectory : IsDirectory start 1 := by
      obtain ⟨lba, record, bound, _, image, isDir⟩ := built.rootDir
      obtain ⟨other, otherImage, read⟩ := inv.yafs.inodeRead_eq (keyTag_inodeKey 1) bound
      cases image.symm.trans otherImage
      exact ⟨lba, record, (inv.yafs.rep.lookup _).trans (congrArg _ bound), read, isDir⟩
    have moved : chdir start (some (cstr "/bin")) (some (cstr "..")) =
        .ok (some (cstr "/"), true) := by
      rw [chdir_fits built.rooted fits (by rw [isRoot]; exact root), isRoot]
      rfl
    obtain ⟨outcome, ran, sound⟩ :=
      (chdir_iff booted .refl (some (cstr "/bin")) (some (cstr ".."))).mpr (by
      rintro cwd text ⟨⟩ ⟨⟩ _
      rw [ChdirFits, isRoot]
      exact ⟨fits, .inr ⟨1, root, isDirectory, .inl (by decide)⟩⟩)
    obtain rfl := Except.ok.inj (ran.symm.trans moved)
    exact ⟨moved, sound⟩

/-- A path of 65 components that the filesystem does not have. -/
def deepPath : CString := slashed (List.replicate (maxParts + 1) (cstr "x"))

theorem deepPath_outside : ¬ FitsParts (cstr "/") deepPath := by
  rintro (empty | ⟨_, within⟩)
  · exact absurd empty (by decide)
  · exact absurd (within _ prefix_rfl) (by decide +kernel)

/-- The call succeeds with a path too deep for `parts`. -/
theorem not_chdir_allOrNothing :
    ¬ ∀ (blocks : Nat → Block) (start state : Vfs.State) (calls : List Vfs.Call),
    Vfs.boot blocks = .ok start → Steps VfsStep start calls state → ∀ current path : Option CString,
      ∃ outcome, chdir state current path = .ok outcome ∧
        AllOrNothing state current path outcome := by
  intro law
  obtain ⟨start, _, booted, built, _⟩ := boot_built fun _ => .zero
  obtain ⟨outcome, ran, sound⟩ :=
    law _ start start [] booted .refl (some (cstr "/")) (some deepPath)
  obtain rfl := Except.ok.inj ((chdir_overflow built.rooted deepPath_outside).symm.trans ran)
  cases sound with
  | moved isCurrent isPath fits _ _ _ =>
    cases isCurrent
    cases isPath
    exact deepPath_outside fits.1

end M4KK1.Kernel
