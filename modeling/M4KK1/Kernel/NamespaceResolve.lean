import M4KK1.Kernel.NamespaceTable

/-!
# When a namespace translates a path

`mkrn_ns_resolve` takes the first match for the longest one and drops a remainder that does not fit.
-/

namespace M4KK1.Kernel

open Lib Lib.CArray Yafs Function List

variable {outSz : Nat}

/-- The remainder of a path behind an entry that `mkrn_ns_resolve` matches with it. -/
def componentRemainder (mnt path : CString) : Option CString :=
  if mnt.isPrefixOf path ∧ (path.drop mnt.length = [] ∨ (path.drop mnt.length).head? = some slash)
  then some (path.drop mnt.length) else none

def firstMount (path : CString) : List NsEntry → Option (NsEntry × CString)
  | [] => none
  | e :: entries =>
    match componentRemainder e.mntPath.text path with
    | some rest => some (e, rest)
    | none => firstMount path entries

/-- The condition under which `mkrn_ns_resolve` does what it must, whatever is in the buffers. -/
def Translatable (ns : NsTable) (path : CString) (outSz : Nat) : Prop :=
  outSz = 0 ∨
    match firstMount path ns.entries with
    | none => RootMounted ns path → ∀ text, translation ns path = some text → outSz ≤ text.length
    | some (e, rest) =>
      if rest = [] then e.targetPath.text.length < outSz
      else rest.length < 255 ∧
        ((e.targetPath.text ≠ [] ∧ e.targetPath.text.length + rest.length + 1 < outSz ∧
            translation ns path = some (underTarget e.targetPath.text rest)) ∨
          (outSz ≤ e.targetPath.text.length + rest.length + 1 ∧
            translation ns path = some (e.targetPath.text.take (outSz - 1))))

section Join

variable {target rest : CString} {out : CArray UInt8 outSz} {buffer : CArray UInt8 256}

theorem target_stored (room : outSz ≠ 0) (noNul : 0 ∉ target) (out : CArray UInt8 outSz) :
    ∃ out', (do
        let out ← out.strncpy target (outSz - 1)
        out.write (outSz - 1) 0) = .ok out' ∧ out'.Holds (target.take (outSz - 1)) := by
  have stored : (do
      let out ← out.strncpy target (outSz - 1)
      out.write (outSz - 1) 0) = .ok (⟨update
        (fun cell => if cell < outSz - 1 then target.getD cell 0 else out.cell cell)
        (outSz - 1) 0⟩ : CArray UInt8 outSz) := by
    rw [strncpy_eq (by omega), ok_bind, write_eq (by omega)]
  refine ⟨_, stored, Holds.of_cells (fun nul => noNul (mem_of_mem_take nul)) ?_ ?_ ?_⟩
  · rw [List.length_take]
    omega
  · intro index inside
    rw [List.length_take] at inside
    simp only [update_apply]
    rw [if_neg (by omega), if_pos (by omega), List.getElem_take, getD_eq_getElem _ _ (by omega)]
  · simp only [update_apply, List.length_take]
    by_cases last : min (outSz - 1) target.length = outSz - 1
    · rw [if_pos last]
    · rw [if_neg last, if_pos (by omega), getD_eq_default _ _ (by omega)]

theorem nsJoin_whole (room : outSz ≠ 0) (noNul : 0 ∉ target) (empty : buffer.cell 0 = 0) :
    ∃ out', nsJoin target out buffer = .ok (out', 0) ∧ out'.Holds (target.take (outSz - 1)) := by
  obtain ⟨out', stored, holds⟩ := target_stored room noNul out
  obtain ⟨middle, copied, written⟩ := bind_ok stored
  refine ⟨out', ?_, holds⟩
  rw [nsJoin, copied, ok_bind, written, ok_bind, read_eq (by decide), ok_bind, empty,
    if_neg (fun differs => differs rfl)]

theorem nsJoin_measured (out : CArray UInt8 outSz) (room : outSz ≠ 0) (noNul : 0 ∉ target)
    (some_ : rest ≠ [])
    (holdsRest : buffer.Holds rest) :
    ∃ out', out'.Holds (target.take (outSz - 1)) ∧ nsJoin target out buffer =
      if (target.take (outSz - 1)).length + rest.length + 1 < outSz then do
        let out ← stripSlash out' (target.take (outSz - 1)).length
        let out ← out.strcat buffer
        .ok (out, 0)
      else .ok (out', 0) := by
  obtain ⟨out', stored, holds⟩ := target_stored room noNul out
  obtain ⟨middle, copied, written⟩ := bind_ok stored
  obtain ⟨byte, more, rfl⟩ := exists_cons_of_ne_nil some_
  have first : buffer.cell 0 = byte := holdsRest.cell_of_lt (Nat.succ_pos _)
  have notNul : byte ≠ 0 := fun nul => holdsRest.noNul (by simp [nul])
  refine ⟨out', holds, ?_⟩
  rw [nsJoin, copied, ok_bind, written, ok_bind, read_eq (by decide), ok_bind, first,
    if_pos notNul, strlen_eq holds, ok_bind, strlen_eq holdsRest, ok_bind]

theorem nsJoin_cut (room : outSz ≠ 0) (noNul : 0 ∉ target) (some_ : rest ≠ [])
    (holdsRest : buffer.Holds rest) (long : outSz ≤ target.length + rest.length + 1) :
    ∃ out', nsJoin target out buffer = .ok (out', 0) ∧ out'.Holds (target.take (outSz - 1)) := by
  obtain ⟨out', holds, run⟩ := nsJoin_measured out room noNul some_ holdsRest
  refine ⟨out', ?_, holds⟩
  rw [run, if_neg]
  rw [List.length_take]
  omega

theorem nsJoin_empty (typed : outSz < 4294967296) (some_ : rest ≠ [])
    (holdsRest : buffer.Holds rest)
    (fits : rest.length + 1 < outSz) :
    nsJoin [] out buffer = .error .outOfBounds := by
  obtain ⟨out', holds, run⟩ :=
    nsJoin_measured out (by omega) (not_mem_nil : (0 : UInt8) ∉ []) some_ holdsRest
  rw [run, take_nil, length_nil, if_pos (by omega), stripSlash, CArray.read, if_neg]
  · rfl
  · have front : sub32 0 1 = 4294967295 := by decide
    omega

theorem nsJoin_fits (noNul : 0 ∉ target) (someTarget : target ≠ []) (some_ : rest ≠ [])
    (slashed : rest.head? = some slash) (holdsRest : buffer.Holds rest)
    (fits : target.length + rest.length + 1 < outSz) (typed : outSz < 4294967296) :
    ∃ out', nsJoin target out buffer = .ok (out', 0) ∧ out'.Holds (underTarget target rest) := by
  obtain ⟨out', holds, run⟩ := nsJoin_measured out (by omega) noNul some_ holdsRest
  have whole : target.take (outSz - 1) = target := take_of_length_le (by omega)
  have positive : 0 < target.length := length_pos_of_ne_nil someTarget
  have before : sub32 target.length 1 = target.length - 1 := sub32_eq positive (by omega)
  rw [whole] at holds run
  rw [if_pos fits] at run
  have last : out'.cell (target.length - 1) = target.getLast someTarget := by
    rw [holds.cell_of_lt (by omega), getLast_eq_getElem]
  by_cases stripped : target.getLast someTarget = slash
  · have shorter : (⟨update out'.cell (target.length - 1) 0⟩ : CArray UInt8 outSz).Holds
        target.dropLast := by
      refine Holds.of_cells (fun nul => noNul (dropLast_subset _ nul))
        (by rw [length_dropLast]; omega) ?_ ?_
      · intro index inside
        rw [length_dropLast] at inside
        simp only [update_apply]
        rw [if_neg (by omega), getElem_dropLast, holds.cell_of_lt]
      · rw [length_dropLast]
        exact update_self _ _ _
    have strip : stripSlash out' target.length =
        .ok ⟨update out'.cell (target.length - 1) 0⟩ := by
      rw [stripSlash, before, read_eq (by omega), ok_bind, last, if_pos stripped,
        write_eq (by omega)]
    obtain ⟨out'', appended, holdsBoth⟩ := strcat_eq shorter holdsRest
      (by rw [length_dropLast]; omega)
    refine ⟨out'', ?_, ?_⟩
    · rw [run, strip, ok_bind, appended, ok_bind]
    · rw [underTarget, if_neg some_, if_pos slashed, if_pos]
      · exact holdsBoth
      · rw [getLast?_eq_some_getLast someTarget, stripped]
  · have strip : stripSlash out' target.length = .ok out' := by
      rw [stripSlash, before, read_eq (by omega), ok_bind, last, if_neg stripped]
    obtain ⟨out'', appended, holdsBoth⟩ := strcat_eq holds holdsRest (by omega)
    refine ⟨out'', ?_, ?_⟩
    · rw [run, strip, ok_bind, appended, ok_bind]
    · rw [underTarget, if_neg some_, if_pos slashed, if_neg]
      · exact holdsBoth
      · rw [getLast?_eq_some_getLast someTarget]
        exact fun same => stripped (Option.some.inj same)

theorem nsJoin_unterminated (room : outSz ≠ 0) (noNul : 0 ∉ target)
    (unterminated : ∀ index, index < 256 → buffer.cell index ≠ 0) :
    nsJoin target out buffer = .error .outOfBounds := by
  obtain ⟨out', stored, holds⟩ := target_stored room noNul out
  obtain ⟨middle, copied, written⟩ := bind_ok stored
  rw [nsJoin, copied, ok_bind, written, ok_bind, read_eq (by decide), ok_bind,
    if_pos (unterminated 0 (by decide)), strlen_eq holds, ok_bind, strlen_unterminated unterminated]
  rfl

end Join

variable {rest : CString} {entries : List NsEntry}

theorem rest_stored (noNul : 0 ∉ rest) (short : rest.length < 255)
    (stack : CArray UInt8 256) : ∃ buffer, stack.strncpy rest 255 = .ok buffer ∧
      buffer.Holds rest := by
  refine ⟨_, strncpy_eq (by decide), Holds.of_cells noNul (by omega) ?_ ?_⟩
  · intro index inside
    simp only
    rw [if_pos (by omega), getD_eq_getElem _ _ inside]
  · simp only
    rw [if_pos short, getD_eq_default _ _ (Nat.le_refl _)]

theorem rest_unterminated (noNul : 0 ∉ rest) (long : 255 ≤ rest.length)
    (stack : CArray UInt8 256) (last : stack.cell 255 ≠ 0) :
    ∃ buffer, stack.strncpy rest 255 = .ok buffer ∧ ∀ index, index < 256 →
      buffer.cell index ≠ 0 := by
  refine ⟨_, strncpy_eq (by decide), fun index inside => ?_⟩
  simp only
  by_cases copied : index < 255
  · rw [if_pos copied, getD_eq_getElem _ _ (by omega)]
    exact fun nul => noNul (nul ▸ getElem_mem _)
  · obtain rfl : index = 255 := by omega
    rwa [if_neg copied]

theorem nsResolveLoop_eq {path : CString} (noNul : 0 ∉ path) (out : CArray UInt8 outSz)
    (stack : CArray UInt8 256) (entries : List NsEntry) :
    nsResolveLoop path out stack entries =
      match firstMount path entries with
      | none => .ok (out, -1)
      | some (e, rest) =>
        let zeroed : CArray UInt8 256 := ⟨update stack.cell 0 0⟩
        if rest = [] then nsJoin e.targetPath.text out zeroed
        else zeroed.strncpy rest 255 >>= nsJoin e.targetPath.text out := by
  induction entries with
  | nil => rfl
  | cons e entries ih =>
    have byte : path.getD e.mntPath.text.length 0 =
        ((path.drop e.mntPath.text.length).head?).getD 0 := by
      rw [head?_drop, getD_eq_getElem?_getD]
    have noNulBehind : 0 ∉ path.drop e.mntPath.text.length :=
      fun nul => noNul (mem_of_mem_drop nul)
    rw [nsResolveLoop, firstMount, componentRemainder]
    by_cases isPrefix : e.mntPath.text.isPrefixOf path = true
    · cases behind : path.drop e.mntPath.text.length with
      | nil =>
        have reset : (⟨update (update stack.cell 0 0) 0 0⟩ : CArray UInt8 256) =
            ⟨update stack.cell 0 0⟩ := by rw [update_idem]
        have ends : path.getD e.mntPath.text.length 0 = 0 := by
          rw [byte, behind]
          rfl
        simp only
        rw [if_pos isPrefix, write_eq (by decide), ok_bind, ends, if_neg (by decide), if_pos rfl,
          write_eq (by decide), ok_bind, reset, if_pos ⟨isPrefix, .inl trivial⟩]
        rfl
      | cons first more =>
        have notNul : first ≠ 0 := fun nul => noNulBehind (by simp [behind, nul])
        have next : path.getD e.mntPath.text.length 0 = first := by
          rw [byte, behind]
          rfl
        simp only
        rw [if_pos isPrefix, write_eq (by decide), ok_bind, next]
        by_cases slashed : first = slash
        · rw [if_pos slashed, if_pos ⟨isPrefix, .inr (congrArg some slashed)⟩]
          rfl
        · have other : ¬ (e.mntPath.text.isPrefixOf path = true ∧
              (first :: more = [] ∨ (first :: more).head? = some slash)) := by
            rintro ⟨-, empty | same⟩
            · cases empty
            · exact slashed (Option.some.inj same)
          rw [if_neg slashed, if_neg notNul, if_neg other, ih]
    · simp only
      rw [if_neg isPrefix, if_neg fun both => isPrefix both.1, ih]

theorem firstMount_some {path : CString} (noNul : 0 ∉ path) {e : NsEntry}
    (first : firstMount path entries = some (e, rest)) :
    0 ∉ rest ∧ (rest = [] ∨ rest.head? = some slash) := by
  induction entries with
  | nil => cases first
  | cons other entries ih =>
    rw [firstMount] at first
    cases matched : componentRemainder other.mntPath.text path with
    | none => exact ih (by simpa [matched] using first)
    | some found =>
      obtain ⟨rfl, rfl⟩ : other = e ∧ found = rest := by simpa [matched] using first
      unfold componentRemainder at matched
      split at matched
      · rename_i isPrefix
        obtain rfl := Option.some.inj matched
        exact ⟨fun nul => noNul (mem_of_mem_drop nul), isPrefix.2⟩
      · cases matched

theorem remainder_of_component {mnt path : CString}
    (matched : componentRemainder mnt path = some rest) : remainder mnt path = some rest := by
  unfold componentRemainder at matched
  split at matched
  · rename_i isPrefix
    rw [remainder, if_pos ⟨isPrefix.1, .inr isPrefix.2⟩, matched]
  · cases matched

theorem remainder_of_none {mnt path : CString} (passed : componentRemainder mnt path = none) :
    remainder mnt path = none ∨ mnt = rootMount ∧ path.head? = some slash ∧ 1 < path.length := by
  by_cases behind : remainder mnt path = none
  · exact .inl behind
  · unfold componentRemainder at passed
    unfold remainder at behind
    split at behind
    · rename_i both
      have isRoot : mnt = rootMount := by
        by_contra other
        rw [if_pos ⟨both.1, both.2.resolve_left other⟩] at passed
        cases passed
      obtain ⟨more, rfl⟩ := isPrefixOf_iff_prefix.mp both.1
      subst isRoot
      refine .inr ⟨rfl, rfl, ?_⟩
      have some_ : more ≠ [] := by
        rintro rfl
        rw [if_pos ⟨both.1, .inl rfl⟩] at passed
        cases passed
      have := length_pos_of_ne_nil some_
      simp only [rootMount, length_append, length_singleton]
      omega
    · exact absurd rfl behind

theorem remainder_length {mnt path : CString} (behind : remainder mnt path = some rest) :
    mnt.length + rest.length = path.length := by
  unfold remainder at behind
  split at behind
  · rename_i isPrefix
    obtain rfl := Option.some.inj behind
    have := ( isPrefixOf_iff_prefix.mp isPrefix.1).length_le
    rw [length_drop]
    omega
  · cases behind

theorem longestMount_length {path : CString} {e : NsEntry}
    (found : longestMount path entries = some (e, rest)) :
    e.mntPath.text.length + rest.length = path.length := by
  induction entries with
  | nil => cases found
  | cons other entries ih =>
    rw [longestMount] at found
    cases here : remainder other.mntPath.text path with
    | none => exact ih (by simpa [here] using found)
    | some otherRest =>
      cases behind : longestMount path entries with
      | none =>
        obtain ⟨rfl, rfl⟩ : other = e ∧ otherRest = rest := by simpa [here, behind] using found
        exact remainder_length here
      | some pair =>
        simp only [here, behind] at found
        split at found
        · exact ih (behind.trans found)
        · obtain ⟨rfl, rfl⟩ := Prod.mk.inj (Option.some.inj found)
          exact remainder_length here

theorem longestMount_whole {path : CString} {e : NsEntry}
    (first : firstMount path entries = some (e, [])) :
    longestMount path entries = some (e, []) := by
  induction entries with
  | nil => cases first
  | cons other entries ih =>
    rw [firstMount] at first
    rw [longestMount]
    cases matched : componentRemainder other.mntPath.text path with
    | some found =>
      obtain ⟨rfl, rfl⟩ : other = e ∧ found = [] := by simpa [matched] using first
      have here := remainder_of_component matched
      have whole := remainder_length here
      rw [here]
      cases behind : longestMount path entries with
      | none => rfl
      | some pair =>
        have := longestMount_length behind
        simp only [length_nil] at whole
        simp only
        rw [if_neg (by omega)]
    | none =>
      have behind := ih (by simpa [matched] using first)
      rcases remainder_of_none matched with passed | ⟨isRoot, -, long⟩
      · rw [passed, behind]
      · cases here : remainder other.mntPath.text path with
        | none => rw [behind]
        | some found =>
          have whole := longestMount_length behind
          have short : other.mntPath.text.length = 1 := by rw [isRoot]; rfl
          simp only [length_nil] at whole
          simp only [behind]
          rw [if_pos (by omega)]

variable {ns : NsTable} {path : CString}

theorem translates_of_holds {text : CString} (resolves : ∀ (out : CArray UInt8 outSz) stack, ∃ out',
      nsResolve ns path out stack = .ok (out', 0) ∧ out'.Holds text) :
    (∀ (out : CArray UInt8 outSz) stack, Translates ns path out stack) ↔
      translation ns path = some text := by
  constructor
  · intro always
    obtain ⟨out', ran, holds⟩ := resolves (fill 0) (fill 0)
    obtain ⟨expected, isTranslation, holdsToo⟩ := (always (fill 0) (fill 0)).complete out' ran
    rw [isTranslation, holds.unique holdsToo]
  · intro isTranslation out stack
    obtain ⟨out', ran, holds⟩ := resolves out stack
    have fits := holds.fits
    refine ⟨⟨out', 0, ran⟩, fun left ranToo => ?_, fun other isToo long => ?_,
      fun _ _ _ _ => ⟨out', ran⟩⟩
    · obtain ⟨rfl, -⟩ := Prod.mk.inj (Except.ok.inj (ran.symm.trans ranToo))
      exact ⟨text, isTranslation, holds⟩
    · obtain rfl := Option.some.inj (isTranslation.symm.trans isToo)
      omega

theorem translates_of_failed
    (resolves : ∀ (out : CArray UInt8 outSz) stack, nsResolve ns path out stack = .ok (out, -1)) :
    (∀ (out : CArray UInt8 outSz) stack, Translates ns path out stack) ↔
      (RootMounted ns path → ∀ text, translation ns path = some text → outSz ≤ text.length) := by
  constructor
  · intro always rooted text isTranslation
    by_contra fits
    obtain ⟨out', ran⟩ :=
      (always (fill 0) (fill 0)).root rooted text isTranslation (Nat.not_le.mp fits)
    rw [resolves] at ran
    cases ran
  · intro short out stack
    have ran := resolves out stack
    refine ⟨⟨out, -1, ran⟩, fun left ranToo => ?_, fun text isTranslation long left rc ranToo => ?_,
      fun rooted text isTranslation fits => ?_⟩
    · rw [ran] at ranToo
      cases ranToo
    · rw [ran] at ranToo
      exact (Prod.mk.inj (Except.ok.inj ranToo)).2.symm
    · exact absurd (short rooted text isTranslation) (Nat.not_le.mpr fits)

theorem translates_joined_iff {target : CString} (empty : outSz ≠ 0) (typed : outSz < 4294967296)
    (noNul : 0 ∉ target) (whole : rest ≠ []) (slashed : rest.head? = some slash)
    (joins : ∀ (out : CArray UInt8 outSz) stack, ∃ buffer : CArray UInt8 256, buffer.Holds rest ∧
      nsResolve ns path out stack = nsJoin target out buffer) :
    (∀ (out : CArray UInt8 outSz) stack, Translates ns path out stack) ↔
      (target ≠ [] ∧ target.length + rest.length + 1 < outSz ∧
          translation ns path = some (underTarget target rest)) ∨
        (outSz ≤ target.length + rest.length + 1 ∧
          translation ns path = some (target.take (outSz - 1))) := by
  by_cases fits : target.length + rest.length + 1 < outSz
  · rw [or_iff_left fun both => absurd both.1 (Nat.not_le.mpr fits)]
    by_cases someTarget : target = []
    · refine iff_of_false (fun always => ?_) fun both => both.1 someTarget
      obtain ⟨out', rc, ran⟩ := (always (fill 0) (fill 0)).inside
      obtain ⟨buffer, holds, joins⟩ := joins (fill 0) (fill 0)
      rw [joins, someTarget, nsJoin_empty typed whole holds (by omega)] at ran
      cases ran
    · rw [and_iff_right someTarget, and_iff_right fits]
      refine translates_of_holds fun out stack => ?_
      obtain ⟨buffer, holds, joins⟩ := joins out stack
      rw [joins]
      exact nsJoin_fits noNul someTarget whole slashed holds fits typed
  · rw [or_iff_right fun all => fits all.2.1, and_iff_right (Nat.not_lt.mp fits)]
    refine translates_of_holds fun out stack => ?_
    obtain ⟨buffer, holds, joins⟩ := joins out stack
    rw [joins]
    exact nsJoin_cut empty noNul whole holds (Nat.not_lt.mp fits)

/-- A path is resolved as it must be exactly when it is translatable. -/
theorem nsResolve_iff (noNul : 0 ∉ path) (typed : outSz < 4294967296) :
    (∀ (out : CArray UInt8 outSz) stack, Translates ns path out stack) ↔
      Translatable ns path outSz := by
  by_cases empty : outSz = 0
  · refine iff_of_true ?_ (.inl empty)
    refine (translates_of_failed fun out stack => ?_).mpr fun _ text _ => ?_
    · rw [nsResolve, if_pos empty]
    · rw [empty]
      exact Nat.zero_le _
  have run : ∀ (out : CArray UInt8 outSz) stack, nsResolve ns path out stack = _ :=
    fun out stack => by rw [nsResolve, if_neg empty, nsResolveLoop_eq noNul]
  rw [Translatable, or_iff_right empty]
  cases first : firstMount path ns.entries with
  | none =>
    simp only [first] at run
    exact translates_of_failed run
  | some found =>
    obtain ⟨e, rest⟩ := found
    simp only [first] at run
    obtain ⟨noNulRest, shape⟩ := firstMount_some noNul first
    by_cases whole : rest = []
    · subst whole
      simp only [if_true] at run ⊢
      have isTranslation : translation ns path = some e.targetPath.text := by
        rw [translation, longestMount_whole first]
        rfl
      rw [translates_of_holds fun out stack => by
        rw [run]
        exact nsJoin_whole empty e.targetPath.noNul (update_self 0 0 stack.cell),
        isTranslation,
        Option.some_inj]
      constructor
      · intro same
        have := congrArg List.length same
        rw [List.length_take] at this
        omega
      · intro fits
        rw [take_of_length_le (by omega)]
    · have slashed := shape.resolve_left whole
      simp only [if_neg whole] at run ⊢
      by_cases short : rest.length < 255
      · have joins : ∀ (out : CArray UInt8 outSz) stack, ∃ buffer, buffer.Holds rest ∧
            nsResolve ns path out stack = nsJoin e.targetPath.text out buffer := by
          intro out stack
          obtain ⟨buffer, stored, holds⟩ := rest_stored noNulRest short
            (⟨update stack.cell 0 0⟩ : CArray UInt8 256)
          exact ⟨buffer, holds, by rw [run, stored, ok_bind]⟩
        rw [and_iff_right short]
        exact translates_joined_iff empty typed e.targetPath.noNul whole slashed joins
      · refine iff_of_false (fun always => ?_) fun both => short both.1
        obtain ⟨out', rc, ran⟩ := (always (fill 0) (fill 1)).inside
        obtain ⟨buffer, stored, unterminated⟩ := rest_unterminated noNulRest (Nat.not_lt.mp short)
          ⟨update (fill 1 : CArray UInt8 256).cell 0 0⟩ (by decide)
        rw [run, stored, ok_bind, nsJoin_unterminated empty e.targetPath.noNul unterminated] at ran
        cases ran

def oneMount (mnt target : CString) (mntNoNul : 0 ∉ mnt) (targetNoNul : 0 ∉ target) : NsTable where
  entries := [⟨.of mnt mntNoNul, .of target targetNoNul, 0⟩]
  bounded := show 1 ≤ nsEntries by decide

/-- Two mounts, one below the other, and a path under each of them. -/
theorem nsResolve_iff_below :
    ∃ ns, ((nsSet nsInit (cstr "/usr/local") (cstr "/sys/local/") (by decide) (by decide) 0).bind
        fun ns => nsSet ns (cstr "/usr") (cstr "/sys/usr") (by decide) (by decide) 0) = some ns ∧
      Translates ns (cstr "/usr/bin") (fill 0 : CArray UInt8 64) (fill 1) ∧
      Translates ns (cstr "/usr/local/bin") (fill 0 : CArray UInt8 64) (fill 1) := by
  refine ⟨_, rfl, ?_, ?_⟩
  · refine (nsResolve_iff (by decide) (by decide)).mpr (.inr ?_) (fill 0) (fill 1)
    change _ ∧ _
    decide
  · refine (nsResolve_iff (by decide) (by decide)).mpr (.inr ?_) (fill 0) (fill 1)
    change _ ∧ _
    decide

/-- Below a mount at the root nothing is translated. -/
theorem not_nsResolve : ¬ ∀ (ns : NsTable) (path : CString) (outSz : Nat), 0 ∉ path →
    outSz < 4294967296 → ∀ (out : CArray UInt8 outSz) stack, Translates ns path out stack := by
  intro always
  have rooted :=
    (always (oneMount (cstr "/") (cstr "/sys") (by decide) (by decide)) (cstr "/usr") 64
    (by decide) (by decide) (fill 0) (fill 0)).root
  obtain ⟨out', ran⟩ := rooted ⟨rfl, _, mem_singleton_self _, rfl⟩ (cstr "/sys/usr") rfl
    (by decide)
  cases ran

end M4KK1.Kernel
