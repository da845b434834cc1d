import M4KK1.Shell.Restored

/-!
# When the descriptors are given back

Every way out of `exec_one` behind a redirection skips what restores.
-/

namespace M4KK1.Shell

open Function List Posix

variable {P : Posix} {s t : Table} {saved saved' : Saved} {base : Nat}

theorem redirections_keeps (I : Saved → Table → Prop)
    (step : ∀ saved s way, I saved s → (∃ t, redirect P saved s way = .error t ∧ I saved t) ∨
      ∃ saved' t, redirect P saved s way = .ok (saved', t) ∧ I saved' t)
    (words argv : List Text) (saved : Saved) (s : Table) (holds : I saved s) :
    (∃ saved' t, redirections P argv saved s words = .failed t ∧ I saved' t) ∨
      ∃ argv' saved' t, redirections P argv saved s words = .done argv' saved' t ∧ I saved' t := by
  fun_induction redirections P argv saved s words with
  | case1 argv saved s => exact .inr ⟨argv, saved, s, rfl, holds⟩
  | case2 argv saved s word rest isWord ih => exact ih holds
  | case3 argv saved s word way isWord => exact .inl ⟨saved, s, rfl, holds⟩
  | case4 argv saved s word way isWord name rest t isError =>
    rcases step saved s way holds with ⟨t', isError', holds'⟩ | ⟨saved', t', isOk, -⟩
    · rw [isError] at isError'
      cases isError'
      exact .inl ⟨saved, t, rfl, holds'⟩
    · rw [isError] at isOk
      cases isOk
  | case5 argv saved s word way isWord name rest saved' t isOk ih =>
    rcases step saved s way holds with ⟨t', isError, -⟩ | ⟨saved'', t', isOk', holds'⟩
    · rw [isOk] at isError
      cases isError
    · rw [isOk] at isOk'
      cases isOk'
      exact ih holds'

theorem Direction.call_eq (way : Direction) (s : Table) :
    way.call s.calls = match way with
      | .input => s.calls
      | .output isAppend => (readOld P isAppend s).calls := by
  cases way with
  | input => rfl
  | output isAppend => cases isAppend <;> simp [readOld_calls, Direction.call]

namespace LostOut

theorem redirect (lost : LostOut base saved s) (way : Direction) :
    (∃ t, Shell.redirect P saved s way = .error t ∧ LostOut base saved t) ∨
      ∃ saved' t, Shell.redirect P saved s way = .ok (saved', t) ∧ LostOut base saved' t ∧
        (saved.restoreOut = true → saved'.restoreOut = true) := by
  cases way with
  | input =>
    rcases lost.redirectIn (P := P) with failed | ⟨saved', t, isOk, lost', same⟩
    · exact .inl failed
    · exact .inr ⟨saved', t, isOk, lost', fun restores => same.trans restores⟩
  | output isAppend =>
    rcases lost.redirectOut (P := P) isAppend with failed | ⟨saved', t, isOk, lost', restores⟩
    · exact .inl failed
    · exact .inr ⟨saved', t, isOk, lost', fun _ => restores⟩

theorem restored (lost : LostOut base saved s) :
    Fresh base ((restoreIn P saved (restoreOut P saved s)).fds 1) ∧
      base ≤ (restoreIn P saved (restoreOut P saved s)).next := by
  have behindOut : Fresh base ((restoreOut P saved s).fds 1) ∧
      base ≤ (restoreOut P saved s).next := by
    rw [restoreOut]
    split
    · next restores =>
      obtain ⟨isCopy, f, isFile, later⟩ := lost.copy restores
      rw [isCopy]
      have kept : ∀ d ≠ some 1, ∀ t : Table, (Posix.scClose t d).fds 1 = t.fds 1 := by
        intro d other t
        cases d with
        | none => rfl
        | some d =>
          have differ : 1 ≠ d := fun same => other (by rw [same])
          simp [differ]
      refine ⟨⟨f, ?_, later⟩, by simpa using lost.next⟩
      dsimp only
      rw [kept _ lost.redirectFd, kept _ (by simp)]
      simp [scDup2_fds, isFile]
    · exact ⟨lost.stdout, lost.next⟩
  rw [restoreIn]
  split
  · next restores =>
    have other := lost.savedIn restores
    cases isSaved : saved.savedIn with
    | none => simpa [scDup2_fds, Posix.scClose] using behindOut
    | some d =>
      have differ : 1 ≠ d := fun same => other (by rw [isSaved, same])
      simpa [scDup2_fds, differ] using behindOut
  · exact behindOut

end LostOut

namespace LostIn

theorem redirect (lost : LostIn base saved s) (way : Direction) :
    (∃ t, Shell.redirect P saved s way = .error t ∧ LostIn base saved t) ∨
      ∃ saved' t, Shell.redirect P saved s way = .ok (saved', t) ∧ LostIn base saved' t := by
  cases way with
  | input => exact lost.redirectIn
  | output isAppend => exact lost.redirectOut isAppend

theorem restored (lost : LostIn base saved s) :
    Fresh base ((restoreIn P saved (restoreOut P saved s)).fds 0) := by
  have kept : ∀ e d, d ≠ some e → ∀ t : Table, (Posix.scClose t d).fds e = t.fds e := by
    intro e d other t
    cases d with
    | none => rfl
    | some d =>
      have differ : e ≠ d := fun same => other (by rw [same])
      simp [differ]
  have behindOut : (restoreOut P saved s).fds 11 = s.fds 11 := by
    rw [restoreOut]
    split
    · next restores =>
      dsimp only
      rw [kept 11 _ lost.redirectFd.2, kept 11 _ (lost.savedOut restores).2]
      simp [scDup2_fds]
    · rfl
  obtain ⟨f, isFile, later⟩ := lost.copy
  rw [restoreIn, if_pos lost.restores, lost.savedIn]
  refine ⟨f, ?_, later⟩
  simp [scDup2_fds, behindOut, isFile]

end LostIn

/-- The redirections are the first of their kinds, and all find what they need. -/
def Fits (inputs outputs : Bool) (found : List (Direction × Bool)) : Prop :=
  (∀ r ∈ found, r.2 = true) ∧
    found.countP (fun r => !r.1.isOutput) + inputs.toNat ≤ 1 ∧
    found.countP (fun r => r.1.isOutput) + outputs.toNat ≤ 1

theorem fits_cons {inputs outputs granted : Bool} {direction : Direction}
    {found : List (Direction × Bool)} :
    Fits inputs outputs ((direction, granted) :: found) ↔
      granted = true ∧ (if direction.isOutput then outputs = false else inputs = false) ∧
        Fits (inputs || !direction.isOutput) (outputs || direction.isOutput) found := by
  simp only [Fits, forall_mem_cons, countP_cons]
  cases direction.isOutput <;> cases inputs <;> cases outputs <;> simp [and_assoc]

namespace OnTheWay

section

variable (way : OnTheWay s saved t)

include way

theorem redirect (usual : s.Usual) (direction : Direction)
    (granted : P.grants (direction.call t.calls) = true)
    (first : if direction.isOutput then saved.restoreOut = false else saved.restoreIn = false) :
    ∃ saved' t', Shell.redirect P saved t direction = .ok (saved', t') ∧ OnTheWay s saved' t' ∧
      t'.calls = direction.call t.calls + 1 ∧
      saved'.restoreIn = (saved.restoreIn || !direction.isOutput) ∧
      saved'.restoreOut = (saved.restoreOut || direction.isOutput) := by
  rw [Direction.call_eq (P := P)] at granted ⊢
  cases direction with
  | input =>
    obtain ⟨saved', t', isOk, way', calls, restores, same⟩ := way.input usual first granted
    exact ⟨saved', t', isOk, way',
      calls, by simp [restores, Direction.isOutput], by simp [same, Direction.isOutput]⟩
  | output isAppend =>
    obtain ⟨saved', t', isOk, way', calls, same, restores⟩ :=
      way.output usual first isAppend granted
    exact ⟨saved', t', isOk, way',
      calls, by simp [same, Direction.isOutput], by simp [restores, Direction.isOutput]⟩

theorem refused (usual : s.Usual) (direction : Direction)
    (isRefused : P.grants (direction.call t.calls) = false) :
    ∃ t', Shell.redirect P saved t direction = .error t' ∧ OnTheWay s saved t' := by
  rw [Direction.call_eq (P := P)] at isRefused
  have refuses : ∀ u : Table, P.grants u.calls = false →
      P.scOpen u = (none, { u with calls := u.calls + 1 }) := by
    intro u isRefused
    rw [Posix.scOpen, isRefused]
  cases direction with
  | input =>
    refine ⟨_, redirectIn_refused saved (refuses t isRefused), ?_⟩
    exact { way with }
  | output isAppend =>
    replace way := way.readOld (P := P) usual isAppend
    refine ⟨_, redirectOut_refused saved (refuses _ isRefused), ?_⟩
    exact { way with }

theorem inputAgain (usual : s.Usual) (restores : saved.restoreIn = true)
    (granted : P.grants t.calls = true) :
    ∃ saved' t', redirectIn P saved t = .ok (saved', t') ∧ LostIn s.next saved' t' := by
  obtain ⟨d, isLowest, atLeast, below, notQ, isClosed⟩ := way.room (P := P) usual
  have isOpened : P.scOpen t = (some d, Posix.install { t with calls := t.calls + 1 } d) := by
    rw [Posix.scOpen, granted, isLowest]
  refine ⟨_, _, redirectIn_eq saved isOpened, ?_⟩
  obtain ⟨⟨f, isFile, later⟩, -, -⟩ := way.stdinSaved restores
  have next := way.next
  constructor
  case stdin =>
    exact ⟨t.next, by simp [scDup2_fds, show (0 : Nat) ≠ d by omega, show d ≠ 11 by omega], next⟩
  case restores => rfl
  case savedIn => exact scDup2_fst _ _ _ (by omega) (by simp [show (0 : Nat) ≠ d by omega, isFile])
  case copy =>
    exact ⟨f, by
      simp [scDup2_fds, show (0 : Nat) ≠ d by omega, show (11 : Nat) ≠ d by omega, isFile], later⟩
  case savedOut =>
    intro restoresOut
    rw [(way.stdoutSaved restoresOut).2.1]
    simp
  case redirectFd =>
    dsimp only
    cases restoresOut : saved.restoreOut with
    | false => simp [(way.stdout restoresOut).2.1]
    | true =>
      obtain ⟨-, -, -, q, isQ, low, high, -⟩ := way.stdoutSaved restoresOut
      rw [isQ]
      exact ⟨by simp only [ne_eq, Option.some.injEq]; omega, by
        simp only [ne_eq, Option.some.injEq]; omega⟩
  case next =>
    simp
    omega

theorem outputAgain (usual : s.Usual) (restores : saved.restoreOut = true)
    (isAppend : Bool) (granted : P.grants (Shell.readOld P isAppend t).calls = true) :
    ∃ saved' t', redirectOut P isAppend saved t = .ok (saved', t') ∧ LostOut s.next saved' t' ∧
      saved'.restoreOut = true := by
  replace way := way.readOld (P := P) usual isAppend
  obtain ⟨d, isLowest, atLeast, below, notQ, isClosed⟩ := way.room (P := P) usual
  have isOpened : P.scOpen (Shell.readOld P isAppend t) = (some d, Posix.install
      { Shell.readOld P isAppend t with calls := (Shell.readOld P isAppend t).calls + 1 } d) := by
    rw [Posix.scOpen, granted, isLowest]
  refine ⟨_, _, redirectOut_eq saved isOpened, ?_, rfl⟩
  generalize Shell.readOld P isAppend t = t at *
  obtain ⟨⟨f, isFile, later⟩, -⟩ := way.stdoutSaved restores
  have next := way.next
  constructor
  case stdout =>
    exact ⟨t.next, by simp [scDup2_fds, show d ≠ 10 by omega], next⟩
  case copy =>
    intro _
    exact ⟨scDup2_fst _ _ _ (by omega) (by simp [show (1 : Nat) ≠ d by omega, isFile]), f,
      by simp [scDup2_fds, show (1 : Nat) ≠ d by omega, isFile], later⟩
  case savedIn =>
    intro restoresIn
    rw [(way.stdinSaved restoresIn).2.1]
    simp
  case redirectFd => simp only [ne_eq, Option.some.injEq]; omega
  case next =>
    simp
    omega

theorem fresh (redirected : saved.restoreIn = true ∨ saved.restoreOut = true) :
    Fresh s.next (t.fds 0) ∨ Fresh s.next (t.fds 1) := by
  rcases redirected with restores | restores
  · exact .inl (way.stdinSaved restores).1
  · exact .inr (way.stdoutSaved restores).1

theorem again (usual : s.Usual) (direction : Direction)
    (granted : P.grants (direction.call t.calls) = true)
    (second : ¬if direction.isOutput then saved.restoreOut = false else saved.restoreIn = false) :
    ∃ saved' t', Shell.redirect P saved t direction = .ok (saved', t') ∧
      (LostIn s.next saved' t' ∨ LostOut s.next saved' t' ∧ saved'.restoreOut = true) := by
  rw [Direction.call_eq (P := P)] at granted
  cases direction with
  | input =>
    obtain ⟨saved', t', isOk, lost⟩ :=
      way.inputAgain usual (by simpa [Direction.isOutput] using second) granted
    exact ⟨saved', t', isOk, .inl lost⟩
  | output isAppend =>
    obtain ⟨saved', t', isOk, lost, restores⟩ :=
      way.outputAgain usual (by simpa [Direction.isOutput] using second) isAppend granted
    exact ⟨saved', t', isOk, .inr ⟨lost, restores⟩⟩

theorem fits (usual : s.Usual) (words argv : List Text)
    (isFit : Fits saved.restoreIn saved.restoreOut (redirectionsOf P t.calls words)) :
    ∃ argv' saved' t', redirections P argv saved t words = .done argv' saved' t' ∧
      OnTheWay s saved' t' ∧
      saved'.restoreOut = (saved.restoreOut ||
        (redirectionsOf P t.calls words).any fun r => r.1.isOutput) := by
  fun_induction redirections P argv saved t words with
  | case1 argv saved t => exact ⟨argv, saved, t, rfl, way, by simp [redirectionsOf]⟩
  | case2 argv saved t word rest isWord ih =>
    rw [redirectionsOf, isWord] at isFit ⊢
    exact ih way isFit
  | case3 argv saved t word direction isWord =>
    rw [redirectionsOf, isWord] at isFit
    exact absurd (isFit.1 _ (mem_singleton.mpr rfl)) (by simp)
  | case4 argv saved t word direction isWord name rest t' isError =>
    rw [redirectionsOf, isWord] at isFit
    obtain ⟨granted, first, -⟩ := fits_cons.mp isFit
    obtain ⟨saved', t'', isOk, -⟩ := way.redirect usual direction granted first
    rw [isError] at isOk
    cases isOk
  | case5 argv saved t word direction isWord name rest saved' t' isOk ih =>
    rw [redirectionsOf, isWord] at isFit ⊢
    obtain ⟨granted, first, isFit'⟩ := fits_cons.mp isFit
    obtain ⟨saved'', t'', isOk', way', calls, inputs, outputs⟩ :=
      way.redirect usual direction granted first
    rw [isOk] at isOk'
    cases isOk'
    rw [← calls, ← inputs, ← outputs] at isFit'
    obtain ⟨argv', saved'', t'', isDone, way'', restores⟩ := ih way' isFit'
    refine ⟨argv', saved'', t'', isDone, way'', ?_⟩
    rw [restores, outputs, calls, any_cons, Bool.or_assoc]

theorem failed (usual : s.Usual) (words argv : List Text) {direction : Direction}
    (isFirst : (redirectionsOf P t.calls words).head? = some (direction, false)) :
    ∃ t', redirections P argv saved t words = .failed t' ∧ OnTheWay s saved t' := by
  fun_induction redirections P argv saved t words with
  | case1 argv saved t => simp [redirectionsOf] at isFirst
  | case2 argv saved t word rest isWord ih =>
    rw [redirectionsOf, isWord] at isFirst
    exact ih way isFirst
  | case3 argv saved t word direction' isWord => exact ⟨t, rfl, way⟩
  | case4 argv saved t word direction' isWord name rest t' isError =>
    rw [redirectionsOf, isWord] at isFirst
    obtain ⟨t'', isError', way'⟩ :=
      way.refused usual direction' (congrArg Prod.snd (Option.some.inj isFirst))
    rw [isError] at isError'
    cases isError'
    exact ⟨t', rfl, way'⟩
  | case5 argv saved t word direction' isWord name rest saved' t' isOk ih =>
    rw [redirectionsOf, isWord] at isFirst
    obtain ⟨t'', isError, -⟩ :=
      way.refused usual direction' (congrArg Prod.snd (Option.some.inj isFirst))
    rw [isOk] at isError
    cases isError

theorem kept {t' : Table} (kept : t.Kept t') : OnTheWay s saved t' := by
  obtain ⟨lives, lived, isLife⟩ := way.lives
  constructor
  case stdin => rw [kept.fds]; exact way.stdin
  case stdinSaved => rw [kept.fds]; exact way.stdinSaved
  case stdout => rw [kept.fds, kept.outFd]; exact way.stdout
  case stdoutSaved => rw [kept.fds]; exact way.stdoutSaved
  case others => rw [kept.fds]; exact way.others
  case next => exact Nat.le_trans way.next kept.next
  case lives => exact ⟨lives, lived.noted kept.changes, isLife⟩

end

end OnTheWay

/-- The table behind the restoring of descriptor 1. -/
structure OnTheWayBack (s : Table) (saved : Saved) (s' : Table) : Prop where
  stdin : saved.restoreIn = false → s'.fds 0 = s.fds 0
  stdinSaved : saved.restoreIn = true → saved.savedIn = some 11 ∧ s'.fds 11 = s.fds 0
  stdout : s'.fds 1 = s.fds 1
  outFd : s'.outFd = s.outFd
  lives : ∃ lives, Lived s s' lives ∧ ∀ d, 2 ≤ d →
      (saved.restoreIn = true ∧ d = 11 → lives d = .held) ∧
    (¬(saved.restoreIn = true ∧ d = 11) → lives d = .untouched ∨ lives d = .released)

theorem OnTheWay.restoreOut (way : OnTheWay s saved t) (usual : s.Usual)
    (outFd : saved.restoreOut = true → s.outFd = 1) :
    OnTheWayBack s saved (Shell.restoreOut P saved t) := by
  obtain ⟨lives, lived, isLife⟩ := way.lives
  rw [Shell.restoreOut]
  cases restores : saved.restoreOut with
  | false =>
    obtain ⟨same, noFd, sameOut⟩ := way.stdout restores
    rw [if_neg Bool.false_ne_true]
    refine ⟨way.stdin, fun restoresIn => (way.stdinSaved restoresIn).2, same, sameOut, lives, lived,
      fun d other => ?_⟩
    refine ⟨fun holds => (isLife d other).1 (.inl holds), fun idle => ?_⟩
    rcases (isLife d other).2 (by simpa [Saved.Holds, restores] using idle) with isIdle | ⟨-,
      isIdle⟩
    · exact .inl isIdle
    · exact .inr isIdle
  | true =>
    obtain ⟨fresh, isCopy, same, q, isQ, low, high, isOpen⟩ := way.stdoutSaved restores
    obtain ⟨f, isFile⟩ := Option.ne_none_iff_exists'.mp usual.stdout
    rw [if_pos rfl, isCopy, isQ]
    constructor
    case stdin =>
      intro restoresIn
      simpa [scDup2_fds, show (0 : Nat) ≠ q by omega] using way.stdin restoresIn
    case stdinSaved =>
      intro restoresIn
      obtain ⟨-, isCopyIn, sameIn⟩ := way.stdinSaved restoresIn
      exact ⟨isCopyIn, by simpa [scDup2_fds, show (11 : Nat) ≠ q by omega] using sameIn⟩
    case stdout => simp [scDup2_fds, show (1 : Nat) ≠ q by omega, same, isFile]
    case outFd => exact (outFd restores).symm
    case lives =>
      have lived :=
        lived.copiedLow (P := P) 10 1 (by rw [same]; exact usual.stdout) (by omega) (by omega)
      have lived := lived.closed (d := 10) ((isLife 10 (by omega)).1 (.inr ⟨restores, .inl rfl⟩))
      have lived := lived.closed (d := q) (by
        rw [update_of_ne (by omega)]
        exact (isLife q low).1 (.inr ⟨restores, .inr isQ⟩))
      refine ⟨_, lived.noted rfl, fun d other => ?_⟩
      by_cases isD : d = q
      · subst isD
        exact ⟨fun holds => by omega, fun _ => .inr (by simp)⟩
      by_cases isTen : d = 10
      · subst isTen
        exact ⟨fun holds => by omega, fun _ => .inr (by simp [isD])⟩
      rw [update_of_ne isD, update_of_ne isTen]
      refine ⟨fun holds => (isLife d other).1 (.inl holds), fun idle => ?_⟩
      have notHeld : ¬saved.Holds d := by
        rintro (holds | ⟨-, isTen' | isD'⟩)
        · exact idle holds
        · exact isTen isTen'
        · exact isD (Option.some.inj (isD'.symm.trans isQ))
      rcases (isLife d other).2 notHeld with isIdle | ⟨-, isIdle⟩
      · exact .inl isIdle
      · exact .inr isIdle

theorem OnTheWayBack.restoreIn (way : OnTheWayBack s saved t) (usual : s.Usual) :
    Restored s (Shell.restoreIn P saved t) := by
  obtain ⟨lives, lived, isLife⟩ := way.lives
  rw [Shell.restoreIn]
  cases restores : saved.restoreIn with
  | false =>
    obtain ⟨changes, isSince, isLived⟩ := lived
    refine ⟨way.stdin restores, way.stdout, way.outFd, changes, isSince, fun d other => ?_⟩
    rw [isLived d other]
    exact (isLife d other).2 (by simp [restores])
  | true =>
    obtain ⟨isCopy, same⟩ := way.stdinSaved restores
    obtain ⟨f, isFile⟩ := Option.ne_none_iff_exists'.mp usual.stdin
    rw [if_pos rfl, isCopy]
    have lived :=
      lived.copiedLow (P := P) 11 0 (by rw [same]; exact usual.stdin) (by omega) (by omega)
    have lived := lived.closed (d := 11) ((isLife 11 (by omega)).1 ⟨restores, rfl⟩)
    obtain ⟨changes, isSince, isLived⟩ := lived
    refine ⟨?_, ?_, ?_, changes, isSince, fun d other => ?_⟩
    · simp [scDup2_fds, same, isFile]
    · simpa [scDup2_fds] using way.stdout
    · simpa using way.outFd
    · rw [isLived d other]
      by_cases isD : d = 11
      · subst isD
        exact .inr (by simp)
      · rw [update_of_ne isD]
        exact (isLife d other).2 fun holds => isD holds.2

/-- The commands close what they open. -/
def Commands.Keep (cmdTable : Commands) : Prop :=
  ∀ name func, cmdTable name = some func → ∀ argv s, Table.Kept s (func argv s)

theorem Posix.scPipe_cases (s : Table) :
    (∃ d e, d < e ∧ s.fds d = none ∧ s.fds e = none ∧ P.scPipe s =
      (some (d, e), install (install { s with calls := s.calls + 1 } d) e)) ∨
    P.scPipe s = (none, { s with calls := s.calls + 1 }) := by
  rw [scPipe]
  cases P.grants s.calls with
  | false => exact .inr rfl
  | true =>
    cases isLowest : P.lowest s.fds with
    | none => exact .inr rfl
    | some d =>
      dsimp only
      cases isNext : P.lowest (install { s with calls := s.calls + 1 } d).fds with
      | none => exact .inr rfl
      | some e =>
        have dClosed := lowest_closed isLowest
        have eClosed := lowest_closed isNext
        rw [install_fds] at eClosed
        have differ : e ≠ d := by
          rintro rfl
          simp at eClosed
        rw [if_neg differ] at eClosed
        obtain ⟨d', atMost, isLowest'⟩ :=
          P.lowest_le eClosed (mem_range.mp (mem_of_find?_eq_some isNext))
        obtain rfl : d = d' := Option.some.inj (isLowest.symm.trans isLowest')
        exact .inl ⟨d, e, by omega, dClosed, eClosed, rfl⟩

/-- Descriptor 1 refers to a file of the call between the stages of a pipeline. -/
structure Piped (base : Nat) (s : Table) : Prop where
  stdout : Fresh base (s.fds 1)
  next : base ≤ s.next

namespace Piped

theorem execOne (piped : Piped base s) {cmdTable : Commands} (keep : cmdTable.Keep) (line : Text) :
    Piped base (execOne P cmdTable line s) := by
  rw [Shell.execOne]
  cases commandWords s.envars line with
  | nil => exact piped
  | cons name args =>
    dsimp only
    cases isCommand : cmdTable name with
    | none => exact piped
    | some func =>
      dsimp only
      have lost : LostOut base .initial s :=
        ⟨piped.stdout, fun restores => absurd restores (by decide),
          fun restores => absurd restores (by decide),
          by simp [Saved.initial], piped.next⟩
      have step : ∀ (saved : Saved) (s : Table) (way : Direction), LostOut base saved s →
          (∃ t, redirect P saved s way = .error t ∧ LostOut base saved t) ∨
            ∃ saved' t, redirect P saved s way = .ok (saved', t) ∧ LostOut base saved' t := by
        intro saved s way lost
        rcases lost.redirect (P := P) way with failed | ⟨saved', t, isOk, lost', -⟩
        · exact .inl failed
        · exact .inr ⟨saved', t, isOk, lost'⟩
      rcases redirections_keeps (P := P) _ step (name :: args) [] .initial s lost with
        ⟨saved', t, isFailed, lost'⟩ | ⟨argv, saved', t, isDone, lost'⟩
      · rw [isFailed]
        exact ⟨lost'.stdout, lost'.next⟩
      · rw [isDone]
        have kept := keep name func isCommand argv t
        have restored := (lost'.same kept.fds kept.next).restored (P := P)
        exact ⟨restored.1, restored.2⟩

theorem closed (piped : Piped base s) {d : Nat} (differ : d ≠ 1) :
    Piped base (Posix.scClose s (some d)) :=
  ⟨by simpa [Ne.symm differ] using piped.stdout, by simpa using piped.next⟩

theorem outFd (piped : Piped base s) (n : Nat) : Piped base { s with outFd := n } :=
  ⟨piped.stdout, piped.next⟩

theorem entered (piped : Piped base s) {prevRead : Option Nat} (differ : prevRead ≠ some 1) :
    Piped base (enterStage P s prevRead) := by
  cases prevRead with
  | none => exact piped
  | some d =>
    have notOut : 1 ≠ d := fun is => differ (by rw [is])
    exact ⟨by simpa [enterStage, scDup2_fds, notOut] using piped.stdout, by
      simpa [enterStage] using piped.next⟩

theorem left (piped : Piped base s) {prevRead : Option Nat} (differ : prevRead ≠ some 1) :
    Piped base (leaveStage s prevRead) := by
  cases prevRead with
  | none => exact piped
  | some d => exact (piped.closed fun is => differ (by rw [is])).closed (by omega)

theorem pipelineLoop {cmdTable : Commands} (keep : cmdTable.Keep) (parts : List Text)
    (prevRead : Option Nat)
    (s : Table) (piped : Piped base s) (differ : prevRead ≠ some 1) :
    Piped base (pipelineLoop P cmdTable prevRead s parts) := by
  induction parts generalizing prevRead s with
  | nil => exact piped
  | cons stage rest ih =>
    cases rest with
    | nil =>
      exact ((((piped.entered differ).outFd 1).execOne keep stage).left differ).outFd 1
    | cons next rest =>
      rw [Shell.pipelineLoop]
      rcases P.scPipe_cases s with ⟨d, e, less, dClosed, eClosed, isPipe⟩ | isRefused
      · rw [isPipe]
        have notD : d ≠ 1 := Ne.symm (piped.stdout.ne_closed dClosed)
        have notE : e ≠ 1 := Ne.symm (piped.stdout.ne_closed eClosed)
        have opened :
            Piped base (Posix.install (Posix.install { s with calls := s.calls + 1 } d) e) :=
          ⟨by simpa [Ne.symm notD, Ne.symm notE] using piped.stdout, by
            have := piped.next; simp; omega⟩
        have later : ∀ t : Table, Piped base t → (t.fds e = none ∨ Fresh base (t.fds e)) →
            Piped base (P.scDup2 t (some e) 1).2 := by
          intro t piped' isFresh
          refine ⟨?_, by simpa using piped'.next⟩
          rcases isFresh with isClosed | ⟨f, isFile, later⟩
          · simpa [scDup2_fds, isClosed] using piped'.stdout
          · exact ⟨f, by simp [scDup2_fds, isFile], later⟩
        have writeEnd : ∀ t : Table, t = enterStage P
            (Posix.install (Posix.install { s with calls := s.calls + 1 } d) e) prevRead →
            t.fds e = none ∨ Fresh base (t.fds e) := by
          rintro t rfl
          have atLeast := piped.next
          cases prevRead with
          | none => exact .inr ⟨s.next + 1, by simp [enterStage], by omega⟩
          | some d' =>
            by_cases same : e = d'
            · exact .inl (by simp [enterStage, same])
            · exact .inr
                ⟨s.next + 1, by simp [enterStage, scDup2_fds, same, show e ≠ 0 by omega], by omega⟩
        have ready := later _ (opened.entered (P := P) differ) (writeEnd _ rfl)
        exact ih _ _ (((((ready.outFd e).execOne keep stage).closed notE).left differ).outFd 1)
          fun is => notD (Option.some.inj is)
      · rw [isRefused]
        exact ⟨piped.stdout, piped.next⟩

end Piped

end M4KK1.Shell
