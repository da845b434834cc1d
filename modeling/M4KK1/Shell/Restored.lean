import M4KK1.Shell.Redirect

/-!
# Descriptors behind a command

A table is on its way back, with its copies held, or has lost what it needs.
-/

namespace M4KK1.Shell

open Function List Posix

variable {P : Posix} {s s' : Table} {saved saved' : Saved} {base : Nat}

def Direction.isOutput : Direction → Bool
  | .input => false
  | .output _ => true

/-- The call of `open` that decides on a redirection, behind the one that reads the old contents. -/
def Direction.call : Direction → Nat → Nat
  | .output true, calls => calls + 1
  | _, calls => calls

/-- The redirections among the words, in order, and whether each one finds what it needs. -/
@[simp] def redirectionsOf (P : Posix) : Nat → List Text → List (Direction × Bool)
  | _, [] => []
  | calls, word :: rest =>
    match direction word with
    | none => redirectionsOf P calls rest
    | some way =>
      match rest with
      | [] => [(way, false)]
      | _ :: rest' =>
        (way, P.grants (way.call calls)) :: redirectionsOf P (way.call calls + 1) rest'

/-- 0 and 1 are open, two descriptors below the copies are not. -/
structure Table.Usual (s : Table) : Prop where
  stdin : s.fds 0 ≠ none
  stdout : s.fds 1 ≠ none
  room : ∃ d e, d < e ∧ e < 10 ∧ s.fds d = none ∧ s.fds e = none
  older : ∀ d file, s.fds d = some file → file < s.next

/-- What a command does to the table, when it closes what it opens. -/
structure Table.Kept (s s' : Table) : Prop where
  fds : s'.fds = s.fds
  outFd : s'.outFd = s.outFd
  changes : s'.changes = s.changes
  next : s.next ≤ s'.next

/-- An open file that was opened in the call. -/
def Fresh (base : Nat) (file : Option Nat) : Prop := ∃ f, file = some f ∧ base ≤ f

theorem Fresh.isOpen {file : Option Nat} (fresh : Fresh base file) : file ≠ none := by
  obtain ⟨f, rfl, -⟩ := fresh
  exact Option.some_ne_none f

namespace Posix

theorem lowest_closed {fds : Nat → Option Nat} {d : Nat} (isLowest : P.lowest fds = some d) :
    fds d = none := by
  have closed := find?_some isLowest
  simpa using closed

theorem lowest_le {fds : Nat → Option Nat} {e : Nat} (closed : fds e = none)
    (exists_ : e < P.openMax) :
    ∃ d ≤ e, P.lowest fds = some d := by
  cases isLowest : P.lowest fds with
  | none =>
    have absent := find?_eq_none.mp isLowest e (mem_range.mpr exists_)
    simp [closed] at absent
  | some d =>
    refine ⟨d, ?_, rfl⟩
    by_contra above
    have earlier := (find?_range_eq_some.mp isLowest).2.2 e (by omega)
    simp [closed] at earlier

theorem scOpen_cases (s : Table) : (∃ d, P.grants s.calls = true ∧ P.lowest s.fds = some d ∧
      P.scOpen s = (some d, install { s with calls := s.calls + 1 } d)) ∨
    ((P.grants s.calls = true → P.lowest s.fds = none) ∧
      P.scOpen s = (none, { s with calls := s.calls + 1 })) := by
  rw [scOpen]
  cases P.grants s.calls with
  | false => exact .inr ⟨fun granted => absurd granted (by simp), rfl⟩
  | true =>
    cases P.lowest s.fds with
    | none => exact .inr ⟨fun _ => rfl, rfl⟩
    | some d => exact .inl ⟨d, rfl, rfl, rfl⟩

theorem scDup2_fds (s : Table) (old : Option Nat) {new : Nat} (small : new < 20) (x : Nat) :
    (P.scDup2 s old new).2.fds x = if x = new then (old.bind s.fds).or (s.fds x) else s.fds x := by
  have inside : ¬P.openMax ≤ new := by
    have := P.enough
    omega
  cases old with
  | none => simp [scDup2]
  | some d =>
    cases isFile : s.fds d with
    | none => simp [scDup2, isFile]
    | some file =>
      by_cases same : d = new
      · subst same
        by_cases atNew : x = d
        · subst atNew
          simp [scDup2, isFile, inside]
        · simp [scDup2, isFile, inside, atNew]
      · simp [scDup2, isFile, inside, same, update_apply]

theorem scDup2_fst (s : Table) (old new : Nat) (small : new < 20) (isOpen : s.fds old ≠ none) :
    (P.scDup2 s (some old) new).1 = some new := by
  have inside : ¬P.openMax ≤ new := by
    have := P.enough
    omega
  obtain ⟨file, isFile⟩ := Option.ne_none_iff_exists'.mp isOpen
  simp only [scDup2, Option.bind_some, isFile, if_neg inside]
  split <;> rfl

theorem scDup2_rest (s : Table) (old : Option Nat) (new : Nat) :
    ((P.scDup2 s old new).1 = some new ∨ (P.scDup2 s old new).1 = none) ∧
      ∃ fds changes, (P.scDup2 s old new).2 = { s with fds := fds, changes := changes } := by
  cases old with
  | none => exact ⟨.inr rfl, s.fds, s.changes, rfl⟩
  | some d =>
    cases isFile : s.fds d with
    | none => exact ⟨.inr (by simp [scDup2, isFile]), s.fds, s.changes, by simp [scDup2, isFile]⟩
    | some file =>
      simp only [scDup2, Option.bind_some, isFile]
      split
      · exact ⟨.inr rfl, s.fds, s.changes, rfl⟩
      · split
        · exact ⟨.inl rfl, s.fds, s.changes, rfl⟩
        · exact ⟨.inl rfl, _, _, rfl⟩

@[simp] theorem scDup2_next (s : Table) (old : Option Nat) (new : Nat) :
    (P.scDup2 s old new).2.next = s.next := by
  obtain ⟨-, fds, changes, isTable⟩ := scDup2_rest (P := P) s old new
  rw [isTable]

@[simp] theorem scDup2_calls (s : Table) (old : Option Nat) (new : Nat) :
    (P.scDup2 s old new).2.calls = s.calls := by
  obtain ⟨-, fds, changes, isTable⟩ := scDup2_rest (P := P) s old new
  rw [isTable]

@[simp] theorem scDup2_outFd (s : Table) (old : Option Nat) (new : Nat) :
    (P.scDup2 s old new).2.outFd = s.outFd := by
  obtain ⟨-, fds, changes, isTable⟩ := scDup2_rest (P := P) s old new
  rw [isTable]

@[simp] theorem scClose_fds (s : Table) (d x : Nat) :
    (scClose s (some d)).fds x = if x = d then none else s.fds x := by
  simp [scClose, update_apply]

@[simp] theorem scClose_next (s : Table) (d : Option Nat) : (scClose s d).next = s.next := by
  cases d <;> rfl

@[simp] theorem scClose_calls (s : Table) (d : Option Nat) : (scClose s d).calls = s.calls := by
  cases d <;> rfl

@[simp] theorem scClose_outFd (s : Table) (d : Option Nat) : (scClose s d).outFd = s.outFd := by
  cases d <;> rfl

@[simp] theorem install_fds (s : Table) (d x : Nat) :
    (install s d).fds x = if x = d then some s.next else s.fds x := by
  simp [install, update_apply]

@[simp] theorem install_next (s : Table) (d : Nat) : (install s d).next = s.next + 1 := rfl

@[simp] theorem install_calls (s : Table) (d : Nat) : (install s d).calls = s.calls := rfl

@[simp] theorem install_outFd (s : Table) (d : Nat) : (install s d).outFd = s.outFd := rfl

theorem scDup2_changes {s : Table} {old new : Nat} (small : new < 20) (isOpen : s.fds old ≠ none)
    (differ : old ≠ new) :
    ∃ implicit, (implicit = [] ∨ implicit = [Change.closed new]) ∧
      (P.scDup2 s (some old) new).2.changes = s.changes ++ implicit ++ [.opened new] := by
  have inside : ¬P.openMax ≤ new := by
    have := P.enough
    omega
  obtain ⟨file, isFile⟩ := Option.ne_none_iff_exists'.mp isOpen
  simp only [scDup2, Option.bind_some, isFile, if_neg inside, if_neg differ]
  refine ⟨_, ?_, rfl⟩
  split
  · exact .inr rfl
  · exact .inl rfl

theorem scClose_install (s : Table) {d : Nat} (isClosed : s.fds d = none) :
    (scClose (install s d) (some d)).fds = s.fds := by
  funext e
  by_cases isD : e = d
  · subst isD
    simp [isClosed]
  · simp [isD]

end Posix

theorem readOld_fds (isAppend : Bool) (s : Table) :
    (readOld P isAppend s).fds = s.fds ∧ s.next ≤ (readOld P isAppend s).next := by
  cases isAppend with
  | false => exact ⟨rfl, Nat.le_refl _⟩
  | true =>
    rw [readOld, if_pos rfl]
    rcases P.scOpen_cases s with ⟨d, -, isLowest, isOpened⟩ | ⟨-, isRefused⟩
    · rw [isOpened]
      exact ⟨scClose_install { s with calls := s.calls + 1 } (lowest_closed isLowest),
        Nat.le_succ _⟩
    · rw [isRefused]
      exact ⟨rfl, Nat.le_refl _⟩

theorem readOld_calls (isAppend : Bool) (s : Table) :
    (readOld P isAppend s).calls = if isAppend then s.calls + 1 else s.calls := by
  cases isAppend with
  | false => rfl
  | true =>
    rw [readOld, if_pos rfl]
    rcases P.scOpen_cases s with ⟨d, -, -, isOpened⟩ | ⟨-, isRefused⟩
    · rw [isOpened]
      rfl
    · rw [isRefused]
      rfl

/-- The lives of the descriptors from the table `s` on. -/
def Lived (s s' : Table) (lives : Nat → Life) : Prop :=
  ∃ changes, s'.changes = s.changes ++ changes ∧ ∀ d, 2 ≤ d → life d changes = lives d

namespace Lived

variable {lives : Nat → Life} {t : Table} {d : Nat}

theorem refl (s : Table) : Lived s s fun _ => .untouched :=
  ⟨[], (append_nil _).symm, fun _ _ => rfl⟩

section

variable (lived : Lived s s' lives)

include lived

theorem noted (same : t.changes = s'.changes) : Lived s t lives := by
  obtain ⟨changes, isSince, isLife⟩ := lived
  exact ⟨changes, same.trans isSince, isLife⟩

theorem snoc {change : Change} (noted : t.changes = s'.changes ++ [change]) :
    Lived s t fun d => (lives d).step d change := by
  obtain ⟨changes, isSince, isLife⟩ := lived
  refine ⟨changes ++ [change], by rw [noted, isSince, append_assoc], fun d other => ?_⟩
  rw [life, foldl_append, ← life, isLife d other]
  rfl

theorem opened (idle : lives d = .untouched ∨ lives d = .released)
    (noted : t.changes = s'.changes ++ [.opened d]) : Lived s t (update lives d .held) := by
  obtain ⟨changes, isSince, isLife⟩ := lived.snoc noted
  refine ⟨changes, isSince, fun e other => ?_⟩
  rw [isLife e other]
  by_cases same : e = d
  · subst same
    rcases idle with idle | idle <;> simp [Life.step, idle]
  · simp [Life.step, update_of_ne same, Ne.symm same]

theorem closed (held : lives d = .held) :
    Lived s (Posix.scClose s' (some d)) (update lives d .released) := by
  obtain ⟨changes, isSince, isLife⟩ := lived.snoc (t := Posix.scClose s' (some d)) rfl
  refine ⟨changes, isSince, fun e other => ?_⟩
  rw [isLife e other]
  by_cases same : e = d
  · subst same
    simp [Life.step, held]
  · simp [Life.step, update_of_ne same, Ne.symm same]

theorem low {change : Change} (isLow : change = .opened d ∨ change = .closed d) (small : d < 2)
    (noted : t.changes = s'.changes ++ [change]) : Lived s t lives := by
  obtain ⟨changes, isSince, isLife⟩ := lived.snoc noted
  refine ⟨changes, isSince, fun e other => ?_⟩
  have differ : d ≠ e := by omega
  rw [isLife e other]
  rcases isLow with rfl | rfl <;> simp [Life.step, differ]

theorem copiedLow (old new : Nat) (isOpen : s'.fds old ≠ none) (differ : old ≠ new)
    (small : new < 2) : Lived s (P.scDup2 s' (some old) new).2 lives := by
  obtain ⟨implicit, isImplicit, noted⟩ := scDup2_changes (P := P) (by omega) isOpen differ
  rcases isImplicit with rfl | rfl
  · rw [append_nil] at noted
    exact lived.low (.inl rfl) small noted
  · have middle : Lived s { s' with changes := s'.changes ++ [.closed new] } lives :=
      lived.low (.inr rfl) small rfl
    exact middle.low (.inl rfl) small noted

theorem copied (old new : Nat) (isOpen : s'.fds old ≠ none) (differ : old ≠ new)
    (small : new < 20) (untouched : lives new = .untouched) :
    Lived s (P.scDup2 s' (some old) new).2 (update lives new .held) := by
  obtain ⟨implicit, isImplicit, noted⟩ := scDup2_changes (P := P) small isOpen differ
  rcases isImplicit with rfl | rfl
  · rw [append_nil] at noted
    exact lived.opened (.inl untouched) noted
  · obtain ⟨changes, isSince, isLife⟩ :=
      lived.snoc (t := { s' with changes := s'.changes ++ [.closed new] }) rfl
    have middle : Lived s { s' with changes := s'.changes ++ [.closed new] } lives := by
      refine ⟨changes, isSince, fun e other => ?_⟩
      rw [isLife e other]
      by_cases same : e = new
      · subst same
        simp [Life.step, untouched]
      · simp [Life.step, Ne.symm same]
    exact middle.opened (.inl untouched) noted

end

end Lived

/-- A descriptor that `exec_one` still has to close. -/
def Saved.Holds (saved : Saved) (d : Nat) : Prop :=
  saved.restoreIn = true ∧ d = 11 ∨ saved.restoreOut = true ∧ (d = 10 ∨ saved.redirectFd = some d)

/-- The table in the course of a command that can give all descriptors back. -/
structure OnTheWay (s : Table) (saved : Saved) (s' : Table) : Prop where
  stdin : saved.restoreIn = false → s'.fds 0 = s.fds 0
  stdinSaved : saved.restoreIn = true → Fresh s.next (s'.fds 0) ∧ saved.savedIn = some 11 ∧
      s'.fds 11 = s.fds 0
  stdout : saved.restoreOut = false → s'.fds 1 = s.fds 1 ∧ saved.redirectFd = none ∧
      s'.outFd = s.outFd
  stdoutSaved : saved.restoreOut = true → Fresh s.next (s'.fds 1) ∧ saved.savedOut = some 10 ∧
      s'.fds 10 = s.fds 1 ∧
    ∃ q, saved.redirectFd = some q ∧ 2 ≤ q ∧ q < 10 ∧ s'.fds q ≠ none
  others : ∀ d, 2 ≤ d → d < 10 → saved.redirectFd ≠ some d → s'.fds d = s.fds d
  next : s.next ≤ s'.next
  lives : ∃ lives, Lived s s' lives ∧ ∀ d, 2 ≤ d → (saved.Holds d → lives d = .held) ∧
    (¬saved.Holds d → lives d = .untouched ∨ d < 10 ∧ lives d = .released)

variable {t u : Table}

theorem redirectIn_eq {d : Nat} (saved : Saved) (isOpened : P.scOpen t = (some d, u)) :
    redirectIn P saved t = .ok
      ({ saved with savedIn := (P.scDup2 u (some 0) 11).1, restoreIn := true },
        Posix.scClose (P.scDup2 (P.scDup2 u (some 0) 11).2 (some d) 0).2 (some d)) := by
  rw [redirectIn, isOpened]

theorem redirectIn_refused (saved : Saved) (isRefused : P.scOpen t = (none, u)) :
    redirectIn P saved t = .error u := by
  rw [redirectIn, isRefused]

theorem redirectOut_refused (saved : Saved) {isAppend : Bool}
    (isRefused : P.scOpen (readOld P isAppend t) = (none, u)) :
    redirectOut P isAppend saved t = .error u := by
  rw [redirectOut, isRefused]

theorem redirectOut_eq {d : Nat} (saved : Saved) {isAppend : Bool}
    (isOpened : P.scOpen (readOld P isAppend t) = (some d, u)) :
    redirectOut P isAppend saved t = .ok
      ({ saved with
        savedOut := (P.scDup2 u (some 1) 10).1, redirectFd := some d, restoreOut := true },
        { (P.scDup2 (P.scDup2 u (some 1) 10).2 (some d) 1).2 with outFd := d }) := by
  rw [redirectOut, isOpened]

namespace OnTheWay

variable {t : Table}

theorem start (s : Table) : OnTheWay s .initial s where
  stdin := fun _ => rfl
  stdinSaved := fun restores => absurd restores (by decide)
  stdout := fun _ => ⟨rfl, rfl, rfl⟩
  stdoutSaved := fun restores => absurd restores (by decide)
  others := fun _ _ _ _ => rfl
  next := Nat.le_refl _
  lives :=
    ⟨_, Lived.refl s,
    fun d _ => ⟨fun holds => by simp [Saved.Holds, Saved.initial] at holds, fun _ => .inl rfl⟩⟩

theorem stdin_open (way : OnTheWay s saved t) (usual : s.Usual) : t.fds 0 ≠ none := by
  cases restores : saved.restoreIn with
  | false => rw [way.stdin restores]; exact usual.stdin
  | true => exact (way.stdinSaved restores).1.isOpen

theorem stdout_open (way : OnTheWay s saved t) (usual : s.Usual) : t.fds 1 ≠ none := by
  cases restores : saved.restoreOut with
  | false => rw [(way.stdout restores).1]; exact usual.stdout
  | true => exact (way.stdoutSaved restores).1.isOpen

theorem room (way : OnTheWay s saved t) (usual : s.Usual) :
    ∃ d, P.lowest t.fds = some d ∧ 2 ≤ d ∧ d < 10 ∧ saved.redirectFd ≠ some d ∧ t.fds d = none := by
  have enough := P.enough
  obtain ⟨a, b, less, below, aClosed, bClosed⟩ := usual.room
  have high : ∀ d, t.fds d = none → 2 ≤ d := by
    intro d isClosed
    by_contra low
    have cases : d = 0 ∨ d = 1 := by omega
    rcases cases with rfl | rfl
    · exact way.stdin_open usual isClosed
    · exact way.stdout_open usual isClosed
  have notLow : ∀ d, s.fds d = none → 2 ≤ d := by
    intro d isClosed
    by_contra low
    have cases : d = 0 ∨ d = 1 := by omega
    rcases cases with rfl | rfl
    · exact usual.stdin isClosed
    · exact usual.stdout isClosed
  have free : ∃ e < 10, t.fds e = none := by
    by_cases taken : saved.redirectFd = some a
    · have other : saved.redirectFd ≠ some b := by
        rw [taken]
        intro same
        have := Option.some.inj same
        omega
      exact ⟨b, below, by rw [way.others b (notLow b bClosed) below other]; exact bClosed⟩
    · exact ⟨a, by omega, by rw [way.others a (notLow a aClosed) (by omega) taken]; exact aClosed⟩
  obtain ⟨e, small, isFree⟩ := free
  obtain ⟨d, atMost, isLowest⟩ := P.lowest_le isFree (by omega)
  have isClosed := lowest_closed isLowest
  refine ⟨d, isLowest, high d isClosed, by omega, ?_, isClosed⟩
  intro isQ
  cases restores : saved.restoreOut with
  | false =>
    have none_ := (way.stdout restores).2.1
    rw [none_] at isQ
    cases isQ
  | true =>
    obtain ⟨-, -, -, q, isQ', -, -, isOpen⟩ := way.stdoutSaved restores
    rw [isQ] at isQ'
    obtain rfl := Option.some.inj isQ'
    exact isOpen isClosed

theorem idle (_ : OnTheWay s saved t) {d : Nat} (below : d < 10)
    (notQ : saved.redirectFd ≠ some d) :
    ¬saved.Holds d := by
  rintro (⟨-, isHigh⟩ | ⟨-, isHigh | isQ⟩)
  · omega
  · omega
  · exact notQ isQ

theorem input (way : OnTheWay s saved t) (usual : s.Usual) (first : saved.restoreIn = false)
    (granted : P.grants t.calls = true) :
    ∃ saved' t', redirectIn P saved t = .ok (saved', t') ∧ OnTheWay s saved' t' ∧
      t'.calls = t.calls + 1 ∧
      saved'.restoreIn = true ∧ saved'.restoreOut = saved.restoreOut := by
  obtain ⟨d, isLowest, atLeast, below, notQ, isClosed⟩ := way.room (P := P) usual
  have isOpened : P.scOpen t = (some d, Posix.install { t with calls := t.calls + 1 } d) := by
    rw [Posix.scOpen, granted, isLowest]
  refine ⟨_, _, redirectIn_eq saved isOpened, ?_, by simp, rfl, rfl⟩
  have stdinOpen := way.stdin_open usual
  have stdoutOpen := way.stdout_open usual
  have copied := scDup2_fst (P := P) (Posix.install { t with calls := t.calls + 1 } d) 0 11
    (by omega) (by simpa [show (0 : Nat) ≠ d by omega] using stdinOpen)
  constructor
  case stdin => exact fun absent => absurd absent (by simp)
  case stdinSaved =>
    intro _
    refine ⟨⟨t.next, ?_, way.next⟩, copied, ?_⟩
    · simp [scDup2_fds, show (0 : Nat) ≠ d by omega, show d ≠ 11 by omega]
    · obtain ⟨f, isFile⟩ := Option.ne_none_iff_exists'.mp stdinOpen
      simp [scDup2_fds, show (11 : Nat) ≠ d by omega, show (0 : Nat) ≠ d by omega,
        isFile, ← way.stdin first]
  case stdout =>
    intro restores
    obtain ⟨same, noFd, sameOut⟩ := way.stdout restores
    refine ⟨?_, noFd, by simpa using sameOut⟩
    simpa [scDup2_fds, show (1 : Nat) ≠ d by omega] using same
  case stdoutSaved =>
    intro restores
    obtain ⟨fresh, isCopy, same, q, isQ, low, high, isOpen⟩ := way.stdoutSaved restores
    have differ : q ≠ d := by
      rintro rfl
      exact notQ isQ
    refine ⟨?_, isCopy, ?_, q, isQ, low, high, ?_⟩
    · simpa [scDup2_fds, show (1 : Nat) ≠ d by omega] using fresh
    · simpa [scDup2_fds, show (10 : Nat) ≠ d by omega] using same
    · simpa [scDup2_fds, differ, show q ≠ 0 by omega, show q ≠ 11 by omega] using isOpen
  case others =>
    intro e low high notQ'
    by_cases same : e = d
    · subst same
      simpa using isClosed.symm.trans (way.others e low high notQ)
    · simpa [scDup2_fds, same, show e ≠ 0 by omega,
        show e ≠ 11 by omega] using way.others e low high notQ'
  case next =>
    have := way.next
    simp
    omega
  case lives =>
    obtain ⟨lives, lived, isLife⟩ := way.lives
    have idle : ¬saved.Holds d := way.idle below notQ
    have idleCopy : ¬saved.Holds 11 := by
      rintro (⟨restores, -⟩ | ⟨restores, isHigh | isQ⟩)
      · rw [first] at restores
        cases restores
      · omega
      · obtain ⟨-, -, -, q, isQ', -, high, -⟩ := way.stdoutSaved restores
        rw [isQ] at isQ'
        have := Option.some.inj isQ'
        omega
    have lived := lived.opened (t := Posix.install { t with calls := t.calls + 1 } d) (d := d)
      (by rcases (isLife d atLeast).2 idle with isIdle | ⟨-, isIdle⟩ <;> simp [isIdle]) rfl
    have lived := lived.copied (P := P) 0 11
      (by simpa [show (0 : Nat) ≠ d by omega] using stdinOpen) (by omega) (by omega)
      (by
        rw [update_of_ne (by omega)]
        rcases (isLife 11 (by omega)).2 idleCopy with isIdle | ⟨high, -⟩
        · exact isIdle
        · omega)
    have lived := lived.copiedLow (P := P) d 0
      (by simp [scDup2_fds, show d ≠ 11 by omega]) (by omega) (by omega)
    have lived := lived.closed (d := d) (by simp [show d ≠ 11 by omega])
    refine ⟨_, lived, fun e other => ?_⟩
    by_cases isD : e = d
    · subst isD
      refine ⟨fun holds => ?_, fun _ => by simp [below]⟩
      rcases holds with ⟨-, isCopy⟩ | holds
      · omega
      · exact absurd (.inr holds) idle
    rw [update_of_ne isD]
    by_cases isCopy : e = 11
    · subst isCopy
      exact ⟨fun _ => by simp, fun idle => absurd (.inl ⟨rfl, rfl⟩) idle⟩
    rw [update_of_ne isCopy, update_of_ne isD]
    refine ⟨fun holds => (isLife e other).1 ?_,
      fun idle' => (isLife e other).2 fun holds => idle' ?_⟩
    · rcases holds with ⟨-, isCopy'⟩ | holds
      · exact absurd isCopy' isCopy
      · exact .inr holds
    · rcases holds with ⟨-, isCopy'⟩ | holds
      · exact absurd isCopy' isCopy
      · exact .inr holds

theorem readOld (way : OnTheWay s saved t) (usual : s.Usual) (isAppend : Bool) :
    OnTheWay s saved (readOld P isAppend t) := by
  cases isAppend with
  | false => exact way
  | true =>
    obtain ⟨d, isLowest, atLeast, below, notQ, isClosed⟩ := way.room (P := P) usual
    rw [Shell.readOld, if_pos rfl]
    rcases P.scOpen_cases t with ⟨d', -, isLowest', isOpened⟩ | ⟨-, isRefused⟩
    · obtain rfl : d = d' := Option.some.inj (isLowest.symm.trans isLowest')
      rw [isOpened]
      obtain ⟨lives, lived, isLife⟩ := way.lives
      have idle : ¬saved.Holds d := way.idle below notQ
      have lived := lived.opened (t := Posix.install { t with calls := t.calls + 1 } d) (d := d)
        (by rcases (isLife d atLeast).2 idle with isIdle | ⟨-, isIdle⟩ <;> simp [isIdle]) rfl
      have lived := lived.closed (d := d) (by simp)
      have same := scClose_install { t with calls := t.calls + 1 } isClosed
      dsimp only
      constructor
      case stdin => rw [same]; exact way.stdin
      case stdinSaved => rw [same]; exact way.stdinSaved
      case stdout => rw [same]; exact way.stdout
      case stdoutSaved => rw [same]; exact way.stdoutSaved
      case others => rw [same]; exact way.others
      case next => exact Nat.le_succ_of_le way.next
      case lives =>
        refine ⟨_, lived, fun e other => ?_⟩
        by_cases isD : e = d
        · subst isD
          exact ⟨fun holds => absurd holds idle, fun _ => by simp [below]⟩
        · rw [update_of_ne isD, update_of_ne isD]
          exact isLife e other
    · rw [isRefused]
      exact { way with }

theorem output (way : OnTheWay s saved t) (usual : s.Usual) (first : saved.restoreOut = false)
    (isAppend : Bool)
    (granted : P.grants (Shell.readOld P isAppend t).calls = true) :
    ∃ saved' t', redirectOut P isAppend saved t = .ok (saved', t') ∧ OnTheWay s saved' t' ∧
      t'.calls = (Shell.readOld P isAppend t).calls + 1 ∧
      saved'.restoreIn = saved.restoreIn ∧ saved'.restoreOut = true := by
  replace way := way.readOld (P := P) usual isAppend
  obtain ⟨d, isLowest, atLeast, below, notQ, isClosed⟩ := way.room (P := P) usual
  have isOpened : P.scOpen (Shell.readOld P isAppend t) = (some d, Posix.install
      { Shell.readOld P isAppend t with calls := (Shell.readOld P isAppend t).calls + 1 } d) := by
    rw [Posix.scOpen, granted, isLowest]
  refine ⟨_, _, redirectOut_eq saved isOpened, ?_, by simp, rfl, rfl⟩
  generalize Shell.readOld P isAppend t = t at *
  have stdinOpen := way.stdin_open usual
  have stdoutOpen := way.stdout_open usual
  have copied := scDup2_fst (P := P) (Posix.install { t with calls := t.calls + 1 } d) 1 10
    (by omega) (by simpa [show (1 : Nat) ≠ d by omega] using stdoutOpen)
  constructor
  case stdin =>
    intro restores
    simpa [scDup2_fds, show (0 : Nat) ≠ d by omega] using way.stdin restores
  case stdinSaved =>
    intro restores
    obtain ⟨fresh, isCopy, same⟩ := way.stdinSaved restores
    refine ⟨?_, isCopy, ?_⟩
    · simpa [scDup2_fds, show (0 : Nat) ≠ d by omega] using fresh
    · simpa [scDup2_fds, show (11 : Nat) ≠ d by omega] using same
  case stdout => exact fun absent => absurd absent (by simp)
  case stdoutSaved =>
    intro _
    refine ⟨⟨t.next, ?_, way.next⟩, copied, ?_, d, rfl, atLeast, below, ?_⟩
    · simp [scDup2_fds, show (1 : Nat) ≠ d by omega, show d ≠ 10 by omega]
    · obtain ⟨f, isFile⟩ := Option.ne_none_iff_exists'.mp stdoutOpen
      simp [scDup2_fds, show (10 : Nat) ≠ d by omega, show (1 : Nat) ≠ d by omega,
        isFile, ← (way.stdout first).1]
    · simp [scDup2_fds, show d ≠ 1 by omega, show d ≠ 10 by omega]
  case others =>
    intro e low high notD
    have isOther : e ≠ d := fun same => notD (by rw [same])
    simpa [scDup2_fds, isOther, show e ≠ 1 by omega, show e ≠ 10 by omega] using
      way.others e low high (by simp [(way.stdout first).2.1])
  case next =>
    have := way.next
    simp
    omega
  case lives =>
    obtain ⟨lives, lived, isLife⟩ := way.lives
    have idle : ¬saved.Holds d := way.idle below notQ
    have idleCopy : ¬saved.Holds 10 := by
      rintro (⟨-, isHigh⟩ | ⟨restores, -⟩)
      · omega
      · rw [first] at restores
        cases restores
    have lived := lived.opened (t := Posix.install { t with calls := t.calls + 1 } d) (d := d)
      (by rcases (isLife d atLeast).2 idle with isIdle | ⟨-, isIdle⟩ <;> simp [isIdle]) rfl
    have lived := lived.copied (P := P) 1 10
      (by simpa [show (1 : Nat) ≠ d by omega] using stdoutOpen) (by omega) (by omega)
      (by
        rw [update_of_ne (by omega)]
        rcases (isLife 10 (by omega)).2 idleCopy with isIdle | ⟨high, -⟩
        · exact isIdle
        · omega)
    have lived := lived.copiedLow (P := P) d 1
      (by simp [scDup2_fds, show d ≠ 10 by omega]) (by omega) (by omega)
    refine ⟨_, lived.noted rfl, fun e other => ?_⟩
    by_cases isCopy : e = 10
    · subst isCopy
      exact ⟨fun _ => by simp, fun idle' => absurd (.inr ⟨rfl, .inl rfl⟩) idle'⟩
    by_cases isD : e = d
    · subst isD
      exact ⟨fun _ => by simp [isCopy], fun idle' => absurd (.inr ⟨rfl, .inr rfl⟩) idle'⟩
    rw [update_of_ne isCopy, update_of_ne isD]
    refine ⟨fun holds => (isLife e other).1 ?_,
      fun idle' => (isLife e other).2 fun holds => idle' ?_⟩
    · rcases holds with holds | ⟨-, isCopy' | isD'⟩
      · exact .inl holds
      · exact absurd isCopy' isCopy
      · exact absurd (Option.some.inj isD').symm isD
    · rcases holds with holds | ⟨restores, -⟩
      · exact .inl holds
      · rw [first] at restores
        cases restores

end OnTheWay

/-- Descriptor 1 refers to a file of the call, and so does its copy. -/
structure LostOut (base : Nat) (saved : Saved) (s : Table) : Prop where
  stdout : Fresh base (s.fds 1)
  copy : saved.restoreOut = true → saved.savedOut = some 10 ∧ Fresh base (s.fds 10)
  savedIn : saved.restoreIn = true → saved.savedIn ≠ some 1
  redirectFd : saved.redirectFd ≠ some 1
  next : base ≤ s.next

/-- Descriptor 0 refers to a file of the call, and so does its copy. -/
structure LostIn (base : Nat) (saved : Saved) (s : Table) : Prop where
  stdin : Fresh base (s.fds 0)
  restores : saved.restoreIn = true
  savedIn : saved.savedIn = some 11
  copy : Fresh base (s.fds 11)
  savedOut : saved.restoreOut = true → saved.savedOut ≠ some 0 ∧ saved.savedOut ≠ some 11
  redirectFd : saved.redirectFd ≠ some 0 ∧ saved.redirectFd ≠ some 11
  next : base ≤ s.next

theorem Fresh.ne_closed {fds : Nat → Option Nat} {d e : Nat} (fresh : Fresh base (fds e))
    (isClosed : fds d = none) :
    e ≠ d := by
  rintro rfl
  exact fresh.isOpen isClosed

namespace LostOut

variable {t : Table}

theorem same (lost : LostOut base saved s) (fds : t.fds = s.fds) (next : s.next ≤ t.next) :
    LostOut base saved t :=
  ⟨fds ▸ lost.stdout, fds ▸ lost.copy, lost.savedIn, lost.redirectFd, Nat.le_trans lost.next next⟩

theorem redirectIn (lost : LostOut base saved s) :
    (∃ t, Shell.redirectIn P saved s = .error t ∧ LostOut base saved t) ∨
      ∃ saved' t, Shell.redirectIn P saved s = .ok (saved', t) ∧ LostOut base saved' t ∧
        saved'.restoreOut = saved.restoreOut := by
  rcases P.scOpen_cases s with ⟨d, -, isLowest, isOpened⟩ | ⟨-, isRefused⟩
  · refine .inr ⟨_, _, redirectIn_eq saved isOpened, ?_, rfl⟩
    have isClosed := lowest_closed isLowest
    have notOut := lost.stdout.ne_closed isClosed
    constructor
    case stdout => simpa [scDup2_fds, notOut] using lost.stdout
    case copy =>
      intro restores
      obtain ⟨isCopy, fresh⟩ := lost.copy restores
      exact ⟨isCopy, by simpa [scDup2_fds, fresh.ne_closed isClosed] using fresh⟩
    case savedIn =>
      intro _
      rcases (scDup2_rest (P := P) (Posix.install { s with calls := s.calls + 1 } d)
        (some 0) 11).1 with is | is <;>
        simp [is]
    case redirectFd => exact lost.redirectFd
    case next =>
      have := lost.next
      simp
      omega
  · exact .inl ⟨_, redirectIn_refused saved isRefused, lost.same rfl (Nat.le_refl _)⟩

/-- A table that has lost its input stays so through a redirection. -/
theorem redirectOut (lost : LostOut base saved s) (isAppend : Bool) :
    (∃ t, Shell.redirectOut P isAppend saved s = .error t ∧ LostOut base saved t) ∨
      ∃ saved' t, Shell.redirectOut P isAppend saved s = .ok (saved', t) ∧ LostOut base saved' t ∧
        saved'.restoreOut = true := by
  have read := readOld_fds (P := P) isAppend s
  replace lost := lost.same read.1 read.2
  rcases P.scOpen_cases (readOld P isAppend s) with ⟨d, -, isLowest, isOpened⟩ | ⟨-, isRefused⟩
  · refine .inr ⟨_, _, redirectOut_eq saved isOpened, ?_, rfl⟩
    have isClosed := lowest_closed isLowest
    have notOut := lost.stdout.ne_closed isClosed
    generalize readOld P isAppend s = s at *
    obtain ⟨f, isFile, later⟩ := lost.stdout
    have atLeast := lost.next
    constructor
    case stdout =>
      by_cases isCopy : d = 10
      · exact ⟨f, by simp [scDup2_fds, isCopy, isFile], later⟩
      · exact ⟨s.next, by simp [scDup2_fds, isCopy], atLeast⟩
    case copy =>
      intro _
      have isOpen : (Posix.install { s with calls := s.calls + 1 } d).fds 1 = some f := by
        simp [notOut, isFile]
      exact ⟨scDup2_fst _ _ _ (by omega) (by rw [isOpen]; exact Option.some_ne_none f),
        f, by simp [scDup2_fds, notOut, isFile], later⟩
    case savedIn => exact lost.savedIn
    case redirectFd => exact fun isOut => notOut (Option.some.inj isOut).symm
    case next =>
      simp
      omega
  · exact .inl ⟨_, redirectOut_refused saved isRefused, lost.same rfl (Nat.le_refl _)⟩

end LostOut

namespace LostIn

variable {t : Table}

theorem same (lost : LostIn base saved s) (fds : t.fds = s.fds) (next : s.next ≤ t.next) :
    LostIn base saved t :=
  { lost with
    stdin := fds ▸ lost.stdin, copy := fds ▸ lost.copy, next := Nat.le_trans lost.next next }

theorem redirectIn (lost : LostIn base saved s) :
    (∃ t, Shell.redirectIn P saved s = .error t ∧ LostIn base saved t) ∨
      ∃ saved' t, Shell.redirectIn P saved s = .ok (saved', t) ∧ LostIn base saved' t := by
  rcases P.scOpen_cases s with ⟨d, -, isLowest, isOpened⟩ | ⟨-, isRefused⟩
  · refine .inr ⟨_, _, redirectIn_eq saved isOpened, ?_⟩
    have isClosed := lowest_closed isLowest
    have notIn := lost.stdin.ne_closed isClosed
    have notCopy := lost.copy.ne_closed isClosed
    obtain ⟨f, isFile, later⟩ := lost.stdin
    have atLeast := lost.next
    constructor
    case stdin => exact ⟨s.next, by simp [scDup2_fds, notIn, Ne.symm notCopy], atLeast⟩
    case restores => rfl
    case savedIn =>
      exact scDup2_fst _ _ _ (by omega) (by simp [notIn, isFile])
    case copy => exact ⟨f, by simp [scDup2_fds, notIn, notCopy, isFile], later⟩
    case savedOut => exact lost.savedOut
    case redirectFd => exact lost.redirectFd
    case next =>
      simp
      omega
  · exact .inl ⟨_, redirectIn_refused saved isRefused, lost.same rfl (Nat.le_refl _)⟩

theorem redirectOut (lost : LostIn base saved s) (isAppend : Bool) :
    (∃ t, Shell.redirectOut P isAppend saved s = .error t ∧ LostIn base saved t) ∨
      ∃ saved' t, Shell.redirectOut P isAppend saved s = .ok (saved', t) ∧
        LostIn base saved' t := by
  have read := readOld_fds (P := P) isAppend s
  replace lost := lost.same read.1 read.2
  rcases P.scOpen_cases (readOld P isAppend s) with ⟨d, -, isLowest, isOpened⟩ | ⟨-, isRefused⟩
  · refine .inr ⟨_, _, redirectOut_eq saved isOpened, ?_⟩
    have isClosed := lowest_closed isLowest
    generalize readOld P isAppend s = s at *
    have notIn := lost.stdin.ne_closed isClosed
    have notCopy := lost.copy.ne_closed isClosed
    have atLeast := lost.next
    constructor
    case stdin => simpa [scDup2_fds, notIn] using lost.stdin
    case restores => exact lost.restores
    case savedIn => exact lost.savedIn
    case copy => simpa [scDup2_fds, notCopy] using lost.copy
    case savedOut =>
      intro _
      rcases (scDup2_rest (P := P) (Posix.install { s with calls := s.calls + 1 } d)
        (some 1) 10).1 with is | is <;>
        simp [is]
    case redirectFd =>
      exact ⟨fun is => notIn (Option.some.inj is).symm, fun is => notCopy (Option.some.inj is).symm⟩
    case next =>
      simp
      omega
  · exact .inl ⟨_, redirectOut_refused saved isRefused, lost.same rfl (Nat.le_refl _)⟩

end LostIn

end M4KK1.Shell
