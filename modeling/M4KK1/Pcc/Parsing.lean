import M4KK1.Pcc.Syntax
import Mathlib.Tactic.IntervalCases

/-!
# What the parser emits for an integer expression

A level emits its code and goes on with its loop; a tentative parse leaves only stale bytes.
-/

namespace M4KK1.Pcc

open List

variable {s s' s'' : Compiler} {X : Set Nat} {id : Nat} {places : List Nat}
  {env : List UInt8 → BitVec 32}

/-- The parser has moved on by `tokens`, and what is not text is as it was. -/
structure Moved (s s' : Compiler) (tokens labels refs : Nat) : Prop where
  kept : Kept s s'
  pos : s'.pos = s.pos + tokens
  labelN : s'.labelN = s.labelN + labels
  lfixN : s'.lfixN = s.lfixN + refs

namespace Moved

variable {tokens labels refs tokens' labels' refs' : Nat}

theorem refl (s : Compiler) : Moved s s 0 0 0 := ⟨Kept.refl s, rfl, rfl, rfl⟩

theorem trans (first : Moved s s' tokens labels refs)
    (second : Moved s' s'' tokens' labels' refs') :
    Moved s s'' (tokens + tokens') (labels + labels') (refs + refs') := by
  refine ⟨first.kept.trans second.kept, ?_, ?_, ?_⟩
  · rw [second.pos, first.pos, Nat.add_assoc]
  · rw [second.labelN, first.labelN, Nat.add_assoc]
  · rw [second.lfixN, first.lfixN, Nat.add_assoc]

theorem next (moved : Moved s s' tokens labels refs) : Moved s s'.next (tokens + 1) labels refs :=
  ⟨moved.kept.trans ⟨rfl, rfl, fun _ _ => rfl, rfl, ⟨rfl, rfl⟩, ⟨rfl, rfl⟩, rfl, rfl⟩,
    congrArg (· + 1) moved.pos, moved.labelN, moved.lfixN⟩

end Moved

theorem append_moved (bytes : List UInt8) (s : Compiler) : Moved s (s.append bytes) 0 0 0 := by
  refine ⟨append_kept bytes s, append_pos bytes s, ?_, ?_⟩
  · induction bytes generalizing s with
    | nil => rfl
    | cons byte rest ih => exact ih (s.push byte)
  · induction bytes generalizing s with
    | nil => rfl
    | cons byte rest ih => exact ih (s.push byte)

theorem Moved.append {tokens labels refs : Nat} (moved : Moved s s' tokens labels refs)
    (bytes : List UInt8) : Moved s (s'.append bytes) tokens labels refs :=
  moved.trans (append_moved bytes s')

/-- A jump to a label that is still to come: its bytes, with the distance left open. -/
structure Referred (s : Compiler) (id : Nat) (opcode : List UInt8) (places : List Nat)
    (s' : Compiler) :
    Prop where
  emitted : Emitted {id} s (opcode ++ le32 0) s'
  pending : Pending s' id ((s.textN + opcode.length) :: places)
  moved : Moved s s' 0 0 1

theorem referred {opcode : List UInt8} (pending : Pending s id places)
    (text : s.textN + opcode.length + 4 ≤ s.limits.text) (lfix : s.lfixN < s.limits.lfix) :
    ∃ s', emitRel32Label id (s.append opcode) = .ok ((), s') ∧ Referred s id opcode places s' := by
  have opcodes : Emitted {id} s opcode (s.append opcode) := append_emitted (by omega)
  have moved := append_moved opcode s
  have pending' : Pending (s.append opcode) id places := append_pending pending
  have room : (s.append opcode).lfixN < (s.append opcode).limits.lfix := by
    rw [moved.lfixN, opcodes.context.1]
    exact lfix
  refine ⟨_, emitRel32Label_pending pending' room, ?_, ?_, ?_⟩
  · have reference := opcodes.trans (refer_emitted (s.append opcode) id)
    rw [append_nil] at reference
    refine reference.append ?_
    rw [length_append, le32_length]
    omega
  · have open' := @append_pending _ _ _ (le32 0) (refer_pending pending')
    rw [opcodes.length] at open'
    exact open'
  · have reference : Moved (s.append opcode) ((s.append opcode).refer id) 0 0 1 :=
      ⟨⟨rfl, rfl, fun _ _ => rfl, rfl, ⟨rfl, rfl⟩, ⟨rfl, rfl⟩, rfl, rfl⟩, rfl, rfl, rfl⟩
    exact (moved.trans reference).append _

theorem bind_emitJcc {β : Type} {opcode : UInt8} {f : Unit → Action β}
    (pending : Pending s id places)
    (text : s.textN + 6 ≤ s.limits.text) (lfix : s.lfixN < s.limits.lfix) :
    ∃ s', (emitJcc opcode id >>= f) s = f () s' ∧ Referred s id [0x0F, opcode] places s' := by
  obtain ⟨s', ran, isReferred⟩ := @referred s id places [0x0F, opcode] pending text lfix
  exact ⟨s', run_bind ran, isReferred⟩

theorem bind_emitJmp {β : Type} {f : Unit → Action β} (pending : Pending s id places)
    (text : s.textN + 5 ≤ s.limits.text) (lfix : s.lfixN < s.limits.lfix) :
    ∃ s', (emitJmp id >>= f) s = f () s' ∧ Referred s id [0xE9] places s' := by
  obtain ⟨s', ran, isReferred⟩ := @referred s id places [0xE9] pending text lfix
  exact ⟨s', run_bind ran, isReferred⟩

theorem place_moved (s : Compiler) (id : Nat) : Moved s (s.place id) 0 0 0 :=
  ⟨⟨rfl, rfl, fun _ _ => rfl, rfl, ⟨rfl, rfl⟩, ⟨rfl, rfl⟩, rfl, rfl⟩, rfl, rfl, rfl⟩

theorem label_moved (s : Compiler) : Moved s s.label 0 1 0 :=
  ⟨⟨rfl, rfl, fun _ _ => rfl, rfl, ⟨rfl, rfl⟩, ⟨rfl, rfl⟩, rfl, rfl⟩, rfl, rfl, rfl⟩

/-- The level that a token goes on with, 12 at the end, 0 when it would change the expression. -/
def operatorLevel : Kind → Nat
  | .punct c =>
    if c ∈ ['(', '[', '='] then 0
    else if c ∈ ['*', '/', '%'] then 2
    else if c ∈ ['+', '-'] then 3
    else if c ∈ ['<', '>'] then 5
    else if c = '&' then 7
    else if c = '^' then 8
    else if c = '|' then 9
    else 12
  | .tkShl | .tkShr => 4
  | .tkLe | .tkGe => 5
  | .tkEq | .tkNe => 6
  | .tkLand => 10
  | .tkLor => 11
  | _ => 12

section Levels

variable (E : Action TypeInfo) (f : Nat)

/-- The functions of the parser by their level. -/
def level : Nat → Action TypeInfo
  | 0 => postfixExpr E f
  | 1 => unary E f
  | 2 => multiplicative E f
  | 3 => additive E f
  | 4 => shift E f
  | 5 => relational E f
  | 6 => equality E f
  | 7 => bitand E f
  | 8 => bitxor E f
  | 9 => bitor E f
  | 10 => land E f
  | _ => lor E f

def levelCode : Nat → Kind → Option (List UInt8)
  | 2 => mulCode
  | 3 => addCode
  | 4 => shiftCode
  | 5 => relCode
  | 6 => eqCode
  | 7 => andCode
  | 8 => xorCode
  | 9 => orCode
  | _ => fun _ => none

def levelLoop : Nat → Nat → TypeInfo → Action TypeInfo
  | 0, fuel, t => postfixIndices E fuel t
  | 1, _, t => pure t
  | 10, fuel, t => landLoop (level E f 9) fuel t
  | 11, fuel, t => lorLoop (level E f 10) fuel t
  | k, fuel, t => leftAssoc (level E f (k - 1)) (levelCode k) fuel t

theorem level_succ {k : Nat} (low : 1 ≤ k) (high : k < 11) :
    level E f (k + 1) = (do
      let t ← level E f k
      levelLoop E f (k + 1) f t) := by
  interval_cases k <;> rfl

theorem levelLoop_bin {k fuel : Nat} {t : TypeInfo} (low : 2 ≤ k) (high : k < 10) :
    levelLoop E f k fuel t = leftAssoc (level E f (k - 1)) (levelCode k) fuel t := by
  interval_cases k <;> rfl

end Levels

theorem levelCode_op (op : BinOp) : levelCode op.level op.kind = some op.bytes := by
  cases op <;> rfl

theorem levelCode_none {k : Nat} {kind : Kind} (ends : k < operatorLevel kind) :
    levelCode k kind = none := by
  have other : ∀ kind', operatorLevel kind' ≤ k → kind ≠ kind' := by
    rintro kind' low rfl
    omega
  rw [levelCode.eq_def]
  split
  · simp [mulCode, other (.punct '*') (by decide), other (.punct '/') (by decide),
      other (.punct '%') (by decide)]
  · simp [addCode, other (.punct '+') (by decide), other (.punct '-') (by decide)]
  · simp [shiftCode, other .tkShl (by decide), other .tkShr (by decide)]
  · simp [relCode, other (.punct '<') (by decide), other (.punct '>') (by decide),
      other .tkLe (by decide), other .tkGe (by decide)]
  · simp [eqCode, other .tkEq (by decide), other .tkNe (by decide)]
  · simp [andCode, other (.punct '&') (by decide)]
  · simp [xorCode, other (.punct '^') (by decide)]
  · simp [orCode, other (.punct '|') (by decide)]
  · rfl

theorem levelLoop_ends {E : Action TypeInfo} {f k fuel : Nat} {t : TypeInfo} (inRange : k < 12)
    (ends : k < operatorLevel (s.toks s.pos).kind) :
    levelLoop E f k (fuel + 1) t s = .ok (t, s) := by
  have other : ∀ kind, operatorLevel kind ≤ k → (s.toks s.pos).kind ≠ kind := by
    rintro kind low rfl
    omega
  have loop : 2 ≤ k → k < 10 → leftAssoc (level E f (k - 1)) (levelCode k) (fuel + 1) t s =
      .ok (t, s) := by
    intro _ _
    rw [leftAssoc, bind_cur, levelCode_none ends]
    rfl
  match k, inRange with
  | 0, _ =>
    rw [levelLoop, postfixIndices, bind_atKind, decide_eq_false (other (.punct '[') (by decide))]
    rfl
  | 1, _ => rfl
  | 10, _ =>
    rw [levelLoop, landLoop, bind_atKind, decide_eq_false (other .tkLand (by decide))]
    rfl
  | 11, _ =>
    rw [levelLoop, lorLoop, bind_atKind, decide_eq_false (other .tkLor (by decide))]
    rfl
  | 2, _ | 3, _ | 4, _ | 5, _ | 6, _ | 7, _ | 8, _ | 9, _ => exact loop (by omega) (by omega)

/-- The tables have room for so many bytes, labels and references more. -/
structure Room (s : Compiler) (text labels refs : Nat) : Prop where
  text : s.textN + text ≤ s.limits.text
  labels : s.labelN + labels ≤ s.limits.labels
  lfix : s.lfixN + refs ≤ s.limits.lfix

variable {labels refs : Nat} {tk : Token}

theorem Room.after {code : List UInt8} {tokens l r text text' labels' refs' : Nat}
    (room : Room s text labels refs) (emitted : Emitted X s code s') (moved : Moved s s' tokens l r)
    (lessText : code.length + text' ≤ text) (lessLabels : l + labels' ≤ labels)
    (lessRefs : r + refs' ≤ refs) : Room s' text' labels' refs' := by
  obtain ⟨forText, forLabels, forRefs⟩ := room
  have limits := emitted.context.1
  refine ⟨?_, ?_, ?_⟩
  · rw [emitted.length, limits]
    omega
  · rw [moved.labelN, limits]
    omega
  · rw [moved.lfixN, limits]
    omega

/-- The name is that of an `int` local at its offset. -/
def Declared (s : Compiler) (env : List UInt8 → BitVec 32) (name : List UInt8) : Prop :=
  ∃ i, findSym s.syms name s.symN = some i ∧ (s.syms i).kind = .local ∧ (s.syms i).type = .int ∧
    (s.syms i).isPtr = false ∧ (s.syms i).isArray = false ∧ (s.syms i).addr = env name

/-- The tokens of an expression, and behind them none of a lower level. -/
structure Ready (env : List UInt8 → BitVec 32) (k : Nat) (ts : List Token) (e : Expr)
    (s : Compiler) : Prop where
  ahead : ∀ i (inside : i < ts.length), s.toks (s.pos + i) = ts[i]
  tight : max 1 k ≤ operatorLevel (s.toks (s.pos + ts.length)).kind
  room : Room s (e.valueCode env).length e.labels e.refs
  declared : ∀ name ∈ e.vars, Declared s env name

/-- Level `k` reads the tokens and emits the code of the expression. -/
def Emits (env : List UInt8 → BitVec 32) (k : Nat) (ts : List Token) (e : Expr) : Prop :=
  ∀ g f s, ts.length < g → ts.length + min k 1 < f → Ready env k ts e s →
    ∃ n s', n ≤ ts.length ∧
      level (expr g) f k s = levelLoop (expr g) f k (f - n) e.typeInfo s' ∧
      Emitted ∅ s (e.code env) s' ∧ Moved s s' ts.length e.labels e.refs

variable {k f g : Nat} {front : List UInt8} {ts ts' : List Token} {e e' : Expr}
    {E : Action TypeInfo}

theorem Moved.declared {tokens : Nat} (moved : Moved s s' tokens labels refs)
    {name : List UInt8} (declared : Declared s env name) : Declared s' env name := by
  rw [Declared, moved.kept.syms, moved.kept.symN]
  exact declared

theorem Emits.returns (emits : Emits env k ts e) (inRange : k < 12) (deep : ts.length < g)
    (long : ts.length + min k 1 < f) (ready : Ready env k ts e s)
    (ends : k < operatorLevel (s.toks (s.pos + ts.length)).kind) :
    ∃ s', level (expr g) f k s = .ok (e.typeInfo, s') ∧ Emitted ∅ s (e.code env) s' ∧
      Moved s s' ts.length e.labels e.refs := by
  obtain ⟨n, s', few, runs, emitted, moved⟩ := emits g f s deep long ready
  refine ⟨s', ?_, emitted, moved⟩
  obtain ⟨fuel, isFuel⟩ : ∃ fuel, f - n = fuel + 1 := ⟨f - n - 1, by omega⟩
  rw [runs, isFuel]
  refine levelLoop_ends inRange ?_
  rw [moved.pos, emitted.context.2.2.1]
  exact ends

theorem coerceValue_run (e : Expr) (s : Compiler) :
    coerceValue e.typeInfo s = .ok (intType, s.append e.load) := by
  rw [Expr.typeInfo, Expr.load]
  cases e.isVar with
  | true => exact run_bind (emits_run _ _)
  | false => rfl

theorem Emitted.load (emitted : Emitted X s (e.code env) s')
    (room : s.textN + (e.valueCode env).length ≤ s.limits.text) :
    Emitted X s (e.valueCode env) (s'.append e.load) := emitted.append room

theorem unary_op {op : UnOp} {t t' : TypeInfo} (isOp : (s.toks s.pos).kind = op.kind)
    (operand : unary E f s.next = .ok (t, s')) (coerced : coerceValue t s' = .ok (t', s'')) :
    unary E (f + 1) s = .ok (intType, s''.append op.bytes) := by
  have runs : ∀ rest : Action TypeInfo, (do
      let t ← unary E f
      let _ ← coerceValue t
      rest) s.next = rest s'' := by
    intro rest
    rw [run_bind operand, run_bind coerced]
  rw [unary, bind_cur]
  cases op with
  | neg =>
    rw [UnOp.kind] at isOp
    rw [if_pos isOp, bind_advance, runs, bind_emits]
    rfl
  | not =>
    rw [UnOp.kind] at isOp
    rw [if_neg (by rw [isOp]; decide), if_pos isOp, bind_advance, runs, emitCmpEax0, bind_emits,
      bind_emits, append_append]
    rfl
  | compl =>
    rw [UnOp.kind] at isOp
    rw [if_neg (by rw [isOp]; decide), if_neg (by rw [isOp]; decide), if_pos isOp, bind_advance,
      runs,
      bind_emits]
    rfl

theorem un_emits {op : UnOp} (isOp : tk.kind = op.kind) (operand : Emits env 1 ts e) :
    Emits env 1 (tk :: ts) (.un op e) := by
  intro g f s deep long ready
  rw [length_cons] at deep long
  obtain ⟨f, rfl⟩ : ∃ n, f = n + 1 := ⟨f - 1, by omega⟩
  have room := ready.room
  have length : ((Expr.un op e).valueCode env).length =
      (e.valueCode env).length + op.bytes.length := by
    rw [valueCode_un, length_append]
  have first : s.toks s.pos = tk := ready.ahead 0 (Nat.succ_pos _)
  have stepped : Moved s s.next 1 0 0 := (Moved.refl s).next
  have ready' : Ready env 1 ts e s.next := by
    refine ⟨fun i inside => ?_, ?_, ?_, fun name member => ?_⟩
    · have later := ready.ahead (i + 1) (Nat.succ_lt_succ inside)
      rw [← Nat.add_assoc, Nat.add_right_comm] at later
      exact later
    · have tight := ready.tight
      rw [length_cons, ← Nat.add_assoc, Nat.add_right_comm] at tight
      exact tight
    · exact room.after ((Emitted.refl ∅ s).next) stepped (by rw [length]; simp) (Nat.zero_add _).le
        (Nat.zero_add _).le
    · exact stepped.declared (ready.declared name member)
  obtain ⟨n, s', -, runs, emitted, moved⟩ := operand g f s.next (by omega) (by omega) ready'
  have ran : unary (expr g) (f + 1) s = .ok (intType, (s'.append e.load).append op.bytes) :=
    unary_op (by rw [first]; exact isOp) runs (coerceValue_run e s')
  refine ⟨0, _, Nat.zero_le _, ran, ?_, ?_⟩
  · have front : Emitted ∅ s (e.code env) s' := (Emitted.refl ∅ s).next.trans emitted
    rw [append_append, Expr.code, append_assoc]
    refine front.append ?_
    have text := room.text
    rw [length, Expr.valueCode] at text
    simpa [Nat.add_assoc] using text
  · have all := ((stepped.trans moved).append e.load).append op.bytes
    rw [Nat.zero_add, Nat.zero_add, Nat.add_comm] at all
    exact all

theorem primary_num (isTk : s.toks s.pos = tk) (isLiteral : tk.kind = .tkNum ∨ tk.kind = .tkChar) :
    primary E f s = .ok (intType, (s.append (0xB8 :: le32 (BitVec.ofInt 32 tk.val))).next) := by
  rw [primary, bind_cur, isTk, if_pos isLiteral, bind_emit1, bind_emit32, bind_advance,
    append_append]
  rfl

theorem num_emits (isLiteral : tk.kind = .tkNum ∨ tk.kind = .tkChar) :
    Emits env 0 [tk] (.num tk.val) := by
  intro g f s deep long ready
  have first : s.toks s.pos = tk := ready.ahead 0 (Nat.succ_pos _)
  refine ⟨0, _, Nat.zero_le _, run_bind (primary_num first isLiteral), ?_, ?_⟩
  · have room := ready.room.text
    exact (append_emitted room).next
  · exact ((Moved.refl s).append _).next

/-- The state with the use of a symbol noted. -/
def Compiler.note (s : Compiler) (event : NameEvent) : Compiler :=
  { s with names := s.names ++ [event] }

theorem resolve_run {name : List UInt8} {i : Nat} (found : findSym s.syms name s.symN = some i) :
    resolve name s = .ok (i, s.note (.use s.scope name i (s.syms i))) := by
  have isFound : findOrAddSym name s = .ok (i, s) := by
    rw [findOrAddSym, found]
  exact (run_bind isFound).trans rfl

theorem note_emitted (event : NameEvent) (s : Compiler) : Emitted X s [] (s.note event) :=
  ⟨rfl, fun _ _ => rfl, fun _ inside => absurd inside (Nat.not_lt_zero _), ⟨rfl, rfl, rfl, rfl⟩,
    le_refl _, fun _ _ => rfl, fun _ _ _ => rfl, le_refl _, fun _ _ => rfl, rfl,
    fun _ _ => ⟨rfl, rfl⟩⟩

theorem note_moved (event : NameEvent) (s : Compiler) : Moved s (s.note event) 0 0 0 :=
  ⟨⟨rfl, rfl, fun _ _ => rfl, rfl, ⟨rfl, rfl⟩, ⟨rfl, rfl⟩, rfl, rfl⟩, rfl, rfl, rfl⟩

theorem emitSymAddr_local {i : Nat} (isLocal : (s.syms i).kind = .local) :
    emitSymAddr i s = .ok ((), s.append ([0x8D, mrm 2 0 5] ++ le32 (s.syms i).addr)) := by
  rw [emitSymAddr, bind_symAt, if_pos isLocal, bind_emits, emit32_run, append_append]

theorem primary_var {tk : Token} {i : Nat} (isTk : s.toks s.pos = tk) (isIdent : tk.kind = .tkIdent)
    (found : findSym s.syms tk.text s.symN = some i) (isLocal : (s.syms i).kind = .local)
    (noCall : (s.toks (s.pos + 1)).kind ≠ .punct '(') :
    primary E f s = .ok (⟨(s.syms i).type, (s.syms i).isPtr, true, (s.syms i).isArray⟩,
      (s.note (.use s.scope tk.text i (s.syms i))).next.append
        ([0x8D, mrm 2 0 5] ++ le32 (s.syms i).addr)) := by
  rw [primary, bind_cur, isTk, if_neg (by rw [isIdent]; decide), if_neg (by rw [isIdent]; decide),
    if_neg (by rw [isIdent]; decide), if_pos isIdent, run_bind (resolve_run found), bind_advance,
    bind_atKind]
  have passed : decide (((s.note (.use s.scope tk.text i (s.syms i))).next.toks
      (s.note (.use s.scope tk.text i (s.syms i))).next.pos).kind = .punct '(') = false :=
    decide_eq_false noCall
  have addressed :=
    @emitSymAddr_local (s.note (.use s.scope tk.text i (s.syms i))).next i isLocal
  rw [passed, if_neg (by decide), run_bind addressed, bind_symAt, (append_kept _ _).syms]
  rfl

theorem var_emits (isIdent : tk.kind = .tkIdent) : Emits env 0 [tk] (.var tk.text) := by
  intro g f s deep long ready
  have first : s.toks s.pos = tk := ready.ahead 0 (Nat.succ_pos _)
  obtain ⟨i, found, isLocal, isInt, notPtr, notArray, isAddr⟩ :=
    ready.declared tk.text (mem_singleton_self _)
  have tight : 1 ≤ operatorLevel (s.toks (s.pos + 1)).kind := ready.tight
  have noCall : (s.toks (s.pos + 1)).kind ≠ .punct '(' := by
    intro isCall
    rw [isCall] at tight
    exact absurd tight (by decide)
  have ran := @primary_var s f (expr g) tk i first isIdent found isLocal noCall
  rw [isInt, notPtr, notArray, isAddr] at ran
  refine ⟨0, _, Nat.zero_le _, run_bind ran, ?_, ?_⟩
  · have front : Emitted ∅ s [] _ := (note_emitted (.use s.scope tk.text i (s.syms i)) s).next
    refine front.append ?_
    have text := ready.room.text
    simp [Expr.valueCode, Expr.code] at text ⊢
    omega
  · exact (note_moved _ s).next.append _

theorem operatorLevel_kind (op : BinOp) : operatorLevel op.kind = op.level := by
  cases op <;> rfl

/-- What an expression can begin with. -/
theorem Parses.first (parses : Parses k ts e) :
    ∃ tk rest, ts = tk :: rest ∧ tk.kind ∈ [Kind.tkNum, .tkChar, .tkIdent, .punct '(', .punct '-',
      .punct '!', .punct '~'] := by
  induction parses with
  | num isLiteral => exact ⟨_, [], rfl, by rcases isLiteral with h | h <;> simp [h]⟩
  | var isIdent => exact ⟨_, [], rfl, by simp [isIdent]⟩
  | paren isLeft => exact ⟨_, _, rfl, by simp [isLeft]⟩
  | un op isOp => exact ⟨_, _, rfl, by cases op <;> simp [isOp, UnOp.kind]⟩
  | bin op isOp left right ih ih' | land isOp left right ih ih' | lor isOp left right ih ih' =>
    obtain ⟨tk, rest, rfl, isFirst⟩ := ih
    exact ⟨tk, _, rfl, isFirst⟩
  | lift _ _ ih => exact ih

theorem Parses.primary (parses : Parses k ts e) (lowest : k = 0) :
    ∃ tk rest, ts = tk :: rest ∧ tk.kind ∈ [Kind.tkNum, .tkChar, .tkIdent, .punct '('] := by
  cases parses with
  | num isLiteral => exact ⟨_, [], rfl, by rcases isLiteral with h | h <;> simp [h]⟩
  | var isIdent => exact ⟨_, [], rfl, by simp [isIdent]⟩
  | paren isLeft => exact ⟨_, _, rfl, by simp [isLeft]⟩
  | bin op => cases op <;> cases lowest
  | un | land | lor | lift => cases lowest

theorem Parses.second (parses : Parses k ts e) {rest : List Token}
    (isList : ts = tk :: rest) (isIdent : tk.kind = .tkIdent) :
    rest = [] ∨ ∃ tk' rest', rest = tk' :: rest' ∧ 1 < operatorLevel tk'.kind := by
  induction parses generalizing tk rest with
  | num isLiteral | var isIdent' => exact .inl (List.cons.inj isList).2.symm
  | paren isLeft =>
    rw [← (List.cons.inj isList).1, isLeft] at isIdent
    cases isIdent
  | un op isOp =>
    rw [← (List.cons.inj isList).1, isOp] at isIdent
    cases op <;> cases isIdent
  | @bin tk' ts ts' _ _ op isOp left _ ih _ =>
    obtain ⟨first, more, rfl, -⟩ := left.first
    obtain ⟨rfl, rfl⟩ := List.cons.inj isList
    rcases ih rfl isIdent with rfl | ⟨second, others, rfl, higher⟩
    · refine .inr ⟨tk', ts', rfl, ?_⟩
      rw [isOp, operatorLevel_kind]
      cases op <;> decide
    · exact .inr ⟨second, _, rfl, higher⟩
  | @land tk' ts ts' _ _ isOp left _ ih _ | @lor tk' ts ts' _ _ isOp left _ ih _ =>
    obtain ⟨first, more, rfl, -⟩ := left.first
    obtain ⟨rfl, rfl⟩ := List.cons.inj isList
    rcases ih rfl isIdent with rfl | ⟨second, others, rfl, higher⟩
    · refine .inr ⟨tk', ts', rfl, ?_⟩
      rw [isOp]
      decide
    · exact .inr ⟨second, _, rfl, higher⟩
  | lift _ _ ih => exact ih isList isIdent

theorem Parses.firstVar (parses : Parses k ts e) {rest : List Token}
    (isList : ts = tk :: rest) (isIdent : tk.kind = .tkIdent) : tk.text ∈ e.vars := by
  induction parses generalizing tk rest with
  | num isLiteral =>
    rw [← (List.cons.inj isList).1] at isIdent
    rcases isLiteral with isNum | isChar
    · exact absurd (isNum.symm.trans isIdent) (by decide)
    · exact absurd (isChar.symm.trans isIdent) (by decide)
  | var _ =>
    rw [(List.cons.inj isList).1]
    exact mem_singleton_self _
  | paren isLeft =>
    rw [← (List.cons.inj isList).1, isLeft] at isIdent
    cases isIdent
  | un op isOp =>
    rw [← (List.cons.inj isList).1, isOp] at isIdent
    cases op <;> cases isIdent
  | bin _ _ left _ ih _ | land _ left _ ih _ | lor _ left _ ih _ =>
    obtain ⟨first, more, rfl, -⟩ := left.first
    obtain ⟨rfl, rfl⟩ := List.cons.inj isList
    exact mem_append_left _ (ih rfl isIdent)
  | lift _ _ ih => exact ih isList isIdent

theorem lift_emits (inRange : k < 11) (parses : Parses k ts e) (lower : Emits env k ts e) :
    Emits env (k + 1) ts e := by
  intro g f s deep long ready
  have long : ts.length + 1 < f := by omega
  have tight : k + 1 ≤ operatorLevel (s.toks (s.pos + ts.length)).kind :=
    le_trans (le_max_right 1 (k + 1)) ready.tight
  have ready' : Ready env k ts e s :=
    { ready with tight := by have := ready.tight; omega }
  match k with
  | 0 =>
    obtain ⟨f, rfl⟩ : ∃ n, f = n + 1 := ⟨f - 1, by omega⟩
    have long' : ts.length + min 0 1 < f := by omega
    obtain ⟨s', runs, emitted, moved⟩ := lower.returns (by omega) deep long' ready' tight
    refine ⟨0, s', Nat.zero_le _, ?_, emitted, moved⟩
    obtain ⟨tk, rest, rfl, isFirst⟩ := parses.primary rfl
    have first : s.toks s.pos = tk := ready.ahead 0 (Nat.succ_pos _)
    have noPrefix : ∀ kind, kind ∉ [Kind.tkNum, .tkChar, .tkIdent, .punct '('] →
        tk.kind ≠ kind := by
      rintro kind other rfl
      exact other isFirst
    change unary (expr g) (f + 1) s = .ok (e.typeInfo, s')
    rw [unary, bind_cur, first, if_neg (noPrefix _ (by decide)), if_neg (noPrefix _ (by decide)),
      if_neg (noPrefix _ (by decide)), if_neg (noPrefix _ (by decide)),
      if_neg (noPrefix _ (by decide))]
    exact runs
  | k + 1 =>
    have long' : ts.length + min (k + 1) 1 < f := by omega
    obtain ⟨s', runs, emitted, moved⟩ := lower.returns (by omega) deep long' ready' tight
    refine ⟨0, s', Nat.zero_le _, ?_, emitted, moved⟩
    rw [level_succ _ _ (by omega) inRange]
    exact run_bind runs

theorem leftAssoc_turn {operand : Action TypeInfo} {code : Kind → Option (List UInt8)}
    {bytes : List UInt8} {t rt t₁ t₂ : TypeInfo} {s₁ s₂ s₃ : Compiler}
    (isOp : code (s.toks s.pos).kind = some bytes) (coerced : coerceValue t s.next = .ok (t₁, s₁))
    (ran : operand (s₁.append [0x50]) = .ok (rt, s₂))
    (coerced' : coerceValue rt s₂ = .ok (t₂, s₃)) :
    leftAssoc operand code (f + 1) t s =
      leftAssoc operand code f intType (s₃.append ([0x89, mrm 3 0 1, 0x58] ++ bytes)) := by
  rw [leftAssoc, bind_cur, isOp]
  dsimp only
  rw [bind_advance, run_bind coerced, bind_emit1, run_bind ran, run_bind coerced', bind_emits]

section Operator

variable {tk : Token} {whole : Expr} {k' : Nat}

section

variable (ready : Ready env k (ts ++ tk :: ts') whole s)

include ready

theorem Ready.left
    (tight : max 1 k' ≤ operatorLevel tk.kind)
    (room : Room s (e.valueCode env).length e.labels e.refs)
    (part : e.vars ⊆ whole.vars) : Ready env k' ts e s := by
  refine ⟨fun i inside => ?_, ?_, room, fun name member => ready.declared name (part member)⟩
  · rw [ready.ahead i (by rw [length_append]; omega), getElem_append_left inside]
  · have isTk := ready.ahead ts.length (by simp)
    rw [getElem_append_right (le_refl _)] at isTk
    rw [isTk]
    simpa using tight

theorem Ready.operator
    (emitted : Emitted X s front s') (pos : s'.pos = s.pos + ts.length) : s'.toks s'.pos = tk := by
  have isTk := ready.ahead ts.length (by simp)
  rw [getElem_append_right (le_refl _)] at isTk
  rw [emitted.context.2.2.1, pos, isTk]
  simp

theorem Ready.behind (emitted : Emitted X s front s') (pos : s'.pos = s.pos + (ts.length + 1)) :
    max 1 k ≤ operatorLevel (s'.toks (s'.pos + ts'.length)).kind := by
  have same : s.pos + (ts ++ tk :: ts').length = s'.pos + ts'.length := by
    rw [pos, length_append, length_cons]
    omega
  rw [emitted.context.2.2.1, ← same]
  exact ready.tight

theorem Ready.right (emitted : Emitted X s front s')
    {labels refs : Nat} (moved : Moved s s' (ts.length + 1) labels refs)
    (tight : max 1 k' ≤ max 1 k) (room : Room s' (e'.valueCode env).length e'.labels e'.refs)
    (part : e'.vars ⊆ whole.vars) : Ready env k' ts' e' s' := by
  refine ⟨fun i inside => ?_, ?_, room, fun name member =>
    moved.declared (ready.declared name (part member))⟩
  · rw [emitted.context.2.2.1, moved.pos, Nat.add_assoc,
      ready.ahead _ (by simp only [length_append, length_cons]; omega),
      getElem_append_right (by omega)]
    simp [Nat.add_comm 1 i, Nat.add_assoc]
  · exact le_trans tight (ready.behind emitted moved.pos)

end

end Operator

theorem bin_emits {op : BinOp} (isOp : tk.kind = op.kind) (ofLeft : Emits env op.level ts e)
    (ofRight : Emits env (op.level - 1) ts' e') :
    Emits env op.level (ts ++ tk :: ts') (.bin op e e') := by
  intro g f s deep long ready
  have length := congrArg List.length (valueCode_bin env op e e')
  simp only [length_append, length_cons] at deep long length
  have levels : 2 ≤ op.level ∧ op.level < 10 := by cases op <;> decide
  have room := ready.room
  have start : Room s (e.valueCode env).length e.labels e.refs :=
    room.after (Emitted.refl ∅ s) (Moved.refl s) (by rw [length_nil]; omega)
      (by rw [Nat.zero_add]; exact Nat.le_add_right ..)
        (by rw [Nat.zero_add]; exact Nat.le_add_right ..)
  have ready₁ : Ready env op.level ts e s :=
    ready.left (by rw [isOp, operatorLevel_kind]; omega) start (subset_append_left ..)
  obtain ⟨n, s₁, few, runs₁, emitted₁, moved₁⟩ := ofLeft g f s (by omega) (by omega) ready₁
  have isTk := ready.operator emitted₁ moved₁.pos
  -- The left value is loaded and pushed.
  have emitted₂ : Emitted ∅ s (e.valueCode env ++ [0x50])
      ((s₁.next.append e.load).append [0x50]) := by
    have loaded : Emitted ∅ s (e.valueCode env) (s₁.next.append e.load) :=
      emitted₁.next.load start.text
    refine loaded.append ?_
    have text := room.text
    simp only [length_append, length_cons, length_nil]
    omega
  have moved₂ := (moved₁.next.append e.load).append [0x50]
  have room₂ : Room ((s₁.next.append e.load).append [0x50])
      (e'.valueCode env).length e'.labels e'.refs :=
    room.after emitted₂ moved₂ (by simp only [length_append, length_cons, length_nil]; omega)
      (le_refl _) (le_refl _)
  have ready₂ : Ready env (op.level - 1) ts' e' ((s₁.next.append e.load).append [0x50]) :=
    ready.right emitted₂ moved₂ (by omega) room₂ (subset_append_right ..)
  have behind := ready.behind emitted₂ moved₂.pos
  have long' : ts'.length + min (op.level - 1) 1 < f := by omega
  have deep' : ts'.length < g := by omega
  obtain ⟨s₃, runs₃, emitted₃, moved₃⟩ := ofRight.returns (by omega) deep' long' ready₂ (by omega)
  obtain ⟨fuel, isFuel⟩ : ∃ fuel, f - n = fuel + 1 := ⟨f - n - 1, by omega⟩
  have isCode : levelCode op.level (s₁.toks s₁.pos).kind = some op.bytes := by
    rw [isTk, isOp]
    exact levelCode_op op
  refine ⟨n + 1, (s₃.append e'.load).append ([0x89, mrm 3 0 1, 0x58] ++ op.bytes), ?_, ?_, ?_, ?_⟩
  · rw [length_append, length_cons]
    omega
  · rw [runs₁, levelLoop_bin _ _ levels.1 levels.2, levelLoop_bin _ _ levels.1 levels.2, isFuel,
      leftAssoc_turn isCode (coerceValue_run e _) runs₃ (coerceValue_run e' _),
      show f - (n + 1) = fuel by omega]
    rfl
  · have isCode : (Expr.bin op e e').code env =
        e.valueCode env ++ [0x50] ++ e'.code env ++
          (e'.load ++ ([0x89, mrm 3 0 1, 0x58] ++ op.bytes)) := by
      simp [Expr.code, Expr.valueCode]
    have whole : (Expr.bin op e e').valueCode env = (Expr.bin op e e').code env := append_nil _
    rw [append_append, isCode]
    refine (emitted₂.trans emitted₃).append ?_
    rw [← isCode, ← whole]
    exact room.text
  · have all := ((moved₂.trans moved₃).append e'.load).append ([0x89, mrm 3 0 1, 0x58] ++ op.bytes)
    rw [Nat.add_right_comm, Nat.add_assoc] at all
    rw [length_append, length_cons]
    exact all

theorem distance_eq {start offset total : Nat} (inside : offset + 4 ≤ total) :
    distance (start + total) (start + offset) = BitVec.ofNat 32 (total - (offset + 4)) := by
  rw [distance, ← BitVec.ofInt_natCast]
  congr 1
  omega

theorem setWord_hole (a b : List UInt8) (w : BitVec 32) :
    setWord (a ++ le32 0 ++ b) a.length w = a ++ le32 w ++ b := setWord_append rfl w

theorem one_placed {a b : List UInt8} {L : Nat} (isOpen : L ∈ X) (made : s.labelN ≤ L)
    (emitted : Emitted X s (a ++ le32 0 ++ b) s') (pending : Pending s' L [s.textN + a.length]) :
    Emitted X s (a ++ le32 (BitVec.ofNat 32 b.length) ++ b) (s'.place L) := by
  have total : (a ++ le32 0 ++ b).length = a.length + 4 + b.length := by
    simp only [length_append, le32_length]
  have placed := @place_emitted s s' X _ L [a.length] emitted pending (by simp) isOpen made
  simp only [foldl_cons, foldl_nil, emitted.length, total] at placed
  rw [distance_eq (by omega), setWord_hole, Nat.add_sub_cancel_left] at placed
  exact placed

theorem two_placed {a b c : List UInt8} {L : Nat} (isOpen : L ∈ X) (made : s.labelN ≤ L)
    (emitted : Emitted X s (a ++ le32 0 ++ b ++ le32 0 ++ c) s')
    (pending : Pending s' L [s.textN + (a ++ le32 0 ++ b).length, s.textN + a.length]) :
    Emitted X s (a ++ le32 (BitVec.ofNat 32 (b.length + 4 + c.length)) ++ b ++
      le32 (BitVec.ofNat 32 c.length) ++ c) (s'.place L) := by
  have front : (a ++ le32 0 ++ b).length = a.length + 4 + b.length := by
    simp only [length_append, le32_length]
  have total : (a ++ le32 0 ++ b ++ le32 0 ++ c).length =
      a.length + 4 + b.length + 4 + c.length := by
    simp only [length_append, le32_length]
  have inside : ∀ offset ∈ [(a ++ le32 0 ++ b).length, a.length],
      offset + 4 ≤ (a ++ le32 0 ++ b ++ le32 0 ++ c).length := by
    rw [total, front]
    simp
    omega
  have placed := place_emitted emitted pending inside isOpen made
  simp only [foldl_cons, foldl_nil, emitted.length, total] at placed
  rw [distance_eq (by omega), distance_eq (by omega), setWord_hole (a ++ le32 0 ++ b), front,
    Nat.add_sub_cancel_left, show a.length + 4 + b.length + 4 + c.length - (a.length + 4) =
      b.length + 4 + c.length by omega] at placed
  have rest := setWord_hole a (b ++ le32 (BitVec.ofNat 32 c.length) ++ c)
    (BitVec.ofNat 32 (b.length + 4 + c.length))
  simp only [← append_assoc] at rest
  rw [rest] at placed
  exact placed

theorem three_placed {a b c d : List UInt8} {L : Nat} (isOpen : L ∈ X) (made : s.labelN ≤ L)
    (emitted : Emitted X s (a ++ le32 0 ++ b ++ le32 0 ++ c ++ le32 0 ++ d) s')
    (pending : Pending s' L [s.textN + (a ++ le32 0 ++ b ++ le32 0 ++ c).length,
      s.textN + (a ++ le32 0 ++ b).length, s.textN + a.length]) :
    Emitted X s (a ++ le32 (BitVec.ofNat 32 (b.length + 4 + c.length + 4 + d.length)) ++ b ++
      le32 (BitVec.ofNat 32 (c.length + 4 + d.length)) ++ c ++ le32 (BitVec.ofNat 32 d.length) ++ d)
      (s'.place L) := by
  have front : (a ++ le32 0 ++ b).length = a.length + 4 + b.length := by
    simp only [length_append, le32_length]
  have middle : (a ++ le32 0 ++ b ++ le32 0 ++ c).length =
      a.length + 4 + b.length + 4 + c.length := by
    simp only [length_append, le32_length]
  have total : (a ++ le32 0 ++ b ++ le32 0 ++ c ++ le32 0 ++ d).length =
      a.length + 4 + b.length + 4 + c.length + 4 + d.length := by
    simp only [length_append, le32_length]
  have inside : ∀ offset ∈ [(a ++ le32 0 ++ b ++ le32 0 ++ c).length, (a ++ le32 0 ++ b).length,
    a.length],
      offset + 4 ≤ (a ++ le32 0 ++ b ++ le32 0 ++ c ++ le32 0 ++ d).length := by
    rw [total, front, middle]
    simp
    omega
  have placed := place_emitted emitted pending inside isOpen made
  simp only [foldl_cons, foldl_nil, emitted.length, total] at placed
  rw [distance_eq (by omega), distance_eq (by omega), distance_eq (by omega),
    setWord_hole (a ++ le32 0 ++ b ++ le32 0 ++ c), middle, Nat.add_sub_cancel_left, front,
    show a.length + 4 + b.length + 4 + c.length + 4 + d.length - (a.length + 4 + b.length + 4) =
      c.length + 4 + d.length by omega,
    show a.length + 4 + b.length + 4 + c.length + 4 + d.length - (a.length + 4) =
      b.length + 4 + c.length + 4 + d.length by omega] at placed
  have second := setWord_hole (a ++ le32 0 ++ b) (c ++ le32 (BitVec.ofNat 32 d.length) ++ d)
    (BitVec.ofNat 32 (c.length + 4 + d.length))
  have first := setWord_hole a (b ++ le32 (BitVec.ofNat 32 (c.length + 4 + d.length)) ++ c ++
    le32 (BitVec.ofNat 32 d.length) ++ d) (BitVec.ofNat 32 (b.length + 4 + c.length + 4 + d.length))
  simp only [← append_assoc] at first second
  rw [front] at second
  rw [second, first] at placed
  exact placed

/-- The operand of `&&` or `||` is parsed behind the jump of the left one. -/
def OperandRuns (operand : Action TypeInfo) (e' : Expr) (code : List UInt8) (tokens : Nat)
    (s₁ : Compiler) : Prop :=
  ∃ s₂, operand s₁ = .ok (e'.typeInfo, s₂) ∧ Emitted ∅ s₁ code s₂ ∧
    Moved s₁ s₂ tokens e'.labels e'.refs

/-- The bytes up to the jump behind an operand. -/
def tested (operand : List UInt8) (opcode : UInt8) : List UInt8 :=
  operand ++ cmpBytes ++ [0x0F, opcode]

theorem tested_length (operand : List UInt8) (opcode : UInt8) :
    (tested operand opcode).length = operand.length + 5 := by
  simp [tested, cmpBytes]

theorem test_run {β : Type} {opcode : UInt8} {F : Unit → Action β} (pending : Pending s id places)
    (room : Room s (e.load.length + 9) 0 1) :
    ∃ s', (do
        let _ ← coerceValue e.typeInfo
        emitCmpEax0
        emitJcc opcode id
        F ()) s = F () s' ∧
      Emitted {id} s (tested e.load opcode ++ le32 0) s' ∧ Moved s s' 0 0 1 ∧
      Pending s' id ((s.textN + (tested e.load opcode).length) :: places) := by
  have text := room.text
  have lfix := room.lfix
  have compared : Emitted {id} s (e.load ++ cmpBytes) ((s.append e.load).append cmpBytes) := by
    rw [append_append]
    refine append_emitted ?_
    rw [length_append]
    exact le_trans (Nat.add_le_add_left (Nat.add_le_add_left (by decide) _) _) text
  have moved := (append_moved e.load s).append cmpBytes
  have pending' : Pending ((s.append e.load).append cmpBytes) id places :=
    append_pending (append_pending pending)
  have length := compared.length
  have limits := compared.context.1
  rw [length_append, show cmpBytes.length = 3 from rfl] at length
  obtain ⟨s', ran, isReferred⟩ := @bind_emitJcc _ _ _ _ opcode F pending'
    (by rw [limits]; omega) (by rw [limits, moved.lfixN]; omega)
  refine ⟨s', ?_, ?_, moved.trans isReferred.moved, ?_⟩
  · rw [run_bind (coerceValue_run e s), emitCmpEax0, bind_emits]
    exact ran
  · have all := compared.trans isReferred.emitted
    rw [← append_assoc] at all
    exact all
  · have isPending := isReferred.pending
    rw [compared.length, Nat.add_assoc, ← length_append] at isPending
    exact isPending

theorem Room.weaken {text text' labels' refs' : Nat} (room : Room s text labels refs)
    (lessText : text' ≤ text) (lessLabels : labels' ≤ labels) (lessRefs : refs' ≤ refs) :
    Room s text' labels' refs' :=
  room.after (Emitted.refl ∅ s) (Moved.refl s) (by simpa using lessText) (by simpa using lessLabels)
    (by simpa using lessRefs)

theorem tests_run {opcode : UInt8} {operand : Action TypeInfo} {tokens : Nat}
    {β : Type} {F : Unit → Action β} {s₀ : Compiler} {opened : Nat} (pending : Pending s id [])
    (start : Emitted X s₀ [] s) (moved : Moved s₀ s 1 opened 0) (isOpen : id ∈ X)
    (made : ∀ id ∈ X, s₀.labelN ≤ id)
    (room :
      Room s₀ (e.load.length + (e'.valueCode env).length + 18) (opened + e'.labels) (e'.refs + 2))
    (ran : ∀ s₁, Emitted ∅ s₀ (tested e.load opcode ++ le32 0) s₁ → Moved s₀ s₁ 1 opened 1 →
      OperandRuns operand e' (e'.code env) tokens s₁) :
    ∃ s', (do
        let _ ← coerceValue e.typeInfo
        emitCmpEax0
        emitJcc opcode id
        let rt ← operand
        let _ ← coerceValue rt
        emitCmpEax0
        emitJcc opcode id
        F ()) s = F () s' ∧
      Emitted X s₀ (tested e.load opcode ++ le32 0 ++ tested (e'.valueCode env) opcode ++ le32 0)
        s' ∧
      Moved s₀ s' (1 + tokens) (opened + e'.labels) (e'.refs + 2) ∧
      Pending s' id
        [s₀.textN + (tested e.load opcode ++ le32 0 ++ tested (e'.valueCode env) opcode).length,
        s₀.textN + (tested e.load opcode).length] ∧
      ∀ other, other ≠ id → Pending s other [] → Pending s' other [] := by
  have length := start.length
  rw [length_nil, Nat.add_zero] at length
  rw [Expr.valueCode, length_append] at room
  obtain ⟨s₁, runs₁, emitted₁, moved₁, pending₁⟩ := @test_run s id [] e β opcode
    (fun _ => do
      let rt ← operand
      let _ ← coerceValue rt
      emitCmpEax0
      emitJcc opcode id
      F ()) pending (room.after start moved (by simp; omega) (by omega) (by omega))
  have isFresh : ∀ id ∈ X, id ∉ (∅ : Set Nat) → s₀.labelN ≤ id := fun id member _ => made id member
  have part : {id} ⊆ X := Set.singleton_subset_iff.mpr isOpen
  have first := start.trans (emitted₁.weaken part)
  have movedFirst := moved.trans moved₁
  rw [nil_append] at first
  obtain ⟨s₂, runs₂, emitted₂, moved₂⟩ := ran s₁ (first.drop isFresh) movedFirst
  have second := first.trans (emitted₂.weaken (Set.empty_subset _))
  have movedSecond := movedFirst.trans moved₂
  obtain ⟨s₃, runs₃, emitted₃, moved₃, pending₃⟩ := @test_run s₂ id _ e' β opcode F
    (pending₁.emitted emitted₂ (Set.notMem_empty _))
    (room.after second movedSecond
      (by rw [length_append, length_append, tested_length, le32_length]; omega)
      (by omega) (by omega))
  refine ⟨s₃, ?_, ?_, ?_, ?_, ?_⟩
  · rw [runs₁, run_bind runs₂, runs₃]
  · have all := second.trans (emitted₃.weaken part)
    simpa [tested, Expr.valueCode] using all
  · have all := movedSecond.trans moved₃
    rw [show 0 + 1 + e'.refs + 1 = e'.refs + 2 by omega] at all
    exact all
  · have same : tested e.load opcode ++ le32 0 ++ e'.code env ++ tested e'.load opcode =
        tested e.load opcode ++ le32 0 ++ tested (e'.valueCode env) opcode := by
      simp [tested, Expr.valueCode]
    rw [second.length, length, Nat.add_assoc, ← length_append, same] at pending₃
    exact pending₃
  · intro other apart isPending
    exact ((isPending.emitted emitted₁ apart).emitted emitted₂ (Set.notMem_empty _)).emitted
      emitted₃ apart

variable (load operand : List UInt8)

/-- The code of `&&` behind that of its left operand. -/
def landTail : List UInt8 :=
  tested load 0x84 ++ le32 (BitVec.ofNat 32 (operand.length + 19)) ++ tested operand 0x84 ++
    le32 10 ++
    ([0xB8] ++ le32 1 ++ [0xE9]) ++ le32 0

/-- The code of `||` behind that of its left operand. -/
def lorTail : List UInt8 :=
  tested load 0x85 ++ le32 (BitVec.ofNat 32 (operand.length + 19)) ++ tested operand 0x85 ++
    le32 10 ++
    ([0xB8] ++ le32 0 ++ [0xE9]) ++ le32 5 ++ ([0xB8] ++ le32 1)

theorem landTail_length : (landTail load operand).length = load.length + operand.length + 28 := by
  simp only [landTail, length_append, tested_length, le32_length, length_cons, length_nil]
  omega

theorem lorTail_length : (lorTail load operand).length = load.length + operand.length + 33 := by
  simp only [lorTail, length_append, tested_length, le32_length, length_cons, length_nil]
  omega

theorem land_code (env : List UInt8 → BitVec 32) (left right : Expr) :
    (Expr.land left right).code env = left.code env ++ landTail left.load
    (right.valueCode env) := by
  simp [Expr.code, Expr.valueCode, tested, landTail]

theorem lor_code (env : List UInt8 → BitVec 32) (left right : Expr) :
    (Expr.lor left right).code env = left.code env ++ lorTail left.load (right.valueCode env) := by
  simp [Expr.code, Expr.valueCode, tested, lorTail]

/-- What a turn of the loop of `land` or `lor` does, with the code it emits. -/
def Turns (env : List UInt8 → BitVec 32) (opcode : UInt8) (opened : Nat) (e e' : Expr)
    (step : Action TypeInfo → TypeInfo → Action Unit) (code : List UInt8) : Prop :=
  ∀ (operand : Action TypeInfo) (tokens : Nat) (s : Compiler),
    Room s code.length (opened + e'.labels) (3 + e'.refs) →
    (∀ s₁, Emitted ∅ s (tested e.load opcode ++ le32 0) s₁ → Moved s s₁ 1 opened 1 →
      OperandRuns operand e' (e'.code env) tokens s₁) →
    ∃ s', step operand e.typeInfo s = .ok ((), s') ∧ Emitted ∅ s code s' ∧
      Moved s s' (1 + tokens) (opened + e'.labels) (3 + e'.refs)

theorem landStep_run (env : List UInt8 → BitVec 32) (e e' : Expr) :
    Turns env 0x84 1 e e' landStep (landTail e.load (e'.valueCode env)) := by
  intro operand tokens s room ran
  rw [landTail_length] at room
  have text := room.text
  have lfix := room.lfix
  have isPending : Pending s.label.next s.labelN [] :=
    { (label_pending s) with }
  have made : ∀ id ∈ ({s.labelN} : Set Nat), s.labelN ≤ id :=
    fun id member => (Set.mem_singleton_iff.mp member).ge
  obtain ⟨s₃, runs₃, emitted₃, moved₃, pending₃, -⟩ :=
    @tests_run s.label.next {s.labelN} s.labelN env e e' 0x84
    operand tokens Unit
    (fun _ => do
      emit1 0xB8
      emit32 1
      emitJmp s.labelN
      emitLabel s.labelN) s 1 isPending (label_emitted _ s).next (label_moved s).next rfl made
      (room.weaken (by omega) (by omega) (by omega)) ran
  have emitted₄ :
    Emitted {s.labelN} s (tested e.load 0x84 ++ le32 0 ++ tested (e'.valueCode env) 0x84 ++
      le32 0 ++ ([0xB8] ++ le32 1)) ((s₃.append [0xB8]).append (le32 1)) := by
    rw [append_append]
    refine emitted₃.append ?_
    simp only [length_append, tested_length, le32_length, length_cons, length_nil] at text ⊢
    omega
  have moved₄ := (moved₃.append [0xB8]).append (le32 1)
  have pending₄ := @append_pending _ _ _ (le32 1) (@append_pending _ _ _ [0xB8] pending₃)
  have lengths := emitted₄.length
  simp only [length_append, tested_length, le32_length, length_cons, length_nil] at lengths text
  obtain ⟨s₅, runs₅, isReferred⟩ := @bind_emitJmp _ _ _ _ (fun _ => emitLabel s.labelN) pending₄
    (by rw [emitted₄.context.1, lengths]; omega) (by rw [emitted₄.context.1, moved₄.lfixN]; omega)
  have draft : tested e.load 0x84 ++ le32 0 ++ tested (e'.valueCode env) 0x84 ++ le32 0 ++
      ([0xB8] ++ le32 1) ++ ([0xE9] ++ le32 0) =
      tested e.load 0x84 ++ le32 0 ++ tested (e'.valueCode env) 0x84 ++ le32 0 ++
        ([0xB8] ++ le32 1 ++ [0xE9]) ++ le32 0 ++ [] := by simp
  have emitted₅ := emitted₄.trans isReferred.emitted
  have pending₅ := isReferred.pending
  rw [draft] at emitted₅
  rw [emitted₄.length, Nat.add_assoc, ← length_append, append_assoc _ _ [0xE9]] at pending₅
  refine ⟨s₅.place s.labelN, ?_, ?_, ?_⟩
  · rw [landStep, run_bind (newLabel_run (by have := room.labels; omega)), bind_advance, runs₃,
      bind_emit1, bind_emit32,
      runs₅]
    rfl
  · have placed := three_placed (Set.mem_singleton _) (le_refl _) emitted₅ pending₅
    have far : (tested (e'.valueCode env) 0x84).length + 4 +
      ([0xB8] ++ le32 1 ++ [(0xE9 : UInt8)]).length +
        4 + ([] : List UInt8).length = (e'.valueCode env).length + 19 := by
      rw [tested_length]
      rfl
    rw [far, append_nil] at placed
    exact placed.drop fun id member _ => made id member
  · have all := (moved₄.trans isReferred.moved).trans (place_moved s₅ s.labelN)
    rw [show e'.refs + 2 + 1 + 0 = 3 + e'.refs by omega] at all
    exact all

theorem place_pending {L : Nat} (pending : Pending s id places) (apart : id ≠ L) :
    Pending (s.place L) id places := by
  refine ⟨pending.known, ?_, ?_⟩
  · exact (Function.update_of_ne apart _ _).trans pending.unplaced
  · have same : (s.place L).labelList id = s.labelList id := Function.update_of_ne apart _ _
    rw [same]
    exact pending.chain

theorem lorStep_run (env : List UInt8 → BitVec 32) (e e' : Expr) :
    Turns env 0x85 2 e e' lorStep (lorTail e.load (e'.valueCode env)) := by
  intro operand tokens s room ran
  rw [lorTail_length] at room
  have text := room.text
  have labels := room.labels
  have lfix := room.lfix
  have made : ∀ id ∈ ({s.labelN, s.labelN + 1} : Set Nat), s.labelN ≤ id := by
    rintro id (rfl | rfl)
    · exact le_refl _
    · exact Nat.le_succ _
  have isTrue : s.labelN ∈ ({s.labelN, s.labelN + 1} : Set Nat) := .inl rfl
  have isEnd : s.labelN + 1 ∈ ({s.labelN, s.labelN + 1} : Set Nat) := .inr rfl
  have first := (label_pending s).emitted (label_emitted ∅ s.label) (Set.notMem_empty _)
  have second := label_pending s.label
  obtain ⟨s₃, runs₃, emitted₃, moved₃, pending₃, others⟩ := @tests_run s.label.label.next
    {s.labelN, s.labelN + 1} s.labelN env e e' 0x85 operand tokens Unit
    (fun _ => do
      emit1 0xB8
      emit32 0
      emitJmp (s.labelN + 1)
      emitLabel s.labelN
      emit1 0xB8
      emit32 1
      emitLabel (s.labelN + 1)) s 2 { first with }
      ((label_emitted _ s).trans (label_emitted _ s.label)).next
      ((label_moved s).trans (label_moved s.label)).next isTrue made
      (room.weaken (by omega) (by omega) (by omega)) ran
  have end₃ := others (s.labelN + 1) (by omega) { second with }
  have emitted₄ : Emitted {s.labelN, s.labelN + 1} s (tested e.load 0x85 ++ le32 0 ++
      tested (e'.valueCode env) 0x85 ++ le32 0 ++
        ([0xB8] ++ le32 0)) ((s₃.append [0xB8]).append (le32 0)) := by
    rw [append_append]
    refine emitted₃.append ?_
    simp only [length_append, tested_length, le32_length, length_cons, length_nil] at text ⊢
    omega
  have moved₄ := (moved₃.append [0xB8]).append (le32 0)
  have pending₄ := @append_pending _ _ _ (le32 0) (@append_pending _ _ _ [0xB8] pending₃)
  have end₄ := @append_pending _ _ _ (le32 0) (@append_pending _ _ _ [0xB8] end₃)
  have lengths := emitted₄.length
  simp only [length_append, tested_length, le32_length, length_cons, length_nil] at lengths text
  obtain ⟨s₅, runs₅, isReferred⟩ := @bind_emitJmp _ _ _ _ (fun _ => do
      emitLabel s.labelN
      emit1 0xB8
      emit32 1
      emitLabel (s.labelN + 1)) end₄
    (by rw [emitted₄.context.1, lengths]; omega) (by rw [emitted₄.context.1, moved₄.lfixN]; omega)
  have draft : tested e.load 0x85 ++ le32 0 ++ tested (e'.valueCode env) 0x85 ++ le32 0 ++
      ([0xB8] ++ le32 0) ++ ([0xE9] ++ le32 0) =
      tested e.load 0x85 ++ le32 0 ++ tested (e'.valueCode env) 0x85 ++ le32 0 ++
        ([0xB8] ++ le32 0 ++ [0xE9] ++ le32 0) := by simp
  have emitted₅ := emitted₄.trans (isReferred.emitted.weaken (Set.singleton_subset_iff.mpr isEnd))
  rw [draft] at emitted₅
  have pending₅ := pending₄.emitted isReferred.emitted (by simp)
  have end₅ := isReferred.pending
  rw [emitted₄.length, Nat.add_assoc, ← length_append, append_assoc _ _ [0xE9]] at end₅
  -- `ltrue` is placed behind the jump over the last instruction.
  have emitted₆ := two_placed isTrue (le_refl _) emitted₅ pending₅
  have far : (tested (e'.valueCode env) 0x85).length + 4 +
    ([0xB8] ++ le32 0 ++ [(0xE9 : UInt8)] ++ le32 0).length =
      (e'.valueCode env).length + 19 := by
    rw [tested_length]
    rfl
  rw [far] at emitted₆
  have end₆ := @place_pending _ _ _ s.labelN end₅ (by omega)
  have emitted₇ : Emitted {s.labelN, s.labelN + 1} s (tested e.load 0x85 ++
      le32 (BitVec.ofNat 32 ((e'.valueCode env).length + 19)) ++ tested (e'.valueCode env) 0x85 ++
        le32 10 ++
      ([0xB8] ++ le32 0 ++ [0xE9]) ++ le32 0 ++ ([0xB8] ++ le32 1))
      (((s₅.place s.labelN).append [0xB8]).append (le32 1)) := by
    rw [append_append]
    have last := @Emitted.append _ _ _ _ ([0xB8] ++ le32 1) emitted₆ (by
      simp only [length_append, tested_length, le32_length, length_cons, length_nil]
      omega)
    simpa using last
  have end₇ := @append_pending _ _ _ (le32 1) (@append_pending _ _ _ [0xB8] end₆)
  refine ⟨(((s₅.place s.labelN).append [0xB8]).append (le32 1)).place (s.labelN + 1), ?_, ?_, ?_⟩
  · have label₂ : newLabel s.label = .ok (s.labelN + 1, s.label.label) :=
      newLabel_run (by change s.labelN + 1 < s.limits.labels; omega)
    rw [lorStep, run_bind (newLabel_run (by omega)), run_bind label₂, bind_advance, runs₃,
      bind_emit1,
      bind_emit32, runs₅, bind_emitLabel, bind_emit1, bind_emit32]
    rfl
  · have places : s.textN +
      (tested e.load 0x85 ++ le32 0 ++ tested (e'.valueCode env) 0x85 ++ le32 0 ++
        ([0xB8] ++ le32 0 ++ [0xE9])).length = s.textN + (tested e.load 0x85 ++
          le32 (BitVec.ofNat 32 ((e'.valueCode env).length + 19)) ++
            tested (e'.valueCode env) 0x85 ++ le32 10 ++
          ([0xB8] ++ le32 0 ++ [0xE9])).length := by
      simp only [length_append, le32_length]
    rw [places] at end₇
    exact (one_placed isEnd (Nat.le_succ _) emitted₇ end₇).drop fun id member _ => made id member
  · have all :=
      ((((moved₄.trans isReferred.moved).trans (place_moved s₅ s.labelN)).append [0xB8]).append
      (le32 1)).trans (place_moved _ (s.labelN + 1))
    rw [show e'.refs + 2 + 1 + 0 + 0 = 3 + e'.refs by omega] at all
    exact all

theorem Moved.congr {tokens tokens' labels' refs' : Nat} (moved : Moved s s' tokens labels refs)
    (sameTokens : tokens = tokens') (sameLabels : labels = labels') (sameRefs : refs = refs') :
    Moved s s' tokens' labels' refs' := by
  subst sameTokens sameLabels sameRefs
  exact moved

theorem shortCircuit_emits {whole : Expr} {opcode : UInt8} {opened : Nat}
    {step : Action TypeInfo → TypeInfo → Action Unit} {code : List UInt8} (inRange : k < 11)
    (atLeast : 1 ≤ k)
    (isHere : max 1 (k + 1) ≤ operatorLevel tk.kind)
    (turn : ∀ g f fuel t s s', s.toks s.pos = tk → step (level (expr g) f k) t s = .ok ((), s') →
      levelLoop (expr g) f (k + 1) (fuel + 1) t s =
        levelLoop (expr g) f (k + 1) fuel whole.typeInfo s')
    (turns : Turns env opcode opened e e' step code) (isCode : whole.code env = e.code env ++ code)
    (isValue : whole.load = []) (long : e.load.length + 9 + (e'.valueCode env).length ≤ code.length)
    (isVars : whole.vars = e.vars ++ e'.vars)
    (isLabels : whole.labels = e.labels + (opened + e'.labels))
    (isRefs : whole.refs = e.refs + (3 + e'.refs)) (ofLeft : Emits env (k + 1) ts e)
    (ofRight : Emits env k ts' e') : Emits env (k + 1) (ts ++ tk :: ts') whole := by
  intro g f s deep fuelled ready
  rw [length_append, length_cons] at deep fuelled
  have room := ready.room
  rw [Expr.valueCode, isValue, isCode, append_nil, length_append, isLabels, isRefs] at room
  have start : Room s (e.valueCode env).length e.labels e.refs := by
    refine room.weaken ?_ (by omega) (by omega)
    rw [Expr.valueCode, length_append]
    omega
  have ready₁ : Ready env (k + 1) ts e s :=
    ready.left isHere start (by rw [isVars]; exact subset_append_left ..)
  obtain ⟨n, s₁, few, runs₁, emitted₁, moved₁⟩ := ofLeft g f s (by omega) (by omega) ready₁
  have isTk := ready.operator emitted₁ moved₁.pos
  have room₁ : Room s₁ code.length (opened + e'.labels) (3 + e'.refs) :=
    room.after emitted₁ moved₁ (le_refl _) (le_refl _) (le_refl _)
  have ran : ∀ s₂, Emitted ∅ s₁ (tested e.load opcode ++ le32 0) s₂ → Moved s₁ s₂ 1 opened 1 →
      OperandRuns (level (expr g) f k) e' (e'.code env) ts'.length s₂ := by
    intro s₂ emitted₂ moved₂
    have emitted := emitted₁.trans emitted₂
    have moved := moved₁.trans moved₂
    have room₂ : Room s₂ (e'.valueCode env).length e'.labels e'.refs := by
      refine room₁.after emitted₂ moved₂ ?_ (le_refl _) (by omega)
      rw [length_append, tested_length, le32_length]
      omega
    have ready₂ : Ready env k ts' e' s₂ :=
      ready.right emitted moved (by omega) room₂ (by rw [isVars]; exact subset_append_right ..)
    have behind := ready.behind emitted moved.pos
    have long' : ts'.length + min k 1 < f := by omega
    have deep' : ts'.length < g := by omega
    exact ofRight.returns (by omega) deep' long' ready₂ (by omega)
  obtain ⟨s₃, runs₃, emitted₃, moved₃⟩ := turns (level (expr g) f k) ts'.length s₁ room₁ ran
  obtain ⟨fuel, isFuel⟩ : ∃ fuel, f - n = fuel + 1 := ⟨f - n - 1, by omega⟩
  refine ⟨n + 1, s₃, ?_, ?_, ?_, ?_⟩
  · rw [length_append, length_cons]
    omega
  · rw [runs₁, isFuel, turn g f fuel _ s₁ s₃ isTk runs₃, show f - (n + 1) = fuel by omega]
  · rw [isCode]
    exact emitted₁.trans emitted₃
  · refine (moved₁.trans moved₃).congr ?_ isLabels.symm isRefs.symm
    rw [length_append, length_cons, Nat.add_comm 1]

theorem land_emits (isOp : tk.kind = .tkLand) (ofLeft : Emits env 10 ts e)
    (ofRight : Emits env 9 ts' e') : Emits env 10 (ts ++ tk :: ts') (.land e e') := by
  refine shortCircuit_emits (by decide) (by decide) (by rw [isOp]; decide) ?_
    (landStep_run env e e')
    (land_code env e e') rfl (by rw [landTail_length]; omega) rfl (Nat.add_assoc ..)
      (Nat.add_assoc ..) ofLeft ofRight
  intro g f fuel t s s' isTk ran
  rw [levelLoop, levelLoop, landLoop, bind_atKind, decide_eq_true (by rw [isTk]; exact isOp),
    if_pos rfl,
    run_bind ran]
  rfl

theorem lor_emits (isOp : tk.kind = .tkLor) (ofLeft : Emits env 11 ts e)
    (ofRight : Emits env 10 ts' e') : Emits env 11 (ts ++ tk :: ts') (.lor e e') := by
  refine shortCircuit_emits (by decide) (by decide) (by rw [isOp]; decide) ?_ (lorStep_run env e e')
    (lor_code env e e') rfl (by rw [lorTail_length]; omega) rfl (Nat.add_assoc ..)
      (Nat.add_assoc ..) ofLeft ofRight
  intro g f fuel t s s' isTk ran
  rw [levelLoop, levelLoop, lorLoop, bind_atKind, decide_eq_true (by rw [isTk]; exact isOp),
    if_pos rfl,
    run_bind ran]
  rfl

theorem attempt_none {tentative : Action (Option Bool)} (ran : tentative s = .ok (none, s')) :
    attempt tentative s = .ok (none, s.rewind s') := by
  rw [attempt, ran]
  rfl

theorem lvalueIndices_none {scale : Nat} {baseIsPtr indexed : Bool}
    (noIndex : (s.toks s.pos).kind ≠ .punct '[') :
    lvalueIndices E scale baseIsPtr (f + 1) indexed s = .ok (indexed, s) := by
  rw [lvalueIndices, bind_atKind, decide_eq_false noIndex]
  rfl

theorem assignTarget_var {i : Nat} (isTk : s.toks s.pos = tk) (isIdent : tk.kind = .tkIdent)
    (found : findSym s.syms tk.text s.symN = some i) (isLocal : (s.syms i).kind = .local)
    (noIndex : (s.toks (s.pos + 1)).kind ≠ .punct '[')
    (noAssign : (s.toks (s.pos + 1)).kind ≠ .punct '=') :
    assignTarget E (f + 1) s = .ok (none, (s.note (.use s.scope tk.text i (s.syms i))).next.append
        ([0x8D, mrm 2 0 5] ++ le32 (s.syms i).addr)) := by
  let noted := (s.note (.use s.scope tk.text i (s.syms i))).next
  let final := noted.append ([0x8D, mrm 2 0 5] ++ le32 (s.syms i).addr)
  have here : final.toks final.pos = s.toks (s.pos + 1) := by
    rw [append_toks, append_pos]
    rfl
  have addressed : emitSymAddr i noted = .ok ((), final) := @emitSymAddr_local noted i isLocal
  have lvalue : ∃ isChar, parseLvalueAddr E (f + 1) s = .ok (some isChar, final) := by
    refine ⟨decide ((s.syms i).type = .char) && !(s.syms i).isPtr && !(s.syms i).isArray, ?_⟩
    rw [parseLvalueAddr, bind_cur, isTk, if_pos isIdent, run_bind (resolve_run found), bind_advance,
      bind_symAt, run_bind addressed, run_bind (lvalueIndices_none (by rw [here]; exact noIndex))]
    rfl
  obtain ⟨isChar, isLvalue⟩ := lvalue
  rw [assignTarget, run_bind isLvalue]
  dsimp only
  rw [bind_atKind, decide_eq_false (by rw [here]; exact noAssign)]
  rfl

theorem assignTarget_none (noIdent : (s.toks s.pos).kind ≠ .tkIdent)
    (noStar : (s.toks s.pos).kind ≠ .punct '*') : assignTarget E f s = .ok (none, s) := by
  have none : parseLvalueAddr E f s = .ok (none, s) := by
    rw [parseLvalueAddr, bind_cur, if_neg noIdent, if_neg noStar]
    rfl
  rw [assignTarget, run_bind none]
  rfl

theorem attempt_expression (parses : Parses k ts e) (ready : Ready env k ts e s) :
    ∃ s', attempt (assignTarget E (f + 1)) s = .ok (none, s') ∧ Emitted ∅ s [] s' ∧
      Moved s s' 0 0 0 := by
  obtain ⟨tk, rest, rfl, isFirst⟩ := parses.first
  have isTk : s.toks s.pos = tk := ready.ahead 0 (Nat.succ_pos _)
  by_cases isIdent : tk.kind = .tkIdent
  · have higher : 1 ≤ operatorLevel (s.toks (s.pos + 1)).kind := by
      rcases parses.second rfl isIdent with rfl | ⟨tk', rest', rfl, higher⟩
      · exact le_trans (le_max_left 1 k) ready.tight
      · rw [ready.ahead 1 (by simp)]
        exact le_of_lt higher
    have other : ∀ kind, operatorLevel kind = 0 → (s.toks (s.pos + 1)).kind ≠ kind := by
      rintro kind low isKind
      rw [isKind, low] at higher
      omega
    obtain ⟨i, found, isLocal, -⟩ := ready.declared tk.text (parses.firstVar rfl isIdent)
    refine ⟨_,
      attempt_none
      (assignTarget_var isTk isIdent found isLocal (other _ (by decide)) (other _ (by decide))),
      ?_, ?_⟩
    · obtain ⟨need, dropped, text, textN, isState, -, below⟩ :=
        append_eq ([0x8D, mrm 2 0 5] ++ le32 (s.syms i).addr)
        (s.note (.use s.scope tk.text i (s.syms i))).next
      rw [isState]
      exact ⟨rfl, below, fun _ inside => absurd inside (Nat.not_lt_zero _), ⟨rfl, rfl, rfl, rfl⟩,
        le_refl _,
        fun _ _ => rfl, fun _ _ _ => rfl, le_refl _, fun _ _ => rfl, rfl, fun _ _ => ⟨rfl, rfl⟩⟩
    · obtain ⟨need, dropped, text, textN, isState, -⟩ :=
        append_eq ([0x8D, mrm 2 0 5] ++ le32 (s.syms i).addr)
        (s.note (.use s.scope tk.text i (s.syms i))).next
      rw [isState]
      exact ⟨⟨rfl, rfl, fun _ _ => rfl, rfl, ⟨rfl, rfl⟩, ⟨rfl, rfl⟩, rfl, rfl⟩, rfl, rfl, rfl⟩
  · have noStar : tk.kind ≠ .punct '*' := by
      intro isStar
      rw [isStar] at isFirst
      exact absurd isFirst (by decide)
    refine ⟨_,
      attempt_none (assignTarget_none (by rw [isTk]; exact isIdent) (by rw [isTk]; exact noStar)),
      ?_, ?_⟩
    · exact Emitted.refl ∅ s
    · exact Moved.refl s

theorem Ready.moved (ready : Ready env k ts e s) (emitted : Emitted ∅ s [] s')
    (moved : Moved s s' 0 0 0) : Ready env k ts e s' := by
  refine ⟨fun i inside => ?_, ?_, ?_, fun name member =>
    moved.declared (ready.declared name member)⟩
  · rw [emitted.context.2.2.1, moved.pos]
    exact ready.ahead i inside
  · rw [emitted.context.2.2.1, moved.pos]
    exact ready.tight
  · exact ready.room.after emitted moved (by simp) (by simp) (by simp)

theorem expr_emits (parses : Parses 11 ts e) (emits : Emits env 11 ts e) (deep : ts.length + 2 < g)
    (ready : Ready env 11 ts e s) (ends : operatorLevel (s.toks (s.pos + ts.length)).kind = 12) :
    ∃ s', expr g s = .ok (intType, s') ∧ Emitted ∅ s (e.valueCode env) s' ∧
      Moved s s' ts.length e.labels e.refs := by
  obtain ⟨g, rfl⟩ : ∃ n, g = n + 2 := ⟨g - 2, by omega⟩
  obtain ⟨s₁, tried, emitted₁, moved₁⟩ :=
    @attempt_expression s env 11 g ts e (expr (g + 1)) parses ready
  have ready₁ := ready.moved emitted₁ moved₁
  have ends₁ : 11 < operatorLevel (s₁.toks (s₁.pos + ts.length)).kind := by
    rw [emitted₁.context.2.2.1, moved₁.pos, Nat.add_zero, ends]
    decide
  have deep' : ts.length < g + 1 := by omega
  have long' : ts.length + min 11 1 < g + 1 := by omega
  obtain ⟨s₂, runs₂, emitted₂, moved₂⟩ := emits.returns (by decide) deep' long' ready₁ ends₁
  have ran : lor (expr (g + 1)) (g + 1) s₁ = .ok (e.typeInfo, s₂) := runs₂
  have all := emitted₁.trans emitted₂
  rw [nil_append] at all
  refine ⟨s₂.append e.load, ?_, all.load ready.room.text, ?_⟩
  · rw [expr, assign, run_bind tried]
    dsimp only
    rw [run_bind ran, coerceValue_run]
  · exact ((moved₁.trans moved₂).append e.load).congr (Nat.zero_add _) (Nat.zero_add _)
      (Nat.zero_add _)

theorem paren_emits {left right : Token} (isLeft : left.kind = .punct '(')
    (isRight : right.kind = .punct ')')
    (parses : Parses 11 ts e) (inner : Emits env 11 ts e) :
    Emits env 0 (left :: (ts ++ [right])) (.paren e) := by
  intro g f s deep long ready
  have deep' : ts.length + 2 < g := by simpa using deep
  have first : s.toks s.pos = left := ready.ahead 0 (Nat.succ_pos _)
  have last : s.toks (s.pos + 1 + ts.length) = right := by
    have isLast := ready.ahead (ts.length + 1) (by simp)
    rw [Nat.add_assoc, Nat.add_comm 1, isLast]
    simp
  have whole : (Expr.paren e).valueCode env = e.valueCode env := valueCode_paren env e
  have room := ready.room
  rw [whole] at room
  have stepped : Moved s s.next 1 0 0 := (Moved.refl s).next
  have started : Emitted ∅ s [] s.next := (Emitted.refl ∅ s).next
  have ends : operatorLevel (s.next.toks (s.next.pos + ts.length)).kind = 12 := by
    change operatorLevel (s.toks (s.pos + 1 + ts.length)).kind = 12
    rw [last, isRight]
    rfl
  have ready' : Ready env 11 ts e s.next := by
    refine ⟨fun i inside => ?_, by rw [ends]; decide, ?_, fun name member =>
      stepped.declared (ready.declared name member)⟩
    · have later := ready.ahead (i + 1) (by simp; omega)
      rw [← Nat.add_assoc, Nat.add_right_comm] at later
      refine later.trans ?_
      rw [getElem_cons_succ, getElem_append_left inside]
    · exact room.after started stepped (by simp) (by rw [Nat.zero_add]; exact le_refl _)
        (by rw [Nat.zero_add]; exact le_refl _)
  obtain ⟨s', ran, emitted, moved⟩ := expr_emits parses inner deep' ready' ends
  have isClose : (s'.toks s'.pos).kind = .punct ')' := by
    rw [emitted.context.2.2.1, moved.pos]
    change (s.toks (s.pos + 1 + ts.length)).kind = _
    rw [last, isRight]
  have closed : expect (.punct ')') s' = .ok ((), s'.next) := by
    rw [expect, bind_cur, if_pos isClose]
    rfl
  have runs : primary (expr g) f s = .ok (intType, s'.next) := by
    rw [primary, bind_cur, first, if_neg (by rw [isLeft]; decide), if_neg (by rw [isLeft]; decide),
      if_pos isLeft,
      bind_advance, run_bind ran, run_bind closed]
    rfl
  refine ⟨0, s'.next, Nat.zero_le _, run_bind runs, ?_, ?_⟩
  · exact (started.trans emitted).next
  · refine (stepped.trans moved).next.congr ?_ (Nat.zero_add _) (Nat.zero_add _)
    rw [length_cons, length_append, length_singleton]
    omega

/-- Whatever the grammar derives, its level emits the code of the tree. -/
theorem parses_emits (parses : Parses k ts e) : Emits env k ts e := by
  induction parses with
  | num isLiteral => exact num_emits isLiteral
  | var isIdent => exact var_emits isIdent
  | paren isLeft isRight inner ih => exact paren_emits isLeft isRight inner ih
  | un op isOp _ ih => exact un_emits isOp ih
  | bin op isOp _ _ ihLeft ihRight => exact bin_emits isOp ihLeft ihRight
  | land isOp _ _ ihLeft ihRight => exact land_emits isOp ihLeft ihRight
  | lor isOp _ _ ihLeft ihRight => exact lor_emits isOp ihLeft ihRight
  | lift inRange parses ih => exact lift_emits inRange parses ih

end M4KK1.Pcc
