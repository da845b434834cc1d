import M4KK1.Pcc.Evaluation
import M4KK1.Pcc.Parsing

/-!
# Expressions are compiled correctly

What `expr` emits at the tokens of an integer expression computes its value.
-/

namespace M4KK1.Pcc

open M4KK1.Lib M4KK1.Lib.X86

/-- The text that was emitted between two states is at an address. -/
def TextAt (code : BitVec 32 → UInt8) (address : BitVec 32) (s s' : Compiler) : Prop :=
  ∀ i < s'.textN - s.textN, code (address + BitVec.ofNat 32 i) = s'.text (s.textN + i)

theorem Emitted.codeAt {X : Set Nat} {s s' : Compiler} {code : BitVec 32 → UInt8}
    {bytes : List UInt8}
    {address : BitVec 32} (emitted : Emitted X s bytes s') (placed : TextAt code address s s') :
    CodeAt code address bytes := by
  intro i inside
  rw [placed i (by rw [emitted.length]; omega), emitted.written i inside]

/-- With room in the tables, `expr` emits code that computes the value and keeps the frame. -/
theorem expr_computes {ts : List Token} {e : Expr} {env : List UInt8 → BitVec 32} {s : Compiler}
    {g : Nat}
    (parses : Parses 11 ts e) (deep : ts.length + 2 < g) (ready : Ready env 11 ts e s)
    (ends : operatorLevel (s.toks (s.pos + ts.length)).kind = 12) :
    ∃ s', expr g s = .ok (intType, s') ∧ s'.pos = s.pos + ts.length ∧ s'.errLine = s.errLine ∧
      s'.textN = s.textN + (e.valueCode env).length ∧
      ∀ (p : Program) (m : Machine) (vars : List UInt8 → BitVec 32) (v : BitVec 32),
        TextAt p.code m.eip s s' → Frame env vars e.vars m e.depth → e.eval vars = some v →
        ∃ m', Reaches p m m' ∧ m'.eip = m.eip + BitVec.ofNat 32 (s'.textN - s.textN) ∧
          m'.regs .eax = v ∧ m'.regs .esp = m.regs .esp ∧ m'.regs .ebp = m.regs .ebp ∧
          ∀ i, i + 4 * e.depth < (m.regs .esp).toNat ∨ (m.regs .esp).toNat ≤ i →
            m'.mem i = m.mem i := by
  obtain ⟨s', ran, emitted, moved⟩ := expr_emits parses (parses_emits parses) deep ready ends
  refine ⟨s', ran, moved.pos, moved.kept.errLine, emitted.length, ?_⟩
  intro p m vars v placed frame isValue
  obtain ⟨m', reaches, after⟩ := value_reaches e m v (emitted.codeAt placed) frame isValue
  refine ⟨m', reaches, ?_, after.eax, after.esp, after.ebp, after.mem⟩
  rw [after.eip, emitted.length, Nat.add_sub_cancel_left]

/-- The tokens of `x - 2 - 1 && x`. -/
def differenceTokens : List Token :=
  [⟨.tkIdent, 0, [120], 1⟩, ⟨.punct '-', 0, [], 1⟩, ⟨.tkNum, 2, [], 1⟩, ⟨.punct '-', 0, [], 1⟩,
    ⟨.tkNum, 1, [], 1⟩, ⟨.tkLand, 0, [], 1⟩, ⟨.tkIdent, 0, [120], 1⟩]

/-- The compiler at these tokens, with a semicolon behind them and a local `x` at EBP-4. -/
def differenceState : Compiler :=
  { fresh pccLimits (fun _ => intType) with
    toks := fun i => differenceTokens.getD i ⟨.punct ';', 0, [], 1⟩
    tokN := 8
    syms := fun _ => { name := [120], kind := .local, addr := 0xFFFFFFFC }
    symN := 1 }

/-- The expression of these tokens: the difference is taken from the left. -/
def difference : Expr :=
  .land (.bin .sub (.bin .sub (.var [120]) (.num 2)) (.num 1)) (.var [120])

theorem difference_parses : Parses 11 differenceTokens difference := by
  have x : Parses 0 [⟨.tkIdent, 0, [120], 1⟩] (.var [120]) :=
    @Parses.var ⟨.tkIdent, 0, [120], 1⟩ rfl
  have number : ∀ v, Parses 0 [⟨.tkNum, v, [], 1⟩] (.num v) := fun v =>
    @Parses.num ⟨.tkNum, v, [], 1⟩ (.inl rfl)
  have minus : ∀ {ts e} v, Parses 3 ts e →
      Parses 3 (ts ++ ⟨.punct '-', 0, [], 1⟩ :: [⟨.tkNum, v, [], 1⟩]) (.bin .sub e (.num v)) :=
    fun v left => .bin .sub rfl left ((number v).raise (by decide) (by decide))
  have left := minus 1 (minus 2 (x.raise (by decide) (by decide)))
  exact (Parses.land rfl (left.raise (by decide) (by decide))
    (x.raise (by decide) (by decide))).raise
    (by decide) (by decide)

theorem difference_ready :
    Ready (fun _ => 0xFFFFFFFC) 11 differenceTokens difference differenceState := by
  refine ⟨by decide, by decide, ⟨by decide, by decide, by decide⟩, ?_⟩
  intro name member
  have isX : name = [120] := by simpa [difference, Expr.vars] using member
  subst isX
  exact ⟨0, rfl, rfl, rfl, rfl, rfl, rfl⟩

/-- A machine at address 0 with the 9 of `x` in its frame. -/
def differenceMachine : Machine where
  regs := fun r => if r = .esp then 0x1000 else if r = .ebp then 0x1010 else 0
  eip := 0
  flags := none
  mem := fun i => if i = 0x100C then 9 else 0

theorem difference_frame :
    Frame (fun _ => 0xFFFFFFFC) (fun _ => 9) difference.vars differenceMachine difference.depth :=
  ⟨by decide, fun _ _ => by decide, fun _ _ => by decide⟩

/-- The emitted code of a difference, run on a machine with the frame it expects. -/
theorem expr_computes_difference : ∃ s', expr 20 differenceState = .ok (intType, s') ∧
    ∀ interrupt, ∃ m',
      Reaches ⟨fun address => s'.text address.toNat, interrupt⟩ differenceMachine m' ∧
      m'.regs .eax = 1 ∧ m'.regs .esp = 0x1000 := by
  obtain ⟨s', ran, -, -, length, computes⟩ :=
    expr_computes (g := 20) difference_parses (by decide) difference_ready (by decide)
  refine ⟨s', ran, fun interrupt => ?_⟩
  have short : s'.textN = 66 := length.trans (by decide)
  have placed : TextAt (fun address => s'.text address.toNat) differenceMachine.eip differenceState
      s' := by
    intro i inside
    have small : i < 2 ^ 32 := by
      have : s'.textN - differenceState.textN ≤ 66 := by rw [short]; exact Nat.sub_le ..
      omega
    have same : (0#32 + BitVec.ofNat 32 i).toNat = 0 + i := by
      rw [BitVec.zero_add, BitVec.toNat_ofNat, Nat.zero_add]
      exact Nat.mod_eq_of_lt small
    exact congrArg s'.text same
  obtain ⟨m', reaches, -, eax, esp, -⟩ :=
    computes ⟨fun address => s'.text address.toNat,
      interrupt⟩ differenceMachine (fun _ => 9) 1 placed
      difference_frame (by decide)
  exact ⟨m', reaches, eax, esp⟩

end M4KK1.Pcc
