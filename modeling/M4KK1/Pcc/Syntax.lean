import M4KK1.Pcc.Emission

/-!
# Integer expressions and their code

Expressions over `int` variables, their grammar `Parses`, and the code emitted for them.
-/

namespace M4KK1.Pcc

/-- The binary operators other than `&&` and `||`. -/
inductive BinOp where
  | mul | div | mod | add | sub | shl | shr | lt | gt | le | ge | eq | ne | and | xor | or
deriving DecidableEq

/-- The prefix operators. -/
inductive UnOp where
  | neg | not | compl
deriving DecidableEq

/-- An expression over literals and `int` variables. -/
inductive Expr where
  | num (value : Int)
  | var (name : List UInt8)
  | paren (e : Expr)
  | un (op : UnOp) (e : Expr)
  | bin (op : BinOp) (left right : Expr)
  | land (left right : Expr)
  | lor (left right : Expr)
deriving DecidableEq

/-- The token of an operator. -/
def UnOp.kind : UnOp → Kind
  | .neg => .punct '-'
  | .not => .punct '!'
  | .compl => .punct '~'

/-- The token of an operator. -/
def BinOp.kind : BinOp → Kind
  | .mul => .punct '*'
  | .div => .punct '/'
  | .mod => .punct '%'
  | .add => .punct '+'
  | .sub => .punct '-'
  | .shl => .tkShl
  | .shr => .tkShr
  | .lt => .punct '<'
  | .gt => .punct '>'
  | .le => .tkLe
  | .ge => .tkGe
  | .eq => .tkEq
  | .ne => .tkNe
  | .and => .punct '&'
  | .xor => .punct '^'
  | .or => .punct '|'

def BinOp.level : BinOp → Nat
  | .mul | .div | .mod => 2
  | .add | .sub => 3
  | .shl | .shr => 4
  | .lt | .gt | .le | .ge => 5
  | .eq | .ne => 6
  | .and => 7
  | .xor => 8
  | .or => 9

/-- The grammar of C: 0 primary, 1 prefix, 2 to 9 `*` to `|`, 10 and 11 `&&` and `||`. -/
inductive Parses : Nat → List Token → Expr → Prop where
  | num {tk : Token} (isLiteral : tk.kind = .tkNum ∨ tk.kind = .tkChar) :
      Parses 0 [tk] (.num tk.val)
  | var {tk : Token} (isIdent : tk.kind = .tkIdent) : Parses 0 [tk] (.var tk.text)
  | paren {left right : Token} {ts : List Token} {e : Expr} (isLeft : left.kind = .punct '(')
      (isRight : right.kind = .punct ')') (inner : Parses 11 ts e) :
      Parses 0 (left :: (ts ++ [right])) (.paren e)
  | un {tk : Token} {ts : List Token} {e : Expr} (op : UnOp) (isOp : tk.kind = op.kind)
      (operand : Parses 1 ts e) : Parses 1 (tk :: ts) (.un op e)
  | bin {tk : Token} {ts ts' : List Token} {e e' : Expr} (op : BinOp) (isOp : tk.kind = op.kind)
      (left : Parses op.level ts e) (right : Parses (op.level - 1) ts' e') :
      Parses op.level (ts ++ tk :: ts') (.bin op e e')
  | land {tk : Token} {ts ts' : List Token} {e e' : Expr} (isOp : tk.kind = .tkLand)
      (left : Parses 10 ts e) (right : Parses 9 ts' e') :
      Parses 10 (ts ++ tk :: ts') (.land e e')
  | lor {tk : Token} {ts ts' : List Token} {e e' : Expr} (isOp : tk.kind = .tkLor)
      (left : Parses 11 ts e) (right : Parses 10 ts' e') :
      Parses 11 (ts ++ tk :: ts') (.lor e e')
  | lift {level : Nat} {ts : List Token} {e : Expr} (inRange : level < 11)
      (parses : Parses level ts e) : Parses (level + 1) ts e

theorem Parses.raise {low high : Nat} {ts : List Token} {e : Expr} (parses : Parses low ts e)
    (le : low ≤ high) (inRange : high ≤ 11) : Parses high ts e := by
  induction high, le using Nat.le_induction with
  | base => exact parses
  | succ high _ ih => exact .lift (by omega) (ih (by omega))

/-- The code of an operator behind its operand. -/
def UnOp.bytes : UnOp → List UInt8
  | .neg => [0xF7, mrm 3 3 0]
  | .not => [0x83, mrm 3 7 0, 0] ++ setcc 0x94
  | .compl => [0xF7, mrm 3 2 0]

/-- The code of an operator on EAX and ECX. -/
def BinOp.bytes : BinOp → List UInt8
  | .mul => [0x0F, 0xAF, mrm 3 0 1]
  | .div => [0x99, 0xF7, mrm 3 7 1]
  | .mod => [0x99, 0xF7, mrm 3 7 1, 0x8B, mrm 3 0 2]
  | .add => [0x01, mrm 3 1 0]
  | .sub => [0x29, mrm 3 1 0]
  | .shl => [0xD3, mrm 3 4 0]
  | .shr => [0xD3, mrm 3 7 0]
  | .lt => cmpCode 0x9C
  | .gt => cmpCode 0x9F
  | .le => cmpCode 0x9E
  | .ge => cmpCode 0x9D
  | .eq => cmpCode 0x94
  | .ne => cmpCode 0x95
  | .and => [0x21, mrm 3 1 0]
  | .xor => [0x31, mrm 3 1 0]
  | .or => [0x09, mrm 3 1 0]

/-- `cmp eax, 0` -/
def cmpBytes : List UInt8 := [0x83, mrm 3 7 0, 0]

/-- A variable by itself leaves its address; whoever needs the value loads it. -/
def Expr.isVar : Expr → Bool
  | .var _ => true
  | _ => false

/-- The load of the value behind the address of a variable. -/
def Expr.load (e : Expr) : List UInt8 := if e.isVar then [0x8B, mrm 0 0 0] else []

/-- The code of an expression, with the offsets of the variables in the frame. -/
def Expr.code (env : List UInt8 → BitVec 32) : Expr → List UInt8
  | .num value => 0xB8 :: le32 (BitVec.ofInt 32 value)
  | .var name => [0x8D, mrm 2 0 5] ++ le32 (env name)
  | .paren e => e.code env ++ e.load
  | .un op e => e.code env ++ e.load ++ op.bytes
  | .bin op left right =>
    left.code env ++ left.load ++ [0x50] ++ (right.code env ++ right.load) ++
      [0x89, mrm 3 0 1, 0x58] ++ op.bytes
  | .land left right =>
    let operand := right.code env ++ right.load
    left.code env ++ left.load ++ cmpBytes ++ [0x0F, 0x84] ++
      le32 (BitVec.ofNat 32 (operand.length + 19)) ++ operand ++ cmpBytes ++ [0x0F, 0x84] ++
      le32 10 ++ [0xB8] ++ le32 1 ++ [0xE9] ++ le32 0
  | .lor left right =>
    let operand := right.code env ++ right.load
    left.code env ++ left.load ++ cmpBytes ++ [0x0F, 0x85] ++
      le32 (BitVec.ofNat 32 (operand.length + 19)) ++ operand ++ cmpBytes ++ [0x0F, 0x85] ++
      le32 10 ++ [0xB8] ++ le32 0 ++ [0xE9] ++ le32 5 ++ [0xB8] ++ le32 1

def Expr.valueCode (env : List UInt8 → BitVec 32) (e : Expr) : List UInt8 := e.code env ++ e.load

theorem valueCode_paren (env : List UInt8 → BitVec 32) (e : Expr) :
    (Expr.paren e).valueCode env = e.valueCode env :=
  List.append_nil _

theorem valueCode_un (env : List UInt8 → BitVec 32) (op : UnOp) (e : Expr) :
    (Expr.un op e).valueCode env = e.valueCode env ++ op.bytes := by
  simp [Expr.valueCode, Expr.code, Expr.load, Expr.isVar]

/-- The code of a binary operation: left, push, right, pop, operate. -/
theorem valueCode_bin (env : List UInt8 → BitVec 32) (op : BinOp) (left right : Expr) :
    (Expr.bin op left right).valueCode env = left.valueCode env ++
    ([0x50] ++ (right.valueCode env ++
        ([0x89, mrm 3 0 1, 0x58] ++ op.bytes))) := by
  simp [Expr.valueCode, Expr.code, Expr.load, Expr.isVar]

def Expr.labels : Expr → Nat
  | .num _ | .var _ => 0
  | .paren e | .un _ e => e.labels
  | .bin _ left right => left.labels + right.labels
  | .land left right => left.labels + 1 + right.labels
  | .lor left right => left.labels + 2 + right.labels

/-- The references to labels that an expression leaves in `lfix`. -/
def Expr.refs : Expr → Nat
  | .num _ | .var _ => 0
  | .paren e | .un _ e => e.refs
  | .bin _ left right => left.refs + right.refs
  | .land left right => left.refs + 3 + right.refs
  | .lor left right => left.refs + 3 + right.refs

def Expr.vars : Expr → List (List UInt8)
  | .num _ => []
  | .var name => [name]
  | .paren e | .un _ e => e.vars
  | .bin _ left right | .land left right | .lor left right => left.vars ++ right.vars

def Expr.typeInfo (e : Expr) : TypeInfo := if e.isVar then ⟨.int, false, true, false⟩ else intType

end M4KK1.Pcc
