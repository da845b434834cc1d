import M4KK1.Calc.Division

/-!
# The expressions of `calc`

`calc` computes while it reads an expression by recursive descent. On the text of a syntax tree it
computes the value of the tree. The functions in floating point are a parameter.
-/

namespace M4KK1.Calc

open List

inductive Fn where
  | sqrt | abs | sin | cos | exp | log
deriving DecidableEq

/-- `token_t` -/
inductive Token where
  | eof
  | num (nval : BitVec 64)
  | var (vidx : Fin 26)
  | plus | minus | mul | div | mod | pow | lparen | rparen | eq
  | fn (f : Fn)
  | ans | semi | comma
deriving DecidableEq

def isWs (c : UInt8) : Bool := c = 32 ∨ c = 9

def isDigit (c : UInt8) : Bool := 48 ≤ c ∧ c ≤ 57

def isLower (c : UInt8) : Bool := 97 ≤ c ∧ c ≤ 122

/-- The loop of `pow10i`, which stops in front of an overflow. -/
def pow10iLoop : Nat → BitVec 64 → BitVec 64
  | 0, r => r
  | n + 1, r => if divdi3 (r * 10) 10 ≠ r then r else pow10iLoop n (r * 10)

def pow10i (n : Nat) : BitVec 64 := pow10iLoop n 1

/-- The loops of `next_token` over digits. -/
def digitsValue (digits : List UInt8) : BitVec 64 :=
  digits.foldl (fun v c => v * 10 + BitVec.ofNat 64 (c.toNat - 48)) 0

/-- `(fv * p) / fp` -/
def fractionValue (scale : Nat) (digits : List UInt8) : BitVec 64 :=
  divdi3 (digitsValue digits * pow10i scale) (pow10i digits.length)

def Fn.name : Fn → List UInt8
  | sqrt => [115, 113, 114, 116]
  | abs => [97, 98, 115]
  | sin => [115, 105, 110]
  | cos => [99, 111, 115]
  | exp => [101, 120, 112]
  | log => [108, 111, 103]

/-- A word is a function, `ans`, or the variable of its first letter. -/
def wordToken (word : List UInt8) : Token :=
  match [Fn.sqrt, .abs, .sin, .cos, .exp, .log].find? fun f => f.name = word with
  | some f => .fn f
  | none => if word = [97, 110, 115] then .ans else .var (Fin.ofNat 26 (word.headD 97 - 97).toNat)

def symbolToken : UInt8 → Token
  | 43 => .plus
  | 45 => .minus
  | 42 => .mul
  | 47 => .div
  | 37 => .mod
  | 94 => .pow
  | 40 => .lparen
  | 41 => .rparen
  | 61 => .eq
  | 59 => .semi
  | 44 => .comma
  | _ => .eof

/-- `next_token`: the token, and the text behind it. -/
def nextToken (scale : Nat) (s : List UInt8) : Token × List UInt8 :=
  let s := s.dropWhile isWs
  match s with
  | [] => (.eof, s)
  | c :: rest =>
    if c = 35 ∨ c = 10 ∨ c = 13 then (.eof, s)
    else if isDigit c then
      let whole := digitsValue (s.takeWhile isDigit) * pow10i scale
      match s.dropWhile isDigit with
      | 46 :: rest =>
        (.num (whole + fractionValue scale (rest.takeWhile isDigit)), rest.dropWhile isDigit)
      | rest => (.num whole, rest)
    else if c = 46 then
      let fraction := rest.takeWhile isDigit
      if fraction = [] then (.eof, s)
        else (.num (fractionValue scale fraction), rest.dropWhile isDigit)
    else if isLower c then (wordToken (s.takeWhile isLower), s.dropWhile isLower)
    else if symbolToken c = .eof then (.eof, s)
    else (symbolToken c, rest)

/-- What is printed about an error. -/
inductive Complaint where
  | overflow | divisionByZero | modByZero | missingParen
  | syntaxError (near : List UInt8)
deriving DecidableEq

def Complaint.text : Complaint → String
  | overflow => "calc: overflow\n"
  | divisionByZero => "calc: division by zero\n"
  | modByZero => "calc: mod by zero\n"
  | missingParen => "calc: missing ')'\n"
  | syntaxError near =>
    "calc: syntax error near '" ++ String.ofList (near.map fun c => Char.ofNat c.toNat) ++ "'\n"

/-- The static variables that outlive an expression, and what was printed. -/
structure Memory where
  vars : Fin 27 → BitVec 64
  varScale : Fin 27 → Nat
  evalError : Bool
  out : List Complaint

def Memory.complain (m : Memory) (c : Complaint) : Memory :=
  { m with evalError := true, out := m.out ++ [c] }

/-- `cur`, and the text of `cstr` from `cpos` on. -/
structure Evaluator where
  cur : Token
  rest : List UInt8
  mem : Memory

inductive TermOp where
  | mul | div | mod
deriving DecidableEq

def termOp : Token → Option TermOp
  | .mul => some .mul
  | .div => some .div
  | .mod => some .mod
  | _ => none

def goesOn (c : UInt8) : Bool := c ≠ 59 ∧ c ≠ 10

/-- The text behind an expression: a semicolon is skipped, a newline is not. -/
def skipExpr (s : List UInt8) : List UInt8 :=
  let s := s.dropWhile goesOn
  if s.head? = some 59 then s.tail else s

section Evaluation

variable (real : Fn → BitVec 64 → BitVec 64) (scale : Nat)

def reading (s : List UInt8) (m : Memory) : Evaluator :=
  ⟨(nextToken scale s).1, (nextToken scale s).2, m⟩

def advance (k : Evaluator) : Evaluator := reading scale k.rest k.mem

def Memory.store (m : Memory) (idx : Fin 26) (v : BitVec 64) : Memory :=
  { m with
    vars := Function.update m.vars idx.castSucc v
    varScale := Function.update m.varScale idx.castSucc scale }

def calcPowi (x y : BitVec 64) : BitVec 64 :=
  if y.toInt < 0 ∨ y.toInt > 100 then 0
  else if y = 0 then pow10i scale
  else (List.range y.toNat).foldl (fun r _ => divdi3 (r * x) (pow10i scale)) (pow10i scale)

/-- The body of the loop in `parse_term`. -/
def TermOp.compute : TermOp → BitVec 64 → BitVec 64 → Except Complaint (BitVec 64)
  | mul, v, r =>
    if safeMulOverflow v r then .error .overflow else .ok (divdi3 (v * r) (pow10i scale))
  | div, v, r => if r = 0 then .error .divisionByZero else .ok (divdi3 (v * pow10i scale) r)
  | mod, v, r => if r = 0 then .error .modByZero else .ok (moddi3 v r)

def Fn.call (f : Fn) (v : BitVec 64) : BitVec 64 :=
  if f = abs then (if v.toInt < 0 then -v else v) else real f v

mutual

/-- `parse_expr`; the first argument bounds the depth of the calls and loops. -/
def parseExpr : Nat → Evaluator → Option (BitVec 64 × Evaluator)
  | 0, _ => none
  | fuel + 1, k => do
    let (v, k) ← parseTerm fuel k
    exprLoop fuel v k
termination_by structural x => x

def exprLoop : Nat → BitVec 64 → Evaluator → Option (BitVec 64 × Evaluator)
  | 0, _, _ => none
  | fuel + 1, v, k =>
    if k.cur = .plus ∨ k.cur = .minus then do
      let (r, k') ← parseTerm fuel (advance scale k)
      exprLoop fuel (if k.cur = .plus then v + r else v - r) k'
    else some (v, k)
termination_by structural x => x

def parseTerm : Nat → Evaluator → Option (BitVec 64 × Evaluator)
  | 0, _ => none
  | fuel + 1, k => do
    let (v, k) ← parsePower fuel k
    termLoop fuel v k
termination_by structural x => x

/-- An overflow leaves the loop; the other errors go on with 0. -/
def termLoop : Nat → BitVec 64 → Evaluator → Option (BitVec 64 × Evaluator)
  | 0, _, _ => none
  | fuel + 1, v, k =>
    match termOp k.cur with
    | none => some (v, k)
    | some op => do
      let (r, k) ← parsePower fuel (advance scale k)
      match op.compute scale v r with
      | .ok v => termLoop fuel v k
      | .error c =>
        let k := { k with mem := k.mem.complain c }
        if op = .mul then some (0, k) else termLoop fuel 0 k
termination_by structural x => x

def parsePower : Nat → Evaluator → Option (BitVec 64 × Evaluator)
  | 0, _ => none
  | fuel + 1, k => do
    let (v, k) ← parseUnary fuel k
    if k.cur = .pow then do
      let (e, k) ← parseUnary fuel (advance scale k)
      some (calcPowi scale v (divdi3 e (pow10i scale)), k)
    else some (v, k)
termination_by structural x => x

def parseUnary : Nat → Evaluator → Option (BitVec 64 × Evaluator)
  | 0, _ => none
  | fuel + 1, k =>
    if k.cur = .minus then do
      let (v, k) ← parseUnary fuel (advance scale k)
      some (-v, k)
    else if k.cur = .plus then parseUnary fuel (advance scale k)
    else parsePrimary fuel k
termination_by structural x => x

def parsePrimary : Nat → Evaluator → Option (BitVec 64 × Evaluator)
  | 0, _ => none
  | fuel + 1, k =>
    match k.cur with
    | .num v => some (v, advance scale k)
    | .ans => some (k.mem.vars 26, advance scale k)
    | .var idx =>
      let k := advance scale k
      if k.cur = .eq then do
        let (v, k) ← parseExpr fuel (advance scale k)
        some (v, { k with mem := k.mem.store scale idx v })
      else some (k.mem.vars idx.castSucc, k)
    | .lparen => do
      let (v, k) ← parseExpr fuel (advance scale k)
      if k.cur = .rparen then some (v, advance scale k)
      else some (v, { k with mem := k.mem.complain .missingParen })
    | .fn f => do
      let k := advance scale k
      let (v, k') ← parseExpr fuel (if k.cur = .lparen then advance scale k else k)
      some (f.call real v, if k.cur = .lparen ∧ k'.cur = .rparen then advance scale k' else k')
    | _ =>
      some (0,
        { k with mem := k.mem.complain (.syntaxError ((k.rest.takeWhile (· ≠ 10)).take 20)) })
termination_by structural x => x

end

def evalExpr (s : List UInt8) (m : Memory) : Option (BitVec 64 × Memory) := do
  let (v, k) ← parseExpr real scale (8 * (s.length + 1))
    (reading scale s { m with evalError := false })
  some (v, k.mem)

/-- The loop of `eval_line`. At the end of a line it stays for ever. -/
def evalLoop : Nat → List UInt8 → BitVec 64 → Memory → Option (BitVec 64 × Memory)
  | 0, _, _, _ => none
  | fuel + 1, s, v, m =>
    let s := s.dropWhile isWs
    if s = [] ∨ s.head? = some 35 then some (v, m)
    else do
      let (v, m) ← evalExpr real scale s m
      evalLoop fuel (skipExpr s) v m

def evalLine (s : List UInt8) (m : Memory) : Option (BitVec 64 × Memory) :=
  evalLoop real scale (s.length + 1) s 0 m

end Evaluation

end M4KK1.Calc
