import M4KK1.Pcc.State

/-!
# Expressions

The functions of `pcc.c`, one for each level of precedence, with a bound on the depth.
-/

namespace M4KK1.Pcc

def bytesOf (text : String) : List UInt8 := text.toByteArray.data.toList

def intType : TypeInfo := ⟨.int, false, false, false⟩

def tiElemSize (t : TypeInfo) : Nat := if t.isPtr then 4 else if t.base = .char then 1 else 4

/-- An uninitialised `struct typeinfo`. -/
def junkType : Action TypeInfo := fun s => .ok (s.junk s.pos, s)

def coerceValue (t : TypeInfo) : Action TypeInfo := do
  if t.isLvalue && !t.isDecay then
    emitLoadEax (decide (tiElemSize t = 1))
    return { t with isLvalue := false }
  else return t

/-- The symbol of an identifier in an expression. -/
def resolve (name : List UInt8) : Action Nat := do
  let i ← findOrAddSym name
  noteName fun s => .use s.scope name i (s.syms i)
  return i

/-- `lea eax, [ebp+disp32]` for a local, `mov eax, imm32` for the others. -/
def emitSymAddr (i : Nat) : Action Unit := do
  let s ← symAt i
  if s.kind = .local then
    emits [0x8D, mrm 2 0 5]
    emit32 s.addr
  else
    emit1 0xB8
    emitFixup i .absolute

/-- The code behind an index: `mov ecx, eax`, `pop eax` and `lea eax, [eax+ecx*scale]`. -/
def emitIndex (scale : Nat) : Action Unit := do
  emits [0x89, mrm 3 0 1, 0x58]
  if scale = 1 then emits [0x8D, mrm 0 0 4, 0x08] else emits [0x8D, mrm 0 0 4, 0x88]

/-- The symbol of a string literal and its bytes, as `primary` and `global_var` make them. -/
def addString (text : List UInt8) : Action Nat := do
  let name := bytesOf "\x01str"
  let i ← addSym name
  noteName fun _ => .declare .string 0 name
  editSym i fun s => { s with kind := .string }
  fun s => editSym i (fun sym =>
    { sym with addr := BitVec.ofNat 32 s.rodataN, extent := text.length + 1 }) s
  pushString text
  return i

variable (op : Kind)

section Levels

variable (expr : Action TypeInfo)

/-- The loop of `parse_lvalue_addr` over the indices; returns `indexed`. -/
def lvalueIndices (scale : Nat) (baseIsPtr : Bool) : Nat → Bool → Action Bool
  | 0, _ => throw .fuel
  | fuel + 1, indexed => do
    if ← atKind (.punct '[') then
      advance
      if baseIsPtr && !indexed then emitLoadEax false
      emit1 0x50
      let _ ← expr
      emitIndex scale
      expect (.punct ']')
      lvalueIndices scale baseIsPtr fuel true
    else return indexed

/-- `parse_lvalue_addr`: `is_char`, or `none` when there is no lvalue. -/
def parseLvalueAddr (fuel : Nat) : Action (Option Bool) := do
  let tk ← cur
  if tk.kind = .tkIdent then
    let i ← resolve tk.text
    advance
    let s ← symAt i
    emitSymAddr i
    let elemChar := decide (s.type = .char)
    let charLv := elemChar && !s.isPtr && !s.isArray
    let indexed ← lvalueIndices expr (if elemChar then 1 else 4) s.isPtr fuel false
    return some (if indexed then elemChar else charLv)
  else if tk.kind = .punct '*' then
    advance
    let pt ← expr
    let elemChar := decide (pt.base = .char)
    let _ ← lvalueIndices expr (if elemChar then 1 else 4) false fuel false
    return some elemChar
  else return none

/-- The loop of `primary` over the arguments of a call; returns `nargs`. -/
def callArgs : Nat → Nat → Action Nat
  | 0, _ => throw .fuel
  | fuel + 1, nargs => do
    let _ ← expr
    emit1 0x50
    if ← consume (.punct ',') then callArgs fuel (nargs + 1) else return nargs + 1

def primary (fuel : Nat) : Action TypeInfo := do
  let tk ← cur
  if tk.kind = .tkNum ∨ tk.kind = .tkChar then
    emit1 0xB8
    emit32 (BitVec.ofInt 32 tk.val)
    advance
    return intType
  else if tk.kind = .tkStr then
    let i ← addString tk.text
    emit1 0xB8
    emitFixup i .absolute
    advance
    return ⟨.char, true, false, true⟩
  else if tk.kind = .punct '(' then
    advance
    let t ← expr
    expect (.punct ')')
    return t
  else if tk.kind = .tkIdent then
    let i ← resolve tk.text
    advance
    if ← atKind (.punct '(') then
      advance
      let nargs ← if ← atKind (.punct ')') then pure 0 else callArgs expr fuel 0
      expect (.punct ')')
      emit1 0xE8
      emitFixup i .call
      if nargs > 0 then emits [0x83, mrm 3 0 4, UInt8.ofNat (nargs * 4)]
      let s ← symAt i
      return ⟨if s.type = .void then .int else s.type, s.isPtr, false, false⟩
    else
      emitSymAddr i
      let s ← symAt i
      return ⟨s.type, s.isPtr, true, s.isArray⟩
  else
    setErrLine tk.line
    emit1 0xB8
    emit32 0
    advance
    return intType

/-- The loop of `postfix` over the indices. -/
def postfixIndices : Nat → TypeInfo → Action TypeInfo
  | 0, _ => throw .fuel
  | fuel + 1, t => do
    if ← atKind (.punct '[') then
      advance
      if t.isPtr && !t.isDecay then emitLoadEax false
      emit1 0x50
      let _ ← expr
      emitIndex (tiElemSize t)
      expect (.punct ']')
      postfixIndices fuel ⟨if t.base = .char then .char else .int, false, true, false⟩
    else return t

/-- `postfix` -/
def postfixExpr (fuel : Nat) : Action TypeInfo := do
  let t ← primary expr fuel
  postfixIndices expr fuel t

def unary : Nat → Action TypeInfo
  | 0 => throw .fuel
  | fuel + 1 => do
    let tk ← cur
    if tk.kind = .punct '-' then
      advance
      let t ← unary fuel
      let _ ← coerceValue t
      emits [0xF7, mrm 3 3 0]
      return intType
    else if tk.kind = .punct '!' then
      advance
      let t ← unary fuel
      let _ ← coerceValue t
      emitCmpEax0
      emits (setcc 0x94)
      return intType
    else if tk.kind = .punct '~' then
      advance
      let t ← unary fuel
      let _ ← coerceValue t
      emits [0xF7, mrm 3 2 0]
      return intType
    else if tk.kind = .punct '*' then
      advance
      let t ← unary fuel
      let t ← coerceValue t
      return ⟨t.base, false, true, false⟩
    else if tk.kind = .punct '&' then
      let junk ← junkType
      advance
      match ← parseLvalueAddr expr fuel with
      | some _ => return ⟨junk.base, true, false, false⟩
      | none =>
        setErrLine tk.line
        emit1 0xB8
        emit32 0
        return ⟨junk.base, true, false, false⟩
    else postfixExpr expr fuel

/-- A level of left-associative operators, with their bytes `code`. -/
def leftAssoc (operand : Action TypeInfo) (code : Kind → Option (List UInt8)) :
    Nat → TypeInfo → Action TypeInfo
  | 0, _ => throw .fuel
  | fuel + 1, t => do
    let tk ← cur
    match code tk.kind with
    | none => return t
    | some bytes =>
      advance
      let _ ← coerceValue t
      emit1 0x50
      let rt ← operand
      let _ ← coerceValue rt
      emits ([0x89, mrm 3 0 1, 0x58] ++ bytes)
      leftAssoc operand code fuel intType

/-- `imul eax, ecx`, or `cdq` and `idiv ecx`, with `mov eax, edx` for the remainder. -/
def mulCode : Option (List UInt8) :=
  if op = .punct '*' then some [0x0F, 0xAF, mrm 3 0 1]
  else if op = .punct '/' then some [0x99, 0xF7, mrm 3 7 1]
  else if op = .punct '%' then some [0x99, 0xF7, mrm 3 7 1, 0x8B, mrm 3 0 2]
  else none

def multiplicative (fuel : Nat) : Action TypeInfo := do
  let t ← unary expr fuel
  leftAssoc (unary expr fuel) mulCode fuel t

/-- `add eax, ecx` and `sub eax, ecx`. -/
def addCode : Option (List UInt8) :=
  if op = .punct '+' then some [0x01, mrm 3 1 0]
  else if op = .punct '-' then some [0x29, mrm 3 1 0]
  else none

def additive (fuel : Nat) : Action TypeInfo := do
  let t ← multiplicative expr fuel
  leftAssoc (multiplicative expr fuel) addCode fuel t

/-- `shl eax, cl` and `sar eax, cl`. -/
def shiftCode : Option (List UInt8) :=
  if op = .tkShl then some [0xD3, mrm 3 4 0]
  else if op = .tkShr then some [0xD3, mrm 3 7 0]
  else none

def shift (fuel : Nat) : Action TypeInfo := do
  let t ← additive expr fuel
  leftAssoc (additive expr fuel) shiftCode fuel t

/-- `cmp eax, ecx` and the condition. -/
def cmpCode (cc : UInt8) : List UInt8 := [0x39, mrm 3 1 0] ++ setcc cc

/-- `setl`, `setg`, `setle` and `setge`. -/
def relCode : Option (List UInt8) :=
  if op = .punct '<' then some (cmpCode 0x9C)
  else if op = .punct '>' then some (cmpCode 0x9F)
  else if op = .tkLe then some (cmpCode 0x9E)
  else if op = .tkGe then some (cmpCode 0x9D)
  else none

def relational (fuel : Nat) : Action TypeInfo := do
  let t ← shift expr fuel
  leftAssoc (shift expr fuel) relCode fuel t

/-- `sete` and `setne`. -/
def eqCode : Option (List UInt8) :=
  if op = .tkEq then some (cmpCode 0x94)
  else if op = .tkNe then some (cmpCode 0x95)
  else none

def equality (fuel : Nat) : Action TypeInfo := do
  let t ← relational expr fuel
  leftAssoc (relational expr fuel) eqCode fuel t

/-- `and eax, ecx` -/
def andCode : Option (List UInt8) :=
  if op = .punct '&' then some [0x21, mrm 3 1 0] else none

def bitand (fuel : Nat) : Action TypeInfo := do
  let t ← equality expr fuel
  leftAssoc (equality expr fuel) andCode fuel t

/-- `xor eax, ecx` -/
def xorCode : Option (List UInt8) :=
  if op = .punct '^' then some [0x31, mrm 3 1 0] else none

def bitxor (fuel : Nat) : Action TypeInfo := do
  let t ← bitand expr fuel
  leftAssoc (bitand expr fuel) xorCode fuel t

/-- `or eax, ecx` -/
def orCode : Option (List UInt8) :=
  if op = .punct '|' then some [0x09, mrm 3 1 0] else none

def bitor (fuel : Nat) : Action TypeInfo := do
  let t ← bitxor expr fuel
  leftAssoc (bitxor expr fuel) orCode fuel t

/-- The body of the loop of `land`, with the operand behind the operator. -/
def landStep (operand : Action TypeInfo) (t : TypeInfo) : Action Unit := do
  let lend ← newLabel
  advance
  let _ ← coerceValue t
  emitCmpEax0
  emitJcc 0x84 lend
  let rt ← operand
  let _ ← coerceValue rt
  emitCmpEax0
  emitJcc 0x84 lend
  emit1 0xB8
  emit32 1
  emitJmp lend
  emitLabel lend

/-- The loop of `land`. -/
def landLoop (operand : Action TypeInfo) : Nat → TypeInfo → Action TypeInfo
  | 0, _ => throw .fuel
  | fuel + 1, t => do
    if ← atKind .tkLand then
      landStep operand t
      landLoop operand fuel intType
    else return t

def land (fuel : Nat) : Action TypeInfo := do
  let t ← bitor expr fuel
  landLoop (bitor expr fuel) fuel t

/-- The body of the loop of `lor`, with the operand behind the operator. -/
def lorStep (operand : Action TypeInfo) (t : TypeInfo) : Action Unit := do
  let ltrue ← newLabel
  let lend ← newLabel
  advance
  let _ ← coerceValue t
  emitCmpEax0
  emitJcc 0x85 ltrue
  let rt ← operand
  let _ ← coerceValue rt
  emitCmpEax0
  emitJcc 0x85 ltrue
  emit1 0xB8
  emit32 0
  emitJmp lend
  emitLabel ltrue
  emit1 0xB8
  emit32 1
  emitLabel lend

/-- The loop of `lor`. -/
def lorLoop (operand : Action TypeInfo) : Nat → TypeInfo → Action TypeInfo
  | 0, _ => throw .fuel
  | fuel + 1, t => do
    if ← atKind .tkLor then
      lorStep operand t
      lorLoop operand fuel intType
    else return t

def lor (fuel : Nat) : Action TypeInfo := do
  let t ← land expr fuel
  lorLoop (land expr fuel) fuel t

/-- A tentative parse, which takes back `text_n`, `fixup_n` and `pos` only. -/
def attempt (tentative : Action (Option Bool)) : Action (Option Bool) := fun s =>
  match tentative s with
  | .error stop => .error stop
  | .ok (some result, s') => .ok (some result, s')
  | .ok (none, s') => .ok (none, { s' with
    textN := s.textN, fixupN := s.fixupN, pos := s.pos, refs := s.refs })

/-- The lvalue in front of a `=`, if there is one. -/
def assignTarget (fuel : Nat) : Action (Option Bool) := do
  match ← parseLvalueAddr expr fuel with
  | none => return none
  | some isChar => if ← atKind (.punct '=') then return some isChar else return none

def assign (fuel : Nat) : Action TypeInfo := do
  match ← attempt (assignTarget expr fuel) with
  | some isChar =>
    advance
    emit1 0x50
    let _ ← expr
    emit1 0x5A
    emitStoreEdx isChar
    let lt ← junkType
    return { lt with isLvalue := false, isDecay := false }
  | none =>
    let t ← lor expr fuel
    coerceValue t

end Levels

/-- `expr`, with a bound on the depth of the expressions inside. -/
def expr : Nat → Action TypeInfo
  | 0 => throw .fuel
  | fuel + 1 => assign (expr fuel) fuel

end M4KK1.Pcc
