import Mathlib.Data.UInt

/-!
# The working areas of pcc

Each table of `Compiler` is an array with its counter, and drops what does not fit (`limits`).
-/

namespace M4KK1.Pcc

open Function

inductive Kind where
  | tkIdent | tkNum | tkStr | tkChar
  | tkReturn | tkIf | tkElse | tkWhile | tkFor | tkBreak | tkContinue
  | tkInt | tkTchar | tkVoid
  | tkShl | tkShr | tkLe | tkGe | tkEq | tkNe | tkLand | tkLor
  | tkEof
  | punct (char : Char)
deriving DecidableEq

/-- `struct token`. The pool of strings only grows, so a token has the string it points at. -/
structure Token where
  kind : Kind
  val : Int
  text : List UInt8
  line : Nat
deriving DecidableEq

/-- `TY_INT`, `TY_CHAR` and `TY_VOID`. -/
inductive Ty where
  | int | char | void
deriving DecidableEq

inductive SymKind where
  | unresolved | func | global | local | stub | string
deriving DecidableEq

/-- `struct sym`, with the function that declared it and the bytes of its object. -/
structure Sym where
  name : List UInt8
  kind : SymKind := .unresolved
  type : Ty := .int
  isPtr : Bool := false
  isArray : Bool := false
  arrLen : Int := 0
  size : Int := 4
  defined : Bool := false
  addr : BitVec 32 := 0
  textOff : Nat := 0
  owner : Nat := 0
  extent : Nat := 0
deriving DecidableEq

/-- What a fixup patches: a call, an absolute address in the text, or one in the data. -/
inductive FixupKind where
  | absolute | call | data
deriving DecidableEq

structure Fixup where
  pos : Nat
  sym : Nat
  kind : FixupKind
deriving DecidableEq

/-- `struct labelfix`, with `-1` as `none`. -/
structure LabelFix where
  pos : Nat
  next : Option Nat
deriving DecidableEq

/-- A number for every table: its size, or a count of its entries. -/
structure Limits where
  toks : Nat
  strPool : Nat
  syms : Nat
  text : Nat
  rodata : Nat
  data : Nat
  fixups : Nat
  labels : Nat
  lfix : Nat
deriving DecidableEq

/-- `TOKEN_MAX` and the other sizes. -/
def pccLimits : Limits :=
  ⟨65536, 128 * 1024, 512, 512 * 1024, 128 * 1024, 128 * 1024, 16384, 512, 512⟩

structure TypeInfo where
  base : Ty
  isPtr : Bool
  isLvalue : Bool
  isDecay : Bool
deriving DecidableEq

/-- A name is looked up in a function's body, enters the table, or is declared. -/
inductive NameEvent where
  | use (scope : Nat) (name : List UInt8) (index : Nat) (found : Sym)
  | mention (name : List UInt8)
  | declare (kind : SymKind) (owner : Nat) (name : List UInt8)

/-- The static variables; `names` and `refs` note what happened to names and jumps. -/
structure Compiler where
  limits : Limits
  junk : Nat → TypeInfo
  toks : Nat → Token
  tokN : Nat
  strPoolN : Nat
  syms : Nat → Sym
  symN : Nat
  text : Nat → UInt8
  textN : Nat
  rodata : Nat → UInt8
  rodataN : Nat
  data : Nat → UInt8
  dataN : Nat
  fixups : Nat → Fixup
  fixupN : Nat
  lfix : Nat → LabelFix
  lfixN : Nat
  labelList : Nat → Option Nat
  labelPos : Nat → Option Nat
  labelN : Nat
  loopBrk : Nat → Nat
  loopCont : Nat → Nat
  loopDepth : Nat
  errLine : Nat
  pos : Nat
  fnLocalOff : Int
  scope : Nat
  names : List NameEvent
  refs : List (Nat × Nat)
  need : Limits
  dropped : Bool

/-- The static variables before `main`, all zero. -/
def fresh (limits : Limits) (junk : Nat → TypeInfo) : Compiler where
  limits := limits
  junk := junk
  toks := fun _ => ⟨.punct '\x00', 0, [], 0⟩
  tokN := 0
  strPoolN := 0
  syms := fun _ => { name := [] }
  symN := 0
  text := fun _ => 0
  textN := 0
  rodata := fun _ => 0
  rodataN := 0
  data := fun _ => 0
  dataN := 0
  fixups := fun _ => ⟨0, 0, .absolute⟩
  fixupN := 0
  lfix := fun _ => ⟨0, none⟩
  lfixN := 0
  labelList := fun _ => none
  labelPos := fun _ => none
  labelN := 0
  loopBrk := fun _ => 0
  loopCont := fun _ => 0
  loopDepth := 0
  errLine := 0
  pos := 0
  fnLocalOff := 0
  scope := 0
  names := []
  refs := []
  need := ⟨0, 0, 0, 0, 0, 0, 0, 0, 0⟩
  dropped := false

/-- The fuel is used up, or the null pointer that `add_sym` returns is followed. -/
inductive Stop where
  | fuel
  | null
deriving DecidableEq

abbrev Action := StateT Compiler (Except Stop)

def cur : Action Token := fun s => .ok (s.toks s.pos, s)

/-- `at` -/
def atKind (kind : Kind) : Action Bool := fun s => .ok (decide ((s.toks s.pos).kind = kind), s)

/-- `pos++` -/
def advance : Action Unit := fun s => .ok ((), { s with pos := s.pos + 1 })

/-- `err_line = line` -/
def setErrLine (line : Nat) : Action Unit := fun s => .ok ((), { s with errLine := line })

def consume (kind : Kind) : Action Bool := do
  if ← atKind kind then
    advance
    return true
  else return false

def expect (kind : Kind) : Action Unit := do
  let tk ← cur
  if tk.kind = kind then advance
  else
    setErrLine tk.line
    advance

/-- `find_sym`: the last symbol with a name among the first `n`. -/
def findSym (syms : Nat → Sym) (name : List UInt8) : Nat → Option Nat
  | 0 => none
  | n + 1 => if (syms n).name = name then some n else findSym syms name n

/-- `add_sym`. Its callers follow the pointer at once, so a full table stops the run. -/
def addSym (name : List UInt8) : Action Nat := fun s =>
  let fresh (s : Compiler) : Except Stop (Nat × Compiler) :=
    let need := { s.need with syms := max s.need.syms (s.symN + 1) }
    if s.symN < s.limits.syms then
      .ok (s.symN, { s with
        need := need
        syms := update s.syms s.symN { name := name }
        symN := s.symN + 1 })
    else .error .null
  match findSym s.syms name s.symN with
  | some i => if (s.syms i).kind = .unresolved then .ok (i, s) else fresh s
  | none => fresh s

/-- The symbol at an index. -/
def symAt (i : Nat) : Action Sym := fun s => .ok (s.syms i, s)

/-- A field of the symbol at an index is assigned to. -/
def editSym (i : Nat) (edit : Sym → Sym) : Action Unit := fun s =>
  .ok ((), { s with syms := update s.syms i (edit (s.syms i)) })

/-- `find_sym`, and `add_sym` when there is none. -/
def findOrAddSym (name : List UInt8) : Action Nat := fun s =>
  match findSym s.syms name s.symN with
  | some i => .ok (i, s)
  | none => addSym name s

def noteName (event : Compiler → NameEvent) : Action Unit := fun s =>
  .ok ((), { s with names := s.names ++ [event s] })

def emit1 (byte : UInt8) : Action Unit := fun s =>
  .ok ((), { s with
    need := { s.need with text := max s.need.text (s.textN + 1) }
    dropped := s.dropped || decide (¬s.textN < s.limits.text)
    text := if s.textN < s.limits.text then update s.text s.textN byte else s.text
    textN := if s.textN < s.limits.text then s.textN + 1 else s.textN })

/-- A run of `emit1`. -/
def emits : List UInt8 → Action Unit
  | [] => pure ()
  | byte :: rest => do
    emit1 byte
    emits rest

/-- The bytes of a 32-bit word, least significant first. -/
def le32 (word : BitVec 32) : List UInt8 :=
  [UInt8.ofBitVec (word.extractLsb' 0 8), UInt8.ofBitVec (word.extractLsb' 8 8),
    UInt8.ofBitVec (word.extractLsb' 16 8), UInt8.ofBitVec (word.extractLsb' 24 8)]

def emit32 (word : BitVec 32) : Action Unit := emits (le32 word)

/-- The byte of `emit_mrm`. -/
def mrm (mode reg rm : Nat) : UInt8 := UInt8.ofNat (mode * 64 + reg * 8 + rm)

def emitLoadEax (isChar : Bool) : Action Unit :=
  if isChar then emits [0x0F, 0xB6, mrm 0 0 0] else emits [0x8B, mrm 0 0 0]

def emitStoreEdx (isChar : Bool) : Action Unit :=
  if isChar then emits [0x88, mrm 0 0 2] else emits [0x89, mrm 0 0 2]

def emitCmpEax0 : Action Unit := emits [0x83, mrm 3 7 0, 0]

/-- The bytes of `emit_setcc`. -/
def setcc (cc : UInt8) : List UInt8 := [0x0F, cc, mrm 3 0 0, 0x0F, 0xB6, mrm 3 0 0]

def newLabel : Action Nat := fun s =>
  let need := { s.need with labels := max s.need.labels (s.labelN + 1) }
  if s.labelN < s.limits.labels then
    .ok (s.labelN, { s with
      need := need
      labelList := update s.labelList s.labelN none
      labelPos := update s.labelPos s.labelN none
      labelN := s.labelN + 1 })
  else .ok (0, { s with need := need, dropped := true })

/-- The four bytes at a place of the text, as far as they are emitted. -/
def patch (text : Nat → UInt8) (textN place : Nat) (word : BitVec 32) : Nat → UInt8 := fun i =>
  if place ≤ i ∧ i < place + 4 ∧ i < textN then (le32 word).getD (i - place) 0 else text i

/-- The loop of `emit_label` over the references to a label, which `lfix` links. -/
def patchAll (lfix : Nat → LabelFix) (textN : Nat) : Nat → Option Nat → (Nat → UInt8) → Nat → UInt8
  | 0, _, text => text
  | _, none, text => text
  | fuel + 1, some fx, text =>
    let place := (lfix fx).pos
    patchAll lfix textN fuel (lfix fx).next
      (patch text textN place (BitVec.ofInt 32 ((textN : Int) - (place + 4))))

def emitLabel (id : Nat) : Action Unit := fun s =>
  .ok ((), { s with
    text := patchAll s.lfix s.textN s.lfixN (s.labelList id) s.text
    labelPos := update s.labelPos id (some s.textN)
    labelList := update s.labelList id none })

def emitRel32Label (id : Nat) : Action Unit := fun s =>
  let refs := s.refs ++ [(s.textN, id)]
  match if id < s.labelN then s.labelPos id else none with
  | some target =>
    emit32 (BitVec.ofInt 32 ((target : Int) - (s.textN + 4))) { s with refs := refs }
  | none =>
    let need := { s.need with lfix := max s.need.lfix (s.lfixN + 1) }
    if s.lfixN < s.limits.lfix then
      emit32 0 { s with
        need := need
        refs := refs
        lfix := update s.lfix s.lfixN ⟨s.textN, s.labelList id⟩
        labelList := update s.labelList id (some s.lfixN)
        lfixN := s.lfixN + 1 }
    else emit32 0 { s with need := need, refs := refs, dropped := true }

def emitJmp (id : Nat) : Action Unit := do
  emit1 0xE9
  emitRel32Label id

def emitJcc (opcode : UInt8) (id : Nat) : Action Unit := do
  emit1 0x0F
  emit1 opcode
  emitRel32Label id

/-- The entry that a fixup at `pos` makes, when there is room. -/
def pushFixup (place : Compiler → Nat) (sym : Nat) (kind : FixupKind) : Action Unit := fun s =>
  .ok ((), { s with
    need := { s.need with fixups := max s.need.fixups (s.fixupN + 1) }
    dropped := s.dropped || decide (¬s.fixupN < s.limits.fixups)
    fixups := if s.fixupN < s.limits.fixups
      then update s.fixups s.fixupN ⟨place s, sym, kind⟩ else s.fixups
    fixupN := if s.fixupN < s.limits.fixups then s.fixupN + 1 else s.fixupN })

def emitFixup (sym : Nat) (kind : FixupKind) : Action Unit := do
  pushFixup (·.textN) sym kind
  emit32 0

/-- Bytes behind the read-only data, which is filled to a multiple of four without a check. -/
def pushRodata (bytes : List UInt8) : Action Unit := fun s =>
  let kept := bytes.take (s.limits.rodata - s.rodataN)
  let last := s.rodataN + kept.length
  let final := last + (4 - last % 4) % 4
  let asked := max (s.rodataN + bytes.length) final
  .ok ((), { s with
    need := { s.need with rodata := max s.need.rodata asked }
    dropped := s.dropped || decide (¬asked ≤ s.limits.rodata)
    rodata := fun i =>
      if s.rodataN ≤ i ∧ i < last then kept.getD (i - s.rodataN) 0
      else if last ≤ i ∧ i < final then 0
      else s.rodata i
    rodataN := final })

/-- A string literal is put behind the read-only data, with its zero. -/
def pushString (bytes : List UInt8) : Action Unit := pushRodata (bytes ++ [0])

end M4KK1.Pcc
