import M4KK1.Lib.ByteMemory
import Mathlib.Data.UInt

/-!
# A part of the i386

The instructions that a simple compiler for integers emits; all others have no next state.
-/

namespace M4KK1.Lib.X86

open List

/-- The general registers, in the order of their encoding. -/
inductive Reg where
  | eax | ecx | edx | ebx | esp | ebp | esi | edi
deriving DecidableEq

/-- The register with a number. -/
def reg : Nat → Reg
  | 0 => .eax
  | 1 => .ecx
  | 2 => .edx
  | 3 => .ebx
  | 4 => .esp
  | 5 => .ebp
  | 6 => .esi
  | _ => .edi

/-- The flags that the conditions look at. -/
structure Flags where
  zero : Bool
  sign : Bool
  overflow : Bool
deriving DecidableEq

/-- The state of the processor and its memory. -/
structure Machine where
  regs : Reg → BitVec 32
  eip : BitVec 32
  flags : Option Flags
  mem : ByteMemory

/-- An operand: a register, or memory at a base with a scaled index and a displacement. -/
inductive Operand where
  | reg (r : Reg)
  | mem (base : Reg) (index : Option (Reg × BitVec 32)) (disp : BitVec 32)
deriving DecidableEq

/-- Arithmetic on two operands. -/
inductive Alu where
  | add | or | and | sub | xor | cmp
deriving DecidableEq

/-- The conditions of jumps and of `set`. -/
inductive Cond where
  | e | ne | l | ge | le | g
deriving DecidableEq

inductive Instr where
  | movImm (r : Reg) (word : BitVec 32)
  | lea (r : Reg) (source : Operand)
  | load (r : Reg) (source : Operand)
  | store (target : Operand) (r : Reg)
  | loadByte (r : Reg) (source : Operand)
  | storeByte (target : Operand) (r : Reg)
  | push (r : Reg)
  | pop (r : Reg)
  | not (target : Operand)
  | neg (target : Operand)
  | idiv (source : Operand)
  | cdq
  | imul (r : Reg) (source : Operand)
  | alu (op : Alu) (target : Operand) (r : Reg)
  | aluImm (op : Alu) (target : Operand) (word : BitVec 32)
  | shl (target : Operand)
  | sar (target : Operand)
  | set (cond : Cond) (target : Operand)
  | jump (cond : Option Cond) (distance : BitVec 32)
  | call (distance : BitVec 32)
  | ret (popped : BitVec 32)
  | interrupt (number : UInt8)
deriving DecidableEq

/-- The word with these bytes, the least significant first. -/
def word (b₀ b₁ b₂ b₃ : UInt8) : BitVec 32 :=
  b₃.toBitVec ++ (b₂.toBitVec ++ (b₁.toBitVec ++ b₀.toBitVec : BitVec 16) : BitVec 24)

def imm32 : List UInt8 → Option (BitVec 32)
  | b₀ :: b₁ :: b₂ :: b₃ :: _ => some (word b₀ b₁ b₂ b₃)
  | _ => none

def imm8 : List UInt8 → Option (BitVec 32)
  | byte :: _ => some (byte.toBitVec.signExtend 32)
  | _ => none

/-- The displacement of an operand and its length, by the mode of the operand. -/
def displacement (mode : Nat) (bytes : List UInt8) : Option (BitVec 32 × Nat) :=
  match mode with
  | 0 => some (0, 0)
  | 1 => (imm8 bytes).map (·, 1)
  | _ => (imm32 bytes).map (·, 4)

/-- The operand of the ModRM byte at the front, its `reg` field, and its length. -/
def operand : List UInt8 → Option (Operand × Nat × Nat)
  | [] => none
  | modrm :: bytes =>
    let mode := modrm.toNat / 64
    let field := modrm.toNat / 8 % 8
    let rm := modrm.toNat % 8
    if mode = 3 then some (.reg (reg rm), field, 1)
    else if rm = 4 then
      match bytes with
      | [] => none
      | sib :: bytes =>
        let base := sib.toNat % 8
        let index := sib.toNat / 8 % 8
        let scale := BitVec.ofNat 32 (2 ^ (sib.toNat / 64))
        if mode = 0 ∧ base = 5 then none
        else (displacement mode bytes).map fun (disp, length) =>
          (.mem (reg base) (if index = 4 then none else some (reg index, scale)) disp, field,
            length + 2)
    else if mode = 0 ∧ rm = 5 then none
    else (displacement mode bytes).map fun (disp, length) =>
      (.mem (reg rm) none disp, field, length + 1)

/-- An instruction with an operand behind an opcode of `opcode` bytes. -/
def withOperand (opcode : Nat) (make : Operand → Nat → Option Instr) (bytes : List UInt8) :
    Option (Instr × Nat) :=
  match operand bytes with
  | some (target, field, length) => (make target field).map (·, opcode + length)
  | none => none

def condOf : Nat → Option Cond
  | 4 => some .e
  | 5 => some .ne
  | 12 => some .l
  | 13 => some .ge
  | 14 => some .le
  | 15 => some .g
  | _ => none

/-- The arithmetic operations by their number. -/
def aluOf : Nat → Option Alu
  | 0 => some .add
  | 1 => some .or
  | 4 => some .and
  | 5 => some .sub
  | 6 => some .xor
  | 7 => some .cmp
  | _ => none

/-- An arithmetic operation with an immediate operand behind the ModRM byte. -/
def withImmediate (opcode : Nat) (imm : List UInt8 → Option (BitVec 32)) (width : Nat)
    (bytes : List UInt8) : Option (Instr × Nat) := do
  let (target, field, length) ← operand bytes
  let op ← aluOf field
  let value ← imm (bytes.drop length)
  return (.aluImm op target value, opcode + length + width)

def decodeSecond : List UInt8 → Option (Instr × Nat)
  | [] => none
  | opcode :: bytes =>
    if opcode = 0xAF then withOperand 2 (fun source field => some (.imul (reg field) source)) bytes
    else if opcode = 0xB6 then
      withOperand 2 (fun source field => some (.loadByte (reg field) source)) bytes
    else if opcode.toNat / 16 = 8 then do
      let condition ← condOf (opcode.toNat % 16)
      let distance ← imm32 bytes
      return (.jump (some condition) distance, 6)
    else if opcode.toNat / 16 = 9 then do
      let condition ← condOf (opcode.toNat % 16)
      withOperand 2 (fun target _ => some (.set condition target)) bytes
    else none

def decode : List UInt8 → Option (Instr × Nat)
  | [] => none
  | opcode :: bytes =>
    if opcode = 0x0F then decodeSecond bytes
    else if opcode.toNat < 64 ∧ opcode.toNat % 8 = 1 then do
      let op ← aluOf (opcode.toNat / 8)
      withOperand 1 (fun target field => some (.alu op target (reg field))) bytes
    else if opcode.toNat / 8 = 10 then some (.push (reg (opcode.toNat % 8)), 1)
    else if opcode.toNat / 8 = 11 then some (.pop (reg (opcode.toNat % 8)), 1)
    else if opcode = 0x81 then withImmediate 1 imm32 4 bytes
    else if opcode = 0x83 then withImmediate 1 imm8 1 bytes
    else if opcode = 0x88 then
      withOperand 1 (fun target field => some (.storeByte target (reg field))) bytes
    else if opcode = 0x89 then
      withOperand 1 (fun target field => some (.store target (reg field))) bytes
    else if opcode = 0x8B then
      withOperand 1 (fun source field => some (.load (reg field) source)) bytes
    else if opcode = 0x8D then
      withOperand 1 (fun source field => some (.lea (reg field) source)) bytes
    else if opcode = 0x99 then some (.cdq, 1)
    else if opcode.toNat / 8 = 23 then
      (imm32 bytes).map fun value => (.movImm (reg (opcode.toNat % 8)) value, 5)
    else if opcode = 0xC2 then
      match bytes with
      | low :: high :: _ => some (.ret (word low high 0 0), 3)
      | _ => none
    else if opcode = 0xC3 then some (.ret 0, 1)
    else if opcode = 0xCD then
      match bytes with
      | number :: _ => some (.interrupt number, 2)
      | _ => none
    else if opcode = 0xD3 then
      withOperand 1 (fun target field =>
        if field = 4 then some (.shl target) else if field = 7 then some (.sar target) else none)
        bytes
    else if opcode = 0xE8 then (imm32 bytes).map fun distance => (.call distance, 5)
    else if opcode = 0xE9 then (imm32 bytes).map fun distance => (.jump none distance, 5)
    else if opcode = 0xF7 then
      withOperand 1 (fun target field =>
        if field = 2 then some (.not target) else if field = 3 then some (.neg target)
        else if field = 7 then some (.idiv target) else none) bytes
    else none

namespace Machine

def setReg (m : Machine) (r : Reg) (value : BitVec 32) : Machine :=
  { m with regs := Function.update m.regs r value }

/-- The word in memory at an address. An access behind the last address faults. -/
def loadWord (m : Machine) (address : BitVec 32) : Option (BitVec 32) :=
  if address.toNat + 4 ≤ 2 ^ 32 then some (BitVec.ofNat 32 (read32 m.mem address.toNat)) else none

def storeWord (m : Machine) (address value : BitVec 32) : Option Machine :=
  if address.toNat + 4 ≤ 2 ^ 32 then
    some { m with mem := write32 m.mem address.toNat value.toNat }
  else none

def address (m : Machine) (base : Reg) (index : Option (Reg × BitVec 32)) (disp : BitVec 32) :
    BitVec 32 :=
  match index with
  | none => m.regs base + disp
  | some (r, scale) => m.regs base + m.regs r * scale + disp

def value (m : Machine) : Operand → Option (BitVec 32)
  | .reg r => some (m.regs r)
  | .mem base index disp => m.loadWord (m.address base index disp)

/-- The value of an operand of one byte. Only the low bytes of EAX to EBX are of this part. -/
def valueByte (m : Machine) : Operand → Option (BitVec 8)
  | .reg r => if r ∈ [.eax, .ecx, .edx, .ebx] then some ((m.regs r).setWidth 8) else none
  | .mem base index disp => some (m.mem (m.address base index disp).toNat).toBitVec

def assign (m : Machine) (target : Operand) (value : BitVec 32) : Option Machine :=
  match target with
  | .reg r => some (m.setReg r value)
  | .mem base index disp => m.storeWord (m.address base index disp) value

def assignByte (m : Machine) (target : Operand) (value : BitVec 8) : Option Machine :=
  match target with
  | .reg r =>
    if r ∈ [.eax, .ecx, .edx, .ebx] then
      some (m.setReg r ((m.regs r).extractLsb' 8 24 ++ value))
    else none
  | .mem base index disp =>
    some { m with mem := write8 m.mem (m.address base index disp).toNat value.toNat }

def pushWord (m : Machine) (value : BitVec 32) : Option Machine :=
  (m.setReg .esp (m.regs .esp - 4)).storeWord (m.regs .esp - 4) value

end Machine

def flagsOf (left right : BitVec 32) : Flags where
  zero := decide (left - right = 0)
  sign := (left - right).msb
  overflow := left.msb != right.msb && (left - right).msb != left.msb

def Cond.holds (flags : Flags) : Cond → Bool
  | .e => flags.zero
  | .ne => !flags.zero
  | .l => flags.sign != flags.overflow
  | .ge => flags.sign == flags.overflow
  | .le => flags.zero || flags.sign != flags.overflow
  | .g => !flags.zero && flags.sign == flags.overflow

def Alu.result (left right : BitVec 32) : Alu → BitVec 32
  | .add => left + right
  | .or => left ||| right
  | .and => left &&& right
  | .sub => left - right
  | .xor => left ^^^ right
  | .cmp => left

def execAlu (m : Machine) (op : Alu) (target : Operand) (right : BitVec 32) : Option Machine := do
  let left ← m.value target
  if op = .cmp then return { m with flags := some (flagsOf left right) }
  else ({ m with flags := none } : Machine).assign target (op.result left right)

def execDiv (m : Machine) (divisor : BitVec 32) : Option Machine :=
  let dividend := (m.regs .edx ++ m.regs .eax : BitVec 64).toInt
  let quotient := dividend.tdiv divisor.toInt
  if divisor = 0 ∨ quotient < -2 ^ 31 ∨ 2 ^ 31 ≤ quotient then none
  else
    some ((({ m with flags := none } : Machine).setReg .eax (BitVec.ofInt 32 quotient)).setReg .edx
    (BitVec.ofInt 32 (dividend.tmod divisor.toInt)))

/-- What runs: the code, and what an interrupt does. -/
structure Program where
  code : BitVec 32 → UInt8
  interrupt : UInt8 → Machine → Option Machine

def exec (p : Program) (m : Machine) : Instr → Option Machine
  | .movImm r value => some (m.setReg r value)
  | .lea _ (.reg _) => none
  | .lea r (.mem base index disp) => some (m.setReg r (m.address base index disp))
  | .load r source => (m.value source).map (m.setReg r)
  | .store target r => m.assign target (m.regs r)
  | .loadByte r source => (m.valueByte source).map fun byte => m.setReg r (byte.setWidth 32)
  | .storeByte target r => do
    let byte ← m.valueByte (.reg r)
    m.assignByte target byte
  | .push r => m.pushWord (m.regs r)
  | .pop r => do
    let value ← m.loadWord (m.regs .esp)
    return (m.setReg .esp (m.regs .esp + 4)).setReg r value
  | .not target => do
    let value ← m.value target
    m.assign target (~~~value)
  | .neg target => do
    let value ← m.value target
    ({ m with flags := none } : Machine).assign target (-value)
  | .idiv source => do
    let divisor ← m.value source
    execDiv m divisor
  | .cdq => some (m.setReg .edx (if (m.regs .eax).msb then BitVec.allOnes 32 else 0))
  | .imul r source => do
    let value ← m.value source
    return ({ m with flags := none } : Machine).setReg r (m.regs r * value)
  | .alu op target r => execAlu m op target (m.regs r)
  | .aluImm op target value => execAlu m op target value
  | .shl target => do
    let value ← m.value target
    ({ m with flags := none } : Machine).assign target (value <<< ((m.regs .ecx).toNat % 32))
  | .sar target => do
    let value ← m.value target
    ({ m with flags := none } : Machine).assign target
      (value.sshiftRight ((m.regs .ecx).toNat % 32))
  | .set condition target => do
    let flags ← m.flags
    m.assignByte target (if condition.holds flags then 1 else 0)
  | .jump none distance => some { m with eip := m.eip + distance }
  | .jump (some condition) distance => do
    let flags ← m.flags
    return if condition.holds flags then { m with eip := m.eip + distance } else m
  | .call distance => do
    let m ← m.pushWord m.eip
    return { m with eip := m.eip + distance }
  | .ret popped => do
    let value ← m.loadWord (m.regs .esp)
    return { m.setReg .esp (m.regs .esp + 4 + popped) with eip := value }
  | .interrupt number => p.interrupt number m

/-- The bytes at an address, as many as an instruction can have. -/
def fetch (code : BitVec 32 → UInt8) (address : BitVec 32) : List UInt8 :=
  (List.range 15).map fun i => code (address + BitVec.ofNat 32 i)

def step (p : Program) (m : Machine) : Option Machine :=
  match decode (fetch p.code m.eip) with
  | some (instr, length) => exec p { m with eip := m.eip + BitVec.ofNat 32 length } instr
  | none => none

/-- Zero or more instructions. -/
def Reaches (p : Program) : Machine → Machine → Prop :=
  Relation.ReflTransGen fun m m' => step p m = some m'

/-- The bytes stand in the code from the address on. -/
def CodeAt (code : BitVec 32 → UInt8) (address : BitVec 32) (bytes : List UInt8) : Prop :=
  ∀ i (inside : i < bytes.length), code (address + BitVec.ofNat 32 i) = bytes[i]

section Code

variable {p : Program} {m m' m'' : Machine} {code : BitVec 32 → UInt8} {at₀ : BitVec 32}
  {bytes front back : List UInt8}

theorem add_ofNat_ofNat (a : BitVec 32) (i j : Nat) :
    a + BitVec.ofNat 32 i + BitVec.ofNat 32 j = a + BitVec.ofNat 32 (i + j) := by
  rw [BitVec.add_assoc, BitVec.ofNat_add]

theorem codeAt_append : CodeAt code at₀ (front ++ back) ↔
    CodeAt code at₀ front ∧ CodeAt code (at₀ + BitVec.ofNat 32 front.length) back := by
  constructor
  · intro placed
    refine ⟨fun i inside => ?_, fun i inside => ?_⟩
    · rw [placed i (by rw [length_append]; omega), getElem_append_left inside]
    · rw [add_ofNat_ofNat, placed (front.length + i) (by rw [length_append]; omega),
        getElem_append_right (by omega)]
      simp
  · rintro ⟨first, second⟩ i inside
    by_cases early : i < front.length
    · rw [first i early, getElem_append_left early]
    · rw [length_append] at inside
      have later := second (i - front.length) (by omega)
      rw [add_ofNat_ofNat, show front.length + (i - front.length) = i by omega] at later
      rw [later, getElem_append_right (by omega)]

theorem CodeAt.left (placed : CodeAt code at₀ (front ++ back)) : CodeAt code at₀ front :=
  (codeAt_append.mp placed).1

theorem CodeAt.right (placed : CodeAt code at₀ (front ++ back)) :
    CodeAt code (at₀ + BitVec.ofNat 32 front.length) back :=
  (codeAt_append.mp placed).2

theorem fetch_codeAt (placed : CodeAt code at₀ bytes) (short : bytes.length ≤ 15) :
    ∃ rest, fetch code at₀ = bytes ++ rest := by
  refine ⟨(fetch code at₀).drop bytes.length, ?_⟩
  have taken : (fetch code at₀).take bytes.length = bytes := by
    apply ext_getElem
    · simp [fetch, short]
    · intro i inside inside'
      rw [List.getElem_take, ← placed i inside']
      simp [fetch]
  calc fetch code at₀
      = (fetch code at₀).take bytes.length ++ (fetch code at₀).drop bytes.length :=
        (take_append_drop _ _).symm
    _ = bytes ++ (fetch code at₀).drop bytes.length := by rw [taken]

theorem step_codeAt {instr : Instr} (placed : CodeAt p.code m.eip bytes) (short : bytes.length ≤ 15)
    (decoded : ∀ rest, decode (bytes ++ rest) = some (instr, bytes.length)) :
    step p m = exec p { m with eip := m.eip + BitVec.ofNat 32 bytes.length } instr := by
  obtain ⟨rest, fetched⟩ := fetch_codeAt placed short
  rw [step, fetched, decoded rest]

/-- The bytes of an instruction with the instruction that they decode to. -/
structure Chunk where
  bytes : List UInt8
  instr : Instr
  short : bytes.length ≤ 15
  decoded : ∀ rest, decode (bytes ++ rest) = some (instr, bytes.length)

def chunkBytes (chunks : List Chunk) : List UInt8 := chunks.flatMap (·.bytes)

/-- Instructions executed one behind the other. -/
def execAll (p : Program) : List Chunk → Machine → Option Machine
  | [], m => some m
  | chunk :: rest, m => do
    let m ← exec p { m with eip := m.eip + BitVec.ofNat 32 chunk.bytes.length } chunk.instr
    execAll p rest m

theorem execAll_append {first second : List Chunk} :
    execAll p (first ++ second) m = (execAll p first m).bind (execAll p second) := by
  induction first generalizing m with
  | nil => rfl
  | cons chunk first ih =>
    rw [cons_append, execAll, execAll, Option.bind_eq_bind, Option.bind_assoc]
    congr 1
    funext m
    exact ih

/-- The next instruction is the one behind this. -/
def Instr.straight : Instr → Bool
  | .jump _ _ | .call _ | .ret _ | .interrupt _ => false
  | _ => true

variable {v : BitVec 32} {target : Operand}

theorem storeWord_eip {a : BitVec 32} (ran : m.storeWord a v = some m') : m'.eip = m.eip := by
  rw [Machine.storeWord] at ran
  split at ran
  · cases ran
    rfl
  · cases ran

theorem assign_eip (ran : m.assign target v = some m') : m'.eip = m.eip := by
  cases target with
  | reg r =>
    cases ran
    rfl
  | mem base index disp => exact storeWord_eip ran

theorem assignByte_eip {v : BitVec 8} (ran : m.assignByte target v = some m') : m'.eip = m.eip := by
  cases target with
  | reg r =>
    rw [Machine.assignByte] at ran
    split at ran
    · cases ran
      rfl
    · cases ran
  | mem base index disp =>
    cases ran
    rfl

theorem execAlu_eip {op : Alu} (ran : execAlu m op target v = some m') : m'.eip = m.eip := by
  obtain ⟨left, -, ran⟩ := Option.bind_eq_some_iff.mp ran
  by_cases isCmp : op = .cmp
  · rw [if_pos isCmp] at ran
    cases ran
    rfl
  · rw [if_neg isCmp] at ran
    exact (assign_eip ran).trans rfl

theorem execDiv_eip (ran : execDiv m v = some m') : m'.eip = m.eip := by
  rw [execDiv] at ran
  split at ran
  · cases ran
  · cases ran
    rfl

theorem exec_straight {instr : Instr} (straight : instr.straight = true)
    (ran : exec p m instr = some m') : m'.eip = m.eip := by
  cases instr with
  | movImm r value => cases ran; rfl
  | lea r source =>
    cases source with
    | reg r => cases ran
    | mem base index disp => cases ran; rfl
  | load r source =>
    obtain ⟨value, -, rfl⟩ := Option.map_eq_some_iff.mp ran
    rfl
  | store target r => exact assign_eip ran
  | loadByte r source =>
    obtain ⟨value, -, rfl⟩ := Option.map_eq_some_iff.mp ran
    rfl
  | storeByte target r =>
    obtain ⟨byte, -, ran⟩ := Option.bind_eq_some_iff.mp ran
    exact assignByte_eip ran
  | push r => exact (storeWord_eip ran).trans rfl
  | pop r =>
    obtain ⟨value, -, ran⟩ := Option.bind_eq_some_iff.mp ran
    cases ran
    rfl
  | not target =>
    obtain ⟨value, -, ran⟩ := Option.bind_eq_some_iff.mp ran
    exact (assign_eip ran).trans rfl
  | neg target =>
    obtain ⟨value, -, ran⟩ := Option.bind_eq_some_iff.mp ran
    exact (assign_eip ran).trans rfl
  | idiv source =>
    obtain ⟨value, -, ran⟩ := Option.bind_eq_some_iff.mp ran
    exact execDiv_eip ran
  | cdq => cases ran; rfl
  | imul r source =>
    obtain ⟨value, -, ran⟩ := Option.bind_eq_some_iff.mp ran
    cases ran
    rfl
  | alu op target r => exact execAlu_eip ran
  | aluImm op target value => exact execAlu_eip ran
  | shl target =>
    obtain ⟨value, -, ran⟩ := Option.bind_eq_some_iff.mp ran
    exact (assign_eip ran).trans rfl
  | sar target =>
    obtain ⟨value, -, ran⟩ := Option.bind_eq_some_iff.mp ran
    exact (assign_eip ran).trans rfl
  | set condition target =>
    obtain ⟨flags, -, ran⟩ := Option.bind_eq_some_iff.mp ran
    exact assignByte_eip ran
  | jump condition distance => cases straight
  | call distance => cases straight
  | ret popped => cases straight
  | interrupt number => cases straight

/-- Straight code runs through its chunks to the address behind them. -/
theorem reaches_execAll {chunks : List Chunk}
    (straight : ∀ chunk ∈ chunks, chunk.instr.straight = true)
    (placed : CodeAt p.code m.eip (chunkBytes chunks)) (ran : execAll p chunks m = some m') :
    Reaches p m m' ∧ m'.eip = m.eip + BitVec.ofNat 32 (chunkBytes chunks).length := by
  induction chunks generalizing m with
  | nil =>
    cases ran
    exact ⟨.refl, (BitVec.add_zero _).symm⟩
  | cons chunk chunks ih =>
    obtain ⟨first, rest⟩ := forall_mem_cons.mp straight
    obtain ⟨middle, here, later⟩ := Option.bind_eq_some_iff.mp ran
    have stepped : step p m = some middle := by
      rw [step_codeAt (CodeAt.left placed) chunk.short chunk.decoded]
      exact here
    have atMiddle : middle.eip = m.eip + BitVec.ofNat 32 chunk.bytes.length :=
      exec_straight first here
    have next : CodeAt p.code middle.eip (chunkBytes chunks) := by
      rw [atMiddle]
      exact CodeAt.right placed
    obtain ⟨reaches, atEnd⟩ := ih rest next later
    refine ⟨.head stepped reaches, ?_⟩
    rw [atEnd, atMiddle, add_ofNat_ofNat]
    simp [chunkBytes]

end Code

end M4KK1.Lib.X86
