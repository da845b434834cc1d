import M4KK1.Lib.X86
import M4KK1.Pcc.Syntax

/-!
# Running the code of an expression

By `value_reaches` the code of an expression leaves the value that C gives it in EAX.
-/

namespace M4KK1.Pcc

open M4KK1.Lib M4KK1.Lib.X86 Function List

/-- The value of a comparison. -/
def truth (holds : Bool) : BitVec 32 := if holds then 1 else 0

/-- The value of a prefix operator. -/
def UnOp.eval (a : BitVec 32) : UnOp → BitVec 32
  | .neg => -a
  | .not => truth (decide (a = 0))
  | .compl => ~~~a

/-- A quotient that C defines: the divisor is not zero and the quotient is an `int`. -/
def divides (a b : BitVec 32) : Prop :=
  b ≠ 0 ∧ -2 ^ 31 ≤ a.toInt.tdiv b.toInt ∧ a.toInt.tdiv b.toInt < 2 ^ 31

instance (a b : BitVec 32) : Decidable (divides a b) := inferInstanceAs (Decidable (_ ∧ _ ∧ _))

/-- The value of a binary operator where C defines one. -/
def BinOp.eval (a b : BitVec 32) : BinOp → Option (BitVec 32)
  | .mul => some (a * b)
  | .div => if divides a b then some (BitVec.ofInt 32 (a.toInt.tdiv b.toInt)) else none
  | .mod => if divides a b then some (BitVec.ofInt 32 (a.toInt.tmod b.toInt)) else none
  | .add => some (a + b)
  | .sub => some (a - b)
  | .shl => if b.toNat < 32 then some (a <<< b.toNat) else none
  | .shr => if b.toNat < 32 then some (a.sshiftRight b.toNat) else none
  | .lt => some (truth (decide (a.toInt < b.toInt)))
  | .gt => some (truth (decide (b.toInt < a.toInt)))
  | .le => some (truth (decide (a.toInt ≤ b.toInt)))
  | .ge => some (truth (decide (b.toInt ≤ a.toInt)))
  | .eq => some (truth (decide (a = b)))
  | .ne => some (truth (decide (a ≠ b)))
  | .and => some (a &&& b)
  | .xor => some (a ^^^ b)
  | .or => some (a ||| b)

/-- The value of an expression where C defines one; `&&` and `||` may stop at the left operand. -/
def Expr.eval (vars : List UInt8 → BitVec 32) : Expr → Option (BitVec 32)
  | .num value => some (BitVec.ofInt 32 value)
  | .var name => some (vars name)
  | .paren e => e.eval vars
  | .un op e => (e.eval vars).map fun a => op.eval a
  | .bin op left right => do
    let a ← left.eval vars
    let b ← right.eval vars
    op.eval a b
  | .land left right => do
    let a ← left.eval vars
    if a = 0 then return truth false
    else return truth (decide ((← right.eval vars) ≠ 0))
  | .lor left right => do
    let a ← left.eval vars
    if a ≠ 0 then return truth true
    else return truth (decide ((← right.eval vars) ≠ 0))

/-- The words that the code of an expression pushes. -/
def Expr.depth : Expr → Nat
  | .num _ | .var _ => 0
  | .paren e | .un _ e => e.depth
  | .bin _ left right => max left.depth (right.depth + 1)
  | .land left right | .lor left right => max left.depth right.depth

theorem word_le32 (w : BitVec 32) :
    word (UInt8.ofBitVec (w.extractLsb' 0 8)) (UInt8.ofBitVec (w.extractLsb' 8 8))
      (UInt8.ofBitVec (w.extractLsb' 16 8)) (UInt8.ofBitVec (w.extractLsb' 24 8)) = w := by
  rw [word]
  rw [BitVec.extractLsb'_append_extractLsb'_eq_extractLsb' (by rfl),
    BitVec.extractLsb'_append_extractLsb'_eq_extractLsb' (by rfl),
    BitVec.extractLsb'_append_extractLsb'_eq_extractLsb' (by rfl)]
  simp

/-- `mov eax, imm32` -/
def movEax (w : BitVec 32) : Chunk where
  bytes := 0xB8 :: le32 w
  instr := .movImm .eax w
  short := (by decide : 5 ≤ 15)
  decoded rest := by
    have value : imm32 (le32 w ++ rest) = some w := congrArg some (word_le32 w)
    change (imm32 (le32 w ++ rest)).map (fun value => (Instr.movImm (reg 0) value, 5)) = _
    rw [value]
    rfl

/-- `lea eax, [ebp+disp32]` -/
def leaFrame (w : BitVec 32) : Chunk where
  bytes := [0x8D, mrm 2 0 5] ++ le32 w
  instr := .lea .eax (.mem .ebp none w)
  short := (by decide : 6 ≤ 15)
  decoded rest := by
    have value : imm32 (le32 w ++ rest) = some w := congrArg some (word_le32 w)
    have isMrm : mrm 2 0 5 = 0x85 := rfl
    simp [decode, withOperand, operand, displacement, value, isMrm, reg]

/-- `jz` and `jnz` -/
def jccChunk (opcode : UInt8) (condition : Cond)
    (isCond : condOf (opcode.toNat % 16) = some condition)
    (isJump : opcode.toNat / 16 = 8) (w : BitVec 32) : Chunk where
  bytes := [0x0F, opcode] ++ le32 w
  instr := .jump (some condition) w
  short := (by decide : 6 ≤ 15)
  decoded rest := by
    have value : imm32 (le32 w ++ rest) = some w := congrArg some (word_le32 w)
    have other : opcode ≠ 0xAF ∧ opcode ≠ 0xB6 := by
      constructor <;> (rintro rfl; exact absurd isJump (by decide))
    simp [decode, decodeSecond, value, isCond, isJump, other]

theorem flagsOf_less (a b : BitVec 32) :
    ((flagsOf a b).sign != (flagsOf a b).overflow) = decide (a.toInt < b.toInt) := by
  have bounds : ∀ x : BitVec 32, -2147483648 ≤ x.toInt ∧ x.toInt < 2147483648 := by
    intro x
    have := x.toInt_lt
    have := x.le_toInt
    omega
  have difference : (a - b).toInt = (a.toInt - b.toInt).bmod 4294967296 := BitVec.toInt_sub ..
  obtain ⟨lowA, highA⟩ := bounds a
  obtain ⟨lowB, highB⟩ := bounds b
  obtain ⟨lowC, highC⟩ := bounds (a - b)
  have wrapped : (a - b).toInt = a.toInt - b.toInt ∨
    (a - b).toInt = a.toInt - b.toInt + 4294967296 ∨
      (a - b).toInt = a.toInt - b.toInt - 4294967296 := by
    rw [difference, Int.bmod]
    omega
  simp only [flagsOf, BitVec.msb_eq_toInt]
  by_cases signA : a.toInt < 0 <;> by_cases signB : b.toInt < 0 <;>
    by_cases signC : (a - b).toInt < 0 <;> simp [signA, signB] <;> omega

theorem cdq_toInt (a : BitVec 32) :
    ((if a.msb then BitVec.allOnes 32 else 0) ++ a : BitVec 64).toInt = a.toInt := by
  have small := a.isLt
  have joined : ∀ high : BitVec 32, (high ++ a : BitVec 64).toNat =
      high.toNat * 4294967296 + a.toNat := by
    intro high
    rw [BitVec.toNat_append, Nat.shiftLeft_eq, Nat.mul_comm, ← Nat.two_pow_add_eq_or_of_lt small,
      Nat.mul_comm]
  rw [BitVec.toInt_eq_toNat_cond, BitVec.toInt_eq_toNat_cond, joined, BitVec.msb_eq_decide]
  by_cases big : 2 ^ 31 ≤ a.toNat
  · have isBig : decide (2 ^ (32 - 1) ≤ a.toNat) = true := by simpa using big
    rw [isBig]
    simp
    omega
  · have isSmall : decide (2 ^ (32 - 1) ≤ a.toNat) = false := by simpa using big
    rw [isSmall]
    simp
    omega

/-- `mov ecx, eax` and `pop eax` -/
def popChunks : List Chunk :=
  [⟨[0x89, mrm 3 0 1], .store (.reg .ecx) .eax, by decide, fun _ => rfl⟩,
    ⟨[0x58], .pop .eax, by decide, fun _ => rfl⟩]

/-- `mov eax, [eax]` -/
def loadChunk : Chunk := ⟨[0x8B, mrm 0 0 0], .load .eax (.mem .eax none 0), by decide, fun _ => rfl⟩

/-- `push eax` -/
def pushChunk : Chunk := ⟨[0x50], .push .eax, by decide, fun _ => rfl⟩

/-- `cmp eax, 0` -/
def cmpChunk : Chunk :=
  ⟨[0x83, mrm 3 7 0, 0], .aluImm .cmp (.reg .eax) 0, by decide, fun _ => rfl⟩

/-- `movzx eax, al` -/
def widenChunk : Chunk :=
  ⟨[0x0F, 0xB6, mrm 3 0 0], .loadByte .eax (.reg .eax), by decide, fun _ => rfl⟩

/-- `set` into AL -/
def setChunk : Cond → Chunk
  | .e => ⟨[0x0F, 0x94, mrm 3 0 0], .set .e (.reg .eax), by decide, fun _ => rfl⟩
  | .ne => ⟨[0x0F, 0x95, mrm 3 0 0], .set .ne (.reg .eax), by decide, fun _ => rfl⟩
  | .l => ⟨[0x0F, 0x9C, mrm 3 0 0], .set .l (.reg .eax), by decide, fun _ => rfl⟩
  | .ge => ⟨[0x0F, 0x9D, mrm 3 0 0], .set .ge (.reg .eax), by decide, fun _ => rfl⟩
  | .le => ⟨[0x0F, 0x9E, mrm 3 0 0], .set .le (.reg .eax), by decide, fun _ => rfl⟩
  | .g => ⟨[0x0F, 0x9F, mrm 3 0 0], .set .g (.reg .eax), by decide, fun _ => rfl⟩

def compareChunks (condition : Cond) : List Chunk :=
  [⟨[0x39, mrm 3 1 0], .alu .cmp (.reg .eax) .ecx, by decide, fun _ => rfl⟩, setChunk condition,
    widenChunk]

/-- `cdq` and `idiv ecx` -/
def divChunks : List Chunk :=
  [⟨[0x99], .cdq, by decide, fun _ => rfl⟩,
    ⟨[0xF7, mrm 3 7 1], .idiv (.reg .ecx), by decide, fun _ => rfl⟩]

/-- The instructions of a binary operator on EAX and ECX. -/
def BinOp.chunks : BinOp → List Chunk
  | .mul => [⟨[0x0F, 0xAF, mrm 3 0 1], .imul .eax (.reg .ecx), by decide, fun _ => rfl⟩]
  | .div => divChunks
  | .mod => divChunks ++ [⟨[0x8B, mrm 3 0 2], .load .eax (.reg .edx), by decide, fun _ => rfl⟩]
  | .add => [⟨[0x01, mrm 3 1 0], .alu .add (.reg .eax) .ecx, by decide, fun _ => rfl⟩]
  | .sub => [⟨[0x29, mrm 3 1 0], .alu .sub (.reg .eax) .ecx, by decide, fun _ => rfl⟩]
  | .shl => [⟨[0xD3, mrm 3 4 0], .shl (.reg .eax), by decide, fun _ => rfl⟩]
  | .shr => [⟨[0xD3, mrm 3 7 0], .sar (.reg .eax), by decide, fun _ => rfl⟩]
  | .lt => compareChunks .l
  | .gt => compareChunks .g
  | .le => compareChunks .le
  | .ge => compareChunks .ge
  | .eq => compareChunks .e
  | .ne => compareChunks .ne
  | .and => [⟨[0x21, mrm 3 1 0], .alu .and (.reg .eax) .ecx, by decide, fun _ => rfl⟩]
  | .xor => [⟨[0x31, mrm 3 1 0], .alu .xor (.reg .eax) .ecx, by decide, fun _ => rfl⟩]
  | .or => [⟨[0x09, mrm 3 1 0], .alu .or (.reg .eax) .ecx, by decide, fun _ => rfl⟩]

/-- The instructions of a prefix operator on EAX. -/
def UnOp.chunks : UnOp → List Chunk
  | .neg => [⟨[0xF7, mrm 3 3 0], .neg (.reg .eax), by decide, fun _ => rfl⟩]
  | .not => [cmpChunk, setChunk .e, widenChunk]
  | .compl => [⟨[0xF7, mrm 3 2 0], .not (.reg .eax), by decide, fun _ => rfl⟩]

theorem BinOp.chunks_bytes (op : BinOp) : chunkBytes op.chunks = op.bytes := by
  cases op <;> rfl

theorem UnOp.chunks_bytes (op : UnOp) : chunkBytes op.chunks = op.bytes := by
  cases op <;> rfl

theorem setChunk_instr (condition : Cond) :
    (setChunk condition).instr = .set condition (.reg .eax) := by
  cases condition <;> rfl

/-- What straight code without stores and pushes leaves alone. -/
structure Computed (m m' : Machine) (value : BitVec 32) : Prop where
  eax : m'.regs .eax = value
  esp : m'.regs .esp = m.regs .esp
  ebp : m'.regs .ebp = m.regs .ebp
  mem : m'.mem = m.mem

variable {p : Program} {m m' : Machine} {a b v : BitVec 32}

theorem widen_low (high : BitVec 24) (low : BitVec 8) :
    ((high ++ low : BitVec 32).setWidth 8).setWidth 32 = low.setWidth 32 := by
  rw [BitVec.setWidth_append]
  simp

theorem set_computed {flags : Flags} (condition : Cond) (isFlags : m.flags = some flags) :
    ∃ m', execAll p [setChunk condition, widenChunk] m = some m' ∧
      Computed m m' (truth (condition.holds flags)) := by
  rw [execAll, setChunk_instr]
  simp only [exec, isFlags]
  refine ⟨_, rfl, ?_, rfl, rfl, rfl⟩
  change BitVec.setWidth 32 (BitVec.setWidth 8 (_ ++ _)) = _
  rw [widen_low]
  cases condition.holds flags <;> rfl

theorem zero_flagsOf (a b : BitVec 32) : (flagsOf a b).zero = decide (a = b) := by
  have same : a - b = 0#32 ↔ a = b := by
    rw [BitVec.sub_eq_iff_eq_add, BitVec.zero_add]
  rw [flagsOf, decide_eq_decide]
  exact same

/-- What a condition says about the numbers that were compared. -/
def compares (a b : BitVec 32) : Cond → Bool
  | .e => decide (a = b)
  | .ne => decide (a ≠ b)
  | .l => decide (a.toInt < b.toInt)
  | .ge => decide (b.toInt ≤ a.toInt)
  | .le => decide (a.toInt ≤ b.toInt)
  | .g => decide (b.toInt < a.toInt)

theorem holds_flagsOf (a b : BitVec 32) (condition : Cond) :
    condition.holds (flagsOf a b) = compares a b condition := by
  have less := flagsOf_less a b
  have zero := zero_flagsOf a b
  have atLeast : ((flagsOf a b).sign == (flagsOf a b).overflow) = decide (b.toInt ≤ a.toInt) := by
    have opposite : ((flagsOf a b).sign == (flagsOf a b).overflow) =
        !decide (a.toInt < b.toInt) := by
      rw [← less, bne, Bool.not_not]
    rw [opposite, ← decide_not, decide_eq_decide]
    omega
  have same : a = b ↔ a.toInt = b.toInt := BitVec.toInt_inj.symm
  cases condition with
  | e => exact zero
  | ne =>
    rw [Cond.holds, zero, compares, decide_not]
  | l => exact less
  | ge => exact atLeast
  | le =>
    rw [Cond.holds, zero, less, compares, ← Bool.decide_or, decide_eq_decide, same]
    omega
  | g =>
    rw [Cond.holds, zero, atLeast, compares, ← decide_not, ← Bool.decide_and, decide_eq_decide,
      same]
    omega

theorem compare_computed (condition : Cond) :
    ∃ m', execAll p (compareChunks condition) m = some m' ∧
      Computed m m' (truth (compares (m.regs .eax) (m.regs .ecx) condition)) := by
  obtain ⟨m', ran, computed⟩ := @set_computed p
    { m with eip := m.eip + 2, flags := some (flagsOf (m.regs .eax) (m.regs .ecx)) } _ condition rfl
  rw [holds_flagsOf] at computed
  exact ⟨m', ran, computed.eax, computed.esp, computed.ebp, computed.mem⟩

theorem div_computed (divides : divides (m.regs .eax) (m.regs .ecx)) :
    ∃ m', execAll p divChunks m = some m' ∧
      Computed m m' (BitVec.ofInt 32 ((m.regs .eax).toInt.tdiv (m.regs .ecx).toInt)) ∧
      m'.regs .edx = BitVec.ofInt 32 ((m.regs .eax).toInt.tmod (m.regs .ecx).toInt) := by
  obtain ⟨notZero, low, high⟩ := divides
  have inRange : ¬(m.regs .ecx = 0 ∨ (m.regs .eax).toInt.tdiv (m.regs .ecx).toInt < -2 ^ 31 ∨
      2 ^ 31 ≤ (m.regs .eax).toInt.tdiv (m.regs .ecx).toInt) := by
    rintro (zero | below | above)
    · exact notZero zero
    · omega
    · omega
  let widened : Machine := { m with
    regs := update m.regs .edx (if (m.regs .eax).msb then BitVec.allOnes 32 else 0)
    eip := m.eip + 1 + 2 }
  have isDividend : (widened.regs .edx ++ widened.regs .eax : BitVec 64).toInt =
      (m.regs .eax).toInt :=
    cdq_toInt (m.regs .eax)
  have ran : execAll p divChunks m = (execDiv widened (m.regs .ecx)).bind some := rfl
  rw [ran, execDiv, isDividend, if_neg inRange]
  exact ⟨_, rfl, ⟨rfl, rfl, rfl, rfl⟩, rfl⟩

theorem BinOp.computed (op : BinOp) (value : op.eval (m.regs .eax) (m.regs .ecx) = some v) :
    ∃ m', execAll p op.chunks m = some m' ∧ Computed m m' v := by
  cases op with
  | mul | add | sub | and | xor | or =>
    cases value
    exact ⟨_, rfl, rfl, rfl, rfl, rfl⟩
  | lt | gt | le | ge | eq | ne =>
    cases value
    exact compare_computed _
  | shl =>
    rw [BinOp.eval] at value
    split at value
    · next inRange =>
      cases value
      refine ⟨_, rfl, ?_, rfl, rfl, rfl⟩
      exact congrArg (m.regs .eax <<< ·) (Nat.mod_eq_of_lt inRange)
    · cases value
  | shr =>
    rw [BinOp.eval] at value
    split at value
    · next inRange =>
      cases value
      refine ⟨_, rfl, ?_, rfl, rfl, rfl⟩
      exact congrArg (m.regs .eax).sshiftRight (Nat.mod_eq_of_lt inRange)
    · cases value
  | div =>
    rw [BinOp.eval] at value
    split at value
    · next divides =>
      cases value
      obtain ⟨m', ran, computed, -⟩ := @div_computed p m divides
      exact ⟨m', ran, computed⟩
    · cases value
  | mod =>
    rw [BinOp.eval] at value
    split at value
    · next divides =>
      cases value
      obtain ⟨m', ran, computed, remainder⟩ := @div_computed p m divides
      rw [BinOp.chunks, execAll_append, ran]
      exact ⟨_, rfl, remainder, computed.esp, computed.ebp, computed.mem⟩
    · cases value

theorem UnOp.computed (op : UnOp) :
    ∃ m', execAll p op.chunks m = some m' ∧ Computed m m' (op.eval (m.regs .eax)) := by
  cases op with
  | neg | compl => exact ⟨_, rfl, rfl, rfl, rfl, rfl⟩
  | not =>
    obtain ⟨m', ran, computed⟩ := @set_computed p
      { m with eip := m.eip + 3, flags := some (flagsOf (m.regs .eax) 0) } _ .e rfl
    rw [holds_flagsOf] at computed
    exact ⟨m', ran, computed.eax, computed.esp, computed.ebp, computed.mem⟩

/-- The value is in EAX and memory is as it was but for `depth` words below ESP. -/
structure After (m m' : Machine) (length : Nat) (value : BitVec 32) (depth : Nat) : Prop where
  eip : m'.eip = m.eip + BitVec.ofNat 32 length
  eax : m'.regs .eax = value
  esp : m'.regs .esp = m.regs .esp
  ebp : m'.regs .ebp = m.regs .ebp
  mem : ∀ i, i + 4 * depth < (m.regs .esp).toNat ∨ (m.regs .esp).toNat ≤ i → m'.mem i = m.mem i

/-- The frame at EBP has the variables, and the stack has room for `depth` words more. -/
structure Frame (env vars : List UInt8 → BitVec 32) (names : List (List UInt8)) (m : Machine)
    (depth : Nat) : Prop where
  room : 4 * depth ≤ (m.regs .esp).toNat
  above : ∀ name ∈ names, (m.regs .esp).toNat ≤ (m.regs .ebp + env name).toNat
  held : ∀ name ∈ names, m.loadWord (m.regs .ebp + env name) = some (vars name)

variable {env vars : List UInt8 → BitVec 32} {names names' : List (List UInt8)} {depth depth' : Nat}

theorem loadWord_congr {address : BitVec 32}
    (same : ∀ i, address.toNat ≤ i → i < address.toNat + 4 → m'.mem i = m.mem i) :
    m'.loadWord address = m.loadWord address := by
  rw [Machine.loadWord, Machine.loadWord, read32_congr same]

theorem Frame.kept (frame : Frame env vars names m depth) (ebp : m'.regs .ebp = m.regs .ebp)
    (lower : (m'.regs .esp).toNat ≤ (m.regs .esp).toNat) (room : 4 * depth' ≤ (m'.regs .esp).toNat)
    (mem : ∀ i, (m.regs .esp).toNat ≤ i → m'.mem i = m.mem i) (part : names' ⊆ names) :
    Frame env vars names' m' depth' := by
  refine ⟨room, fun name member => ?_, fun name member => ?_⟩
  · rw [ebp]
    exact le_trans lower (frame.above name (part member))
  · rw [ebp, ← frame.held name (part member)]
    apply loadWord_congr
    intro i low _
    exact mem i (le_trans (frame.above name (part member)) low)

theorem After.frame {length : Nat} (after : After m m' length v depth)
    (frame : Frame env vars names m depth') (part : names' ⊆ names) :
    Frame env vars names' m' depth' := by
  refine frame.kept after.ebp (le_of_eq (by rw [after.esp])) (by rw [after.esp]; exact frame.room)
    ?_
    part
  intro i above
  exact after.mem i (.inr above)

theorem Frame.mono (frame : Frame env vars names m depth) (less : depth' ≤ depth)
    (part : names' ⊆ names) : Frame env vars names' m depth' := by
  refine frame.kept rfl (le_refl _) ?_ (fun _ _ => rfl) part
  have room := frame.room
  omega

theorem After.computed {m'' : Machine} {chunks : List Chunk} {length : Nat} {w : BitVec 32}
    (after : After m m' length v depth) (straight : ∀ chunk ∈ chunks, chunk.instr.straight = true)
    (placed : CodeAt p.code m'.eip (chunkBytes chunks)) (ran : execAll p chunks m' = some m'')
    (computed : Computed m' m'' w) :
    Reaches p m' m'' ∧ After m m'' (length + (chunkBytes chunks).length) w depth := by
  obtain ⟨reaches, atEnd⟩ := reaches_execAll straight placed ran
  refine ⟨reaches, ?_, computed.eax, computed.esp.trans after.esp, computed.ebp.trans after.ebp, ?_⟩
  · rw [atEnd, after.eip, add_ofNat_ofNat]
  · intro i outside
    rw [computed.mem]
    exact after.mem i outside

theorem BinOp.straight (op : BinOp) : ∀ chunk ∈ op.chunks, chunk.instr.straight = true := by
  cases op <;> decide

theorem UnOp.straight (op : UnOp) : ∀ chunk ∈ op.chunks, chunk.instr.straight = true := by
  cases op <;> decide

theorem push_reaches (placed : CodeAt p.code m.eip [0x50]) (room : 4 ≤ (m.regs .esp).toNat) :
    ∃ m', Reaches p m m' ∧ m'.eip = m.eip + BitVec.ofNat 32 1 ∧
      (m'.regs .esp).toNat = (m.regs .esp).toNat - 4 ∧
      m'.regs .esp = m.regs .esp - 4 ∧ m'.regs .ebp = m.regs .ebp ∧
      m'.loadWord (m'.regs .esp) = some (m.regs .eax) ∧
      ∀ i, i + 4 < (m.regs .esp).toNat ∨ (m.regs .esp).toNat ≤ i → m'.mem i = m.mem i := by
  have lowered : (m.regs .esp - 4).toNat = (m.regs .esp).toNat - 4 := by
    rw [BitVec.toNat_sub_of_le (by rw [BitVec.le_def]; exact room)]
    rfl
  have fits : (m.regs .esp - 4).toNat + 4 ≤ 2 ^ 32 := by
    have := (m.regs .esp).isLt
    omega
  have stepped := step_codeAt (m := m) placed (by decide) pushChunk.decoded
  have ran : exec p { m with eip := m.eip + BitVec.ofNat 32 1 } (.push .eax) = some
      { m with
        eip := m.eip + BitVec.ofNat 32 1
        regs := update m.regs .esp (m.regs .esp - 4)
        mem := write32 m.mem (m.regs .esp - 4).toNat (m.regs .eax).toNat } := if_pos fits
  refine ⟨_, .single (stepped.trans ran), rfl, lowered, rfl, rfl, ?_, ?_⟩
  · refine (if_pos fits).trans ?_
    dsimp only
    rw [update_self, read32_write32_self (m.regs .eax).isLt, BitVec.ofNat_toNat, BitVec.setWidth_eq]
  · intro i outside
    refine write32_other ?_
    rw [lowered]
    omega

theorem valueCode_var (name : List UInt8) :
    (Expr.var name).valueCode env = (leaFrame (env name)).bytes ++ loadChunk.bytes := rfl

/-- The jump and what follows it, behind the left operand of `&&` and `||`. -/
def shortCircuit (opcode : UInt8) (operand rest : List UInt8) : List UInt8 :=
  cmpBytes ++ ([0x0F, opcode] ++ le32 (BitVec.ofNat 32 (operand.length + 19)) ++
    (operand ++ (cmpBytes ++ ([0x0F, opcode] ++ le32 10 ++ rest))))

theorem valueCode_land (left right : Expr) : (Expr.land left right).valueCode env =
      left.valueCode env ++ shortCircuit 0x84 (right.valueCode env)
        ((0xB8 :: le32 1) ++ (0xE9 :: le32 0)) := by
  simp [Expr.valueCode, Expr.code, Expr.load, Expr.isVar, shortCircuit]

theorem valueCode_lor (left right : Expr) : (Expr.lor left right).valueCode env =
      left.valueCode env ++ shortCircuit 0x85 (right.valueCode env)
        ((0xB8 :: le32 0) ++ ((0xE9 :: le32 5) ++ (0xB8 :: le32 1))) := by
  simp [Expr.valueCode, Expr.code, Expr.load, Expr.isVar, shortCircuit]

theorem operator_reaches {op : BinOp}
    (placed : CodeAt p.code m.eip (chunkBytes popChunks ++ op.bytes))
    (pushed : m.loadWord (m.regs .esp) = some a) (value : op.eval a (m.regs .eax) = some v) :
    ∃ m', Reaches p m m' ∧ m'.eip = m.eip + BitVec.ofNat 32 (3 + op.bytes.length) ∧
      m'.regs .eax = v ∧ m'.regs .esp = m.regs .esp + 4 ∧ m'.regs .ebp = m.regs .ebp ∧
      m'.mem = m.mem := by
  let popped : Machine := { m with
    regs := update (update (update m.regs .ecx (m.regs .eax)) .esp
      (m.regs .esp + 4)) .eax a
    eip := m.eip + 2 + 1 }
  have ranPop : execAll p popChunks m = some popped := by
    change ((m.loadWord (m.regs .esp)).bind _).bind _ = _
    rw [pushed]
    rfl
  obtain ⟨m', ran, computed⟩ := @BinOp.computed p popped v op value
  have all : execAll p (popChunks ++ op.chunks) m = some m' := by
    rw [execAll_append, ranPop]
    exact ran
  rw [← op.chunks_bytes] at placed
  have whole : chunkBytes popChunks ++ chunkBytes op.chunks =
      chunkBytes (popChunks ++ op.chunks) := by
    simp [chunkBytes]
  rw [whole] at placed
  have popStraight : ∀ chunk ∈ popChunks, chunk.instr.straight = true := by decide
  have straight : ∀ chunk ∈ popChunks ++ op.chunks, chunk.instr.straight = true := by
    intro chunk member
    rcases mem_append.mp member with first | second
    · exact popStraight chunk first
    · exact op.straight chunk second
  obtain ⟨reaches, atEnd⟩ := reaches_execAll straight placed all
  refine ⟨m', reaches, ?_, computed.eax, computed.esp, computed.ebp, computed.mem⟩
  rw [atEnd, ← whole, length_append, op.chunks_bytes]
  rfl

/-- `jmp rel32` -/
def jmpChunk (w : BitVec 32) : Chunk where
  bytes := 0xE9 :: le32 w
  instr := .jump none w
  short := (by decide : 5 ≤ 15)
  decoded rest := by
    have value : imm32 (le32 w ++ rest) = some w := congrArg some (word_le32 w)
    change (imm32 (le32 w ++ rest)).map (fun distance => (Instr.jump none distance, 5)) = _
    rw [value]
    rfl

variable {w : BitVec 32} {opcode : UInt8} {left right : Expr} {rest : List UInt8}

theorem jmp_reaches (placed : CodeAt p.code m.eip (0xE9 :: le32 w)) :
    Reaches p m { m with eip := m.eip + 5 + w } :=
  .single (step_codeAt placed (jmpChunk w).short (jmpChunk w).decoded)

theorem mov_reaches (placed : CodeAt p.code m.eip (0xB8 :: le32 w)) :
    Reaches p m { m with eip := m.eip + 5, regs := update m.regs .eax w } :=
  .single (step_codeAt placed (movEax w).short (movEax w).decoded)

theorem branch_reaches {condition : Cond} (isCond : condOf (opcode.toNat % 16) = some condition)
    (isJump : opcode.toNat / 16 = 8)
    (placed : CodeAt p.code m.eip (cmpBytes ++ ([0x0F, opcode] ++ le32 w))) :
    ∃ m', Reaches p m m' ∧ m'.regs = m.regs ∧ m'.mem = m.mem ∧
      m'.eip = m.eip + BitVec.ofNat 32 9 + if compares (m.regs .eax) 0 condition then w else 0 := by
  let compared : Machine :=
    { m with eip := m.eip + 3, flags := some (flagsOf (m.regs .eax) 0) }
  have first : step p m = some compared := step_codeAt placed.left cmpChunk.short cmpChunk.decoded
  let jcc := jccChunk opcode condition isCond isJump w
  have second : step p compared = exec p { compared with eip := compared.eip + 6 } jcc.instr :=
    step_codeAt placed.right jcc.short jcc.decoded
  have ran : exec p { compared with eip := compared.eip + 6 } jcc.instr =
      some (if condition.holds (flagsOf (m.regs .eax) 0)
        then { compared with eip := compared.eip + 6 + w }
        else { compared with eip := compared.eip + 6 }) := rfl
  rw [holds_flagsOf] at ran
  refine ⟨_, .head first (.single (second.trans ran)), ?_, ?_, ?_⟩
  · split <;> rfl
  · split <;> rfl
  · have nine : compared.eip + 6 = m.eip + BitVec.ofNat 32 9 := BitVec.add_assoc m.eip 3 6
    split
    · rw [← nine]
    · rw [← nine]
      exact (BitVec.add_zero _).symm

theorem After.moved {m'' : Machine} {length length' : Nat} (after : After m m' length v depth)
    (regs : m''.regs = m'.regs) (mem : m''.mem = m'.mem)
    (eip : m''.eip = m.eip + BitVec.ofNat 32 length') : After m m'' length' v depth := by
  refine ⟨eip, ?_, ?_, ?_, ?_⟩
  · rw [regs, after.eax]
  · rw [regs, after.esp]
  · rw [regs, after.ebp]
  · rw [mem]
    exact after.mem

theorem After.weaken {length : Nat} (after : After m m' length v depth) (less : depth ≤ depth') :
    After m m' length v depth' := by
  refine ⟨after.eip, after.eax, after.esp, after.ebp, ?_⟩
  intro i outside
  exact after.mem i (by omega)

theorem After.trans {m'' : Machine} {length length' : Nat} (first : After m m' length v depth)
    (second : After m' m'' length' w depth) :
    After m m'' (length + length') w depth := by
  refine ⟨?_, second.eax, second.esp.trans first.esp, second.ebp.trans first.ebp, ?_⟩
  · rw [second.eip, first.eip, add_ofNat_ofNat]
  · intro i outside
    rw [second.mem i (by rw [first.esp]; exact outside), first.mem i outside]

/-- The code of the expression leaves its value in EAX. -/
def Computes (p : Program) (env vars : List UInt8 → BitVec 32) (e : Expr) : Prop :=
  ∀ m v, CodeAt p.code m.eip (e.valueCode env) → Frame env vars e.vars m e.depth →
    e.eval vars = some v →
    ∃ m', Reaches p m m' ∧ After m m' (e.valueCode env).length v e.depth

theorem num_computes (value : Int) : Computes p env vars (.num value) := by
  intro m v placed _ isValue
  cases isValue
  exact ⟨_, mov_reaches placed, rfl, rfl, rfl, rfl, fun _ _ => rfl⟩

theorem var_computes (name : List UInt8) : Computes p env vars (.var name) := by
  intro m v placed frame isValue
  cases isValue
  rw [valueCode_var] at placed
  have held := frame.held name (mem_singleton_self name)
  let addressed : Machine := { m with
    eip := m.eip + BitVec.ofNat 32 (leaFrame (env name)).bytes.length
    regs := update m.regs .eax (m.regs .ebp + env name) }
  have first : step p m = some addressed :=
    step_codeAt placed.left (leaFrame (env name)).short (leaFrame (env name)).decoded
  let next : Machine :=
    { addressed with eip := addressed.eip + BitVec.ofNat 32 loadChunk.bytes.length }
  have loads : next.loadWord (m.regs .ebp + env name + 0) = some (vars name) := by
    rw [show m.regs .ebp + env name + 0 = m.regs .ebp + env name from BitVec.add_zero _]
    exact held
  have second : step p addressed = some (next.setReg .eax (vars name)) := by
    have fetched : step p addressed = exec p next loadChunk.instr :=
      step_codeAt placed.right loadChunk.short loadChunk.decoded
    exact fetched.trans (congrArg (Option.map (next.setReg .eax)) loads)
  refine ⟨_, .head first (.single second), ?_, rfl, rfl, rfl, fun _ _ => rfl⟩
  rw [valueCode_var, length_append]
  exact add_ofNat_ofNat ..

theorem un_computes {op : UnOp} {e : Expr} (operand : Computes p env vars e) :
    Computes p env vars (.un op e) := by
  intro m v placed frame isValue
  rw [valueCode_un] at placed
  obtain ⟨a, isOperand, rfl⟩ := Option.map_eq_some_iff.mp isValue
  obtain ⟨m₁, reaches, after⟩ := operand m a placed.left frame isOperand
  obtain ⟨m₂, ran, computed⟩ := @UnOp.computed p m₁ op
  have placed' : CodeAt p.code m₁.eip (chunkBytes op.chunks) := by
    rw [after.eip, op.chunks_bytes]
    exact placed.right
  obtain ⟨reaches', after'⟩ := after.computed op.straight placed' ran computed
  refine ⟨m₂, reaches.trans reaches', ?_⟩
  rw [valueCode_un, length_append, ← op.chunks_bytes, ← after.eax]
  exact after'

theorem bin_computes {op : BinOp} (ofLeft : Computes p env vars left)
    (ofRight : Computes p env vars right) : Computes p env vars (.bin op left right) := by
  intro m v placed frame isValue
  rw [valueCode_bin] at placed
  obtain ⟨a, isLeft, isValue⟩ := Option.bind_eq_some_iff.mp isValue
  obtain ⟨b, isRight, isValue⟩ := Option.bind_eq_some_iff.mp isValue
  have deep : left.depth ≤ max left.depth (right.depth + 1) ∧
      right.depth + 1 ≤ max left.depth (right.depth + 1) := by omega
  have room : 4 * max left.depth (right.depth + 1) ≤ (m.regs .esp).toNat := frame.room
  obtain ⟨m₁, reaches₁, after₁⟩ := ofLeft m a placed.left
    (frame.mono deep.1 (subset_append_left ..)) isLeft
  have placed₁ := placed.right
  rw [← after₁.eip] at placed₁
  have esp₁ : (m₁.regs .esp).toNat = (m.regs .esp).toNat := by rw [after₁.esp]
  obtain ⟨m₂, reaches₂, eip₂, lower, esp₂, ebp₂, pushed, mem₂⟩ :=
    push_reaches placed₁.left (by omega)
  have placed₂ := placed₁.right
  rw [show m₁.eip + BitVec.ofNat 32 [(0x50 : UInt8)].length = m₂.eip from eip₂.symm] at placed₂
  have frame₁ : Frame env vars (left.vars ++ right.vars) m₁ (right.depth + 1) :=
    after₁.frame (frame.mono deep.2 (List.Subset.refl _)) (List.Subset.refl _)
  have frame₂ : Frame env vars right.vars m₂ right.depth := by
    refine frame₁.kept ebp₂ (by omega) (by omega) ?_ (subset_append_right ..)
    exact fun i above => mem₂ i (.inr above)
  obtain ⟨m₃, reaches₃, after₃⟩ := ofRight m₂ b placed₂.left frame₂ isRight
  have placed₃ := placed₂.right
  rw [← after₃.eip] at placed₃
  have pushed₃ : m₃.loadWord (m₃.regs .esp) = some a := by
    rw [after₃.esp, ← after₁.eax, ← pushed]
    apply loadWord_congr
    exact fun i above _ => after₃.mem i (.inr above)
  rw [← after₃.eax] at isValue
  obtain ⟨m₄, reaches₄, eip₄, eax₄, esp₄, ebp₄, mem₄⟩ := operator_reaches placed₃ pushed₃ isValue
  refine ⟨m₄, reaches₁.trans (reaches₂.trans (reaches₃.trans reaches₄)), ?_, eax₄, ?_, ?_, ?_⟩
  · rw [eip₄, after₃.eip, eip₂, after₁.eip, valueCode_bin, add_ofNat_ofNat, add_ofNat_ofNat,
      add_ofNat_ofNat]
    congr 2
    simp
    omega
  · rw [esp₄, after₃.esp, esp₂, after₁.esp, BitVec.sub_add_cancel]
  · rw [ebp₄, after₃.ebp, ebp₂, after₁.ebp]
  · intro i outside
    change i + 4 * max left.depth (right.depth + 1) < _ ∨ _ at outside
    rw [mem₄, after₃.mem i (by omega), mem₂ i (by omega), after₁.mem i (by omega)]

theorem land_eval {v : BitVec 32} (value : (Expr.land left right).eval vars = some v) :
    ∃ a, left.eval vars = some a ∧
      ((a = 0 ∧ v = 0) ∨ (a ≠ 0 ∧ ∃ b, right.eval vars = some b ∧ v = truth (decide (b ≠ 0)))) := by
  obtain ⟨a, isLeft, value⟩ := Option.bind_eq_some_iff.mp value
  refine ⟨a, isLeft, ?_⟩
  by_cases zero : a = 0
  · rw [if_pos zero] at value
    cases value
    exact .inl ⟨zero, rfl⟩
  · rw [if_neg zero] at value
    obtain ⟨b, isRight, value⟩ := Option.bind_eq_some_iff.mp value
    cases value
    exact .inr ⟨zero, b, isRight, rfl⟩

theorem lor_eval {v : BitVec 32} (value : (Expr.lor left right).eval vars = some v) :
    ∃ a, left.eval vars = some a ∧
      ((a ≠ 0 ∧ v = 1) ∨ (a = 0 ∧ ∃ b, right.eval vars = some b ∧ v = truth (decide (b ≠ 0)))) := by
  obtain ⟨a, isLeft, value⟩ := Option.bind_eq_some_iff.mp value
  refine ⟨a, isLeft, ?_⟩
  by_cases zero : a = 0
  · rw [if_neg (not_not.mpr zero)] at value
    obtain ⟨b, isRight, value⟩ := Option.bind_eq_some_iff.mp value
    cases value
    exact .inr ⟨zero, b, isRight, rfl⟩
  · rw [if_pos zero] at value
    cases value
    exact .inl ⟨zero, rfl⟩

theorem shortCircuit_reaches {condition : Cond} {depth : Nat}
    (isCond : condOf (opcode.toNat % 16) = some condition)
    (isJump : opcode.toNat / 16 = 8) (ofRight : Computes p env vars right)
    (placed : CodeAt p.code m.eip (shortCircuit opcode (right.valueCode env) rest))
    (frame : Frame env vars right.vars m right.depth) (deep : right.depth ≤ depth) :
    (compares (m.regs .eax) 0 condition = true →
      ∃ m', Reaches p m m' ∧
        After m m' ((right.valueCode env).length + 28) (m.regs .eax) depth) ∧
    (compares (m.regs .eax) 0 condition = false → ∀ b, right.eval vars = some b →
      ∃ m', Reaches p m m' ∧
        After m m' (if compares b 0 condition then (right.valueCode env).length + 28
          else (right.valueCode env).length + 18) b depth) := by
  have split₁ : shortCircuit opcode (right.valueCode env) rest =
      (cmpBytes ++
        ([0x0F, opcode] ++ le32 (BitVec.ofNat 32 ((right.valueCode env).length + 19)))) ++
        (right.valueCode env ++ ((cmpBytes ++ ([0x0F, opcode] ++ le32 10)) ++ rest)) := by
    simp [shortCircuit]
  rw [split₁] at placed
  obtain ⟨m₁, reaches₁, regs₁, mem₁, eip₁⟩ := branch_reaches isCond isJump placed.left
  have start : After m m 0 (m.regs .eax) depth :=
    ⟨(BitVec.add_zero _).symm, rfl, rfl, rfl, fun _ _ => rfl⟩
  constructor
  · intro taken
    rw [if_pos taken] at eip₁
    refine ⟨m₁, reaches₁, start.moved regs₁ mem₁ ?_⟩
    rw [eip₁, add_ofNat_ofNat]
    congr 2
    omega
  · intro passed b isRight
    rw [if_neg (by rw [passed]; decide)] at eip₁
    have after₁ : After m m₁ 9 (m.regs .eax) depth :=
      start.moved regs₁ mem₁ (eip₁.trans (BitVec.add_zero _))
    have placed₁ := placed.right
    rw [show m.eip + BitVec.ofNat 32 (cmpBytes ++ ([0x0F, opcode] ++
      le32 (BitVec.ofNat 32 ((right.valueCode env).length + 19)))).length = m₁.eip from
        after₁.eip.symm] at placed₁
    obtain ⟨m₂, reaches₂, after₂⟩ :=
      ofRight m₁ b placed₁.left (after₁.frame frame (List.Subset.refl _)) isRight
    have placed₂ := placed₁.right.left
    rw [← after₂.eip] at placed₂
    obtain ⟨m₃, reaches₃, regs₃, mem₃, eip₃⟩ := branch_reaches isCond isJump placed₂
    rw [after₂.eax] at eip₃
    refine ⟨m₃, reaches₁.trans (reaches₂.trans reaches₃), ?_⟩
    refine (after₁.trans (after₂.weaken deep)).moved regs₃ mem₃ ?_
    rw [eip₃, after₂.eip, after₁.eip]
    cases compares b 0 condition with
    | true =>
      rw [if_pos rfl, if_pos rfl, show (10 : BitVec 32) = BitVec.ofNat 32 10 from rfl,
        add_ofNat_ofNat,
        add_ofNat_ofNat, add_ofNat_ofNat]
      congr 2
      omega
    | false =>
      rw [if_neg (by decide), if_neg (by decide), show (0 : BitVec 32) = BitVec.ofNat 32 0 from rfl,
        add_ofNat_ofNat, add_ofNat_ofNat, add_ofNat_ofNat]
      congr 2
      omega

theorem shortCircuit_rest {operand : List UInt8} {start : BitVec 32}
    (placed : CodeAt p.code start (shortCircuit opcode operand rest)) :
    CodeAt p.code (start + BitVec.ofNat 32 (operand.length + 18)) rest := by
  have split₁ : shortCircuit opcode operand rest =
      (cmpBytes ++ ([0x0F, opcode] ++ le32 (BitVec.ofNat 32 (operand.length + 19))) ++
        (operand ++ (cmpBytes ++ ([0x0F, opcode] ++ le32 10)))) ++ rest := by
    simp [shortCircuit]
  rw [split₁] at placed
  have isLength : (cmpBytes ++ ([0x0F, opcode] ++ le32 (BitVec.ofNat 32 (operand.length + 19))) ++
        (operand ++ (cmpBytes ++ ([0x0F, opcode] ++ le32 10)))).length = operand.length + 18 := by
    simp [cmpBytes]
    omega
  rw [← isLength]
  exact placed.right

theorem shortCircuit_length {operand : List UInt8} :
    (shortCircuit opcode operand rest).length = operand.length + 18 + rest.length := by
  simp [shortCircuit, cmpBytes]
  omega

theorem land_computes (ofLeft : Computes p env vars left)
    (ofRight : Computes p env vars right) : Computes p env vars (.land left right) := by
  intro m v placed frame isValue
  rw [valueCode_land] at placed
  obtain ⟨a, isLeft, value⟩ := land_eval isValue
  have deep : left.depth ≤ max left.depth right.depth ∧
      right.depth ≤ max left.depth right.depth := by
    omega
  obtain ⟨m₁, reaches₁, after₁⟩ := ofLeft m a placed.left
    (frame.mono deep.1 (subset_append_left ..)) isLeft
  have placed₁ := placed.right
  rw [← after₁.eip] at placed₁
  have frame₁ : Frame env vars right.vars m₁ right.depth :=
    after₁.frame (frame.mono deep.2 (List.Subset.refl _)) (subset_append_right ..)
  have isCond : condOf ((0x84 : UInt8).toNat % 16) = some .e := rfl
  obtain ⟨taken, passed⟩ := shortCircuit_reaches isCond rfl ofRight placed₁ frame₁ deep.2
  have length : ((Expr.land left right).valueCode env).length =
      (left.valueCode env).length + ((right.valueCode env).length + 28) := by
    rw [valueCode_land, length_append, shortCircuit_length]
    rfl
  rw [length]
  rw [after₁.eax] at taken passed
  rcases value with ⟨rfl, rfl⟩ | ⟨nonzero, b, isRight, rfl⟩
  · -- The left operand decides: its zero is the value.
    obtain ⟨m₂, reaches₂, after₂⟩ := taken rfl
    exact ⟨m₂, reaches₁.trans reaches₂, (after₁.weaken deep.1).trans after₂⟩
  · obtain ⟨m₂, reaches₂, after₂⟩ := passed (decide_eq_false nonzero) b isRight
    have reached := reaches₁.trans reaches₂
    by_cases zero : b = 0
    · -- The right operand jumps with its zero in EAX.
      subst zero
      exact ⟨m₂, reached, (after₁.weaken deep.1).trans after₂⟩
    · rw [if_neg (by simpa [compares] using zero)] at after₂
      have placed₂ := shortCircuit_rest placed₁
      rw [← after₂.eip] at placed₂
      have reaches₃ := mov_reaches placed₂.left
      have reaches₄ := jmp_reaches (m := { m₂ with
        eip := m₂.eip + 5, regs := update m₂.regs .eax 1 }) placed₂.right
      refine ⟨_, reached.trans (reaches₃.trans reaches₄), (after₁.weaken deep.1).trans ?_⟩
      refine ⟨?_, ?_, after₂.esp, after₂.ebp, after₂.mem⟩
      · change m₂.eip + BitVec.ofNat 32 5 + BitVec.ofNat 32 5 + BitVec.ofNat 32 0 = _
        rw [after₂.eip, add_ofNat_ofNat, add_ofNat_ofNat, add_ofNat_ofNat]
      · rw [truth, if_pos (by simpa using zero)]
        rfl

theorem lor_computes (ofLeft : Computes p env vars left)
    (ofRight : Computes p env vars right) : Computes p env vars (.lor left right) := by
  intro m v placed frame isValue
  rw [valueCode_lor] at placed
  obtain ⟨a, isLeft, value⟩ := lor_eval isValue
  have deep : left.depth ≤ max left.depth right.depth ∧
      right.depth ≤ max left.depth right.depth := by
    omega
  obtain ⟨m₁, reaches₁, after₁⟩ := ofLeft m a placed.left
    (frame.mono deep.1 (subset_append_left ..)) isLeft
  have placed₁ := placed.right
  rw [← after₁.eip] at placed₁
  have frame₁ : Frame env vars right.vars m₁ right.depth :=
    after₁.frame (frame.mono deep.2 (List.Subset.refl _)) (subset_append_right ..)
  have isCond : condOf ((0x85 : UInt8).toNat % 16) = some .ne := rfl
  obtain ⟨taken, passed⟩ := shortCircuit_reaches isCond rfl ofRight placed₁ frame₁ deep.2
  have length : ((Expr.lor left right).valueCode env).length =
      (left.valueCode env).length + ((right.valueCode env).length + 33) := by
    rw [valueCode_lor, length_append, shortCircuit_length]
    rfl
  rw [length]
  rw [after₁.eax] at taken passed
  have rest := shortCircuit_rest placed₁
  have ends := rest.right.right
  -- Both jumps go to the last instruction.
  have finish : ∀ m₂ w, Reaches p m₁ m₂ →
      After m₁ m₂ ((right.valueCode env).length + 28) w (max left.depth right.depth) →
      ∃ m', Reaches p m m' ∧ After m m' ((left.valueCode env).length +
        ((right.valueCode env).length + 33)) 1 (max left.depth right.depth) := by
    intro m₂ w reaches₂ after₂
    have placed₂ : CodeAt p.code m₂.eip (0xB8 :: le32 1) := by
      rw [after₂.eip]
      rw [add_ofNat_ofNat, add_ofNat_ofNat] at ends
      exact ends
    refine ⟨_, reaches₁.trans (reaches₂.trans (mov_reaches placed₂)),
      (after₁.weaken deep.1).trans ?_⟩
    refine ⟨?_, rfl, after₂.esp, after₂.ebp, after₂.mem⟩
    change m₂.eip + BitVec.ofNat 32 5 = _
    rw [after₂.eip, add_ofNat_ofNat]
  rcases value with ⟨nonzero, rfl⟩ | ⟨rfl, b, isRight, rfl⟩
  · obtain ⟨m₂, reaches₂, after₂⟩ := taken (decide_eq_true nonzero)
    exact finish m₂ a reaches₂ after₂
  · obtain ⟨m₂, reaches₂, after₂⟩ := passed rfl b isRight
    by_cases zero : b = 0
    · -- No jump was taken: `mov eax, 0` and over the last instruction.
      subst zero
      have placed₂ := rest
      rw [show (right.valueCode env).length + 18 = if compares 0 0 Cond.ne then
        (right.valueCode env).length + 28 else (right.valueCode env).length + 18 from rfl,
        ← after₂.eip] at placed₂
      have reaches₃ := mov_reaches placed₂.left
      have reaches₄ := jmp_reaches (m := { m₂ with
        eip := m₂.eip + 5, regs := update m₂.regs .eax 0 }) placed₂.right.left
      refine ⟨_, reaches₁.trans (reaches₂.trans (reaches₃.trans reaches₄)),
        (after₁.weaken deep.1).trans ?_⟩
      refine ⟨?_, rfl, after₂.esp, after₂.ebp, after₂.mem⟩
      change m₂.eip + BitVec.ofNat 32 5 + BitVec.ofNat 32 5 + BitVec.ofNat 32 5 = _
      rw [after₂.eip, add_ofNat_ofNat, add_ofNat_ofNat, add_ofNat_ofNat]
      rfl
    · rw [if_pos (by simpa [compares] using zero)] at after₂
      rw [truth, if_pos (by simpa using zero)]
      exact finish m₂ b reaches₂ after₂

/-- The code of every expression computes it, by induction over the tree. -/
theorem value_reaches (e : Expr) : Computes p env vars e := by
  induction e with
  | num value => exact num_computes value
  | var name => exact var_computes name
  | paren e ih =>
    intro m v placed frame isValue
    rw [valueCode_paren] at placed ⊢
    exact ih m v placed frame isValue
  | un op e ih => exact un_computes ih
  | bin op left right ihLeft ihRight => exact bin_computes ihLeft ihRight
  | land left right ihLeft ihRight => exact land_computes ihLeft ihRight
  | lor left right ihLeft ihRight => exact lor_computes ihLeft ihRight

end M4KK1.Pcc
