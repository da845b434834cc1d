import M4KK1.Lib.Numeral
import M4KK1.Lib.Word32
import M4KK1.Yafs.Namespace

/-!
# Number parsing of the kernel

`lib/kstrtox.c`. A result is the word stored; the top bit of the digit count tells of an overflow.
-/

namespace M4KK1.Kernel

open Lib Yafs

def eRange : Int := 0x4D000018

def eInval : Int := 0x4D00000D

def kstrtoxOverflow : Nat := 2147483648

variable (s : CString)

/-- `s[i]`, the NUL behind the last byte included. -/
def charAt (i : Nat) : UInt8 := s.getD i 0

variable (c : UInt8)

def m4kIsdigit : Bool := 0x30 ≤ c ∧ c ≤ 0x39

def m4kTolower : UInt8 := if 0x41 ≤ c ∧ c ≤ 0x5A then c - 0x41 + 0x61 else c

def m4kIsxdigit : Bool :=
  m4kIsdigit c ∨ (0x61 ≤ m4kTolower c ∧ m4kTolower c ≤ 0x66)

/-- `mkrn_fixup_radix`: the string behind the prefix, and the base. -/
def fixupRadix (base : Nat) : CString × Nat :=
  let base :=
    if base = 0 then
      if charAt s 0 = 0x30 then
        if m4kTolower (charAt s 1) = 0x78 ∧ m4kIsxdigit (charAt s 2) then 16 else 8
      else 10
    else base
  if base = 16 ∧ charAt s 0 = 0x30 ∧ m4kTolower (charAt s 1) = 0x78 then (s.drop 2, base)
  else (s, base)

/-- `val` in the loop of `mkrn_parse_integer`; `none` is the first `break`. -/
def digitVal : Option Nat :=
  let lc := m4kTolower c
  if 0x30 ≤ c ∧ c ≤ 0x39 then some (c.toNat - 0x30)
  else if 0x61 ≤ lc ∧ lc ≤ 0x66 then some (lc.toNat - 0x61 + 10)
  else none

/-- The loop of `mkrn_parse_integer`: `res`, `rv` and `overflow` behind it. -/
def parseLoop (base maxChars : Nat) : CString → Nat → Nat → Nat × Nat × Bool
  | [], rv, res => (res, rv, false)
  | c :: rest, rv, res =>
    if rv < maxChars then
      match digitVal c with
      | none => (res, rv, false)
      | some val =>
        if val ≥ base then (res, rv, false)
        else if res &&& 0xF800000000000000 ≠ 0 then (0xFFFFFFFFFFFFFFFF, rv, true)
        else parseLoop base maxChars rest (rv + 1) ((res * base + val) % 18446744073709551616)
    else (res, rv, false)

/-- `mkrn_parse_integer`: `*p` and the value returned. -/
def parseInteger (base maxChars : Nat) : Nat × Nat :=
  let (res, rv, overflow) := parseLoop base maxChars s 0 0
  (res, rv ||| if overflow then kstrtoxOverflow else 0)

/-- `mkrn_kstrtoull_impl`: the value returned and `*res`. -/
def kstrtoullImpl (base res : Nat) : Int × Nat :=
  let (s, base) := fixupRadix s base
  let (v, rv) := parseInteger s base 4294967295
  if rv &&& kstrtoxOverflow ≠ 0 then (-eRange, res)
  else if rv = 0 then (-eInval, res)
  else
    let s := s.drop (rv &&& 2147483647)
    let s := if charAt s 0 = 0x0A then s.drop 1 else s
    if s ≠ [] then (-eInval, res) else (0, v)

def kstrtoull (base res : Nat) : Int × Nat :=
  if charAt s 0 = 0x2B then kstrtoullImpl (s.drop 1) base res else kstrtoullImpl s base res

/-- `mkrn_kstrtoll`; `tmp` starts as whatever is on the stack. -/
def kstrtoll (base tmp : Nat) (res : Int) : Int × Int :=
  if charAt s 0 = 0x2D then
    let (rv, tmp) := kstrtoullImpl (s.drop 1) base tmp
    if rv < 0 then (rv, res)
    else if signed64 (-tmp) > 0 then (-eRange, res)
    else (0, -signed64 tmp)
  else
    let (rv, tmp) := kstrtoull s base tmp
    if rv < 0 then (rv, res)
    else if tmp > 9223372036854775807 then (-eRange, res)
    else (0, signed64 tmp)

/-- `mkrn_kstrtouint`: the value returned and `*res`. -/
def kstrtouint (base tmp res : Nat) : Int × Nat :=
  let (rv, tmp) := kstrtoullImpl s base tmp
  if rv < 0 then (rv, res)
  else if tmp ≠ tmp % 4294967296 then (-eRange, res)
  else (0, tmp % 4294967296)

def kstrtoint (base : Nat) (stack : Nat) (tmp res : Int) : Int × Int :=
  let (rv, tmp) := kstrtoll s base stack tmp
  if rv < 0 then (rv, res)
  else if tmp ≠ signed32 tmp then (-eRange, res)
  else (0, signed32 tmp)

end M4KK1.Kernel
