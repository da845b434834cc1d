import M4KK1.Kernel.Kstrtox

/-!
# Which strings are numbers

The functions of `kstrtox.c` give a numeral's value where the type and the counters hold it.
-/

namespace M4KK1.Kernel

open Lib Yafs List

def IsMark (x : UInt8) : Prop := x = 0x78 ∨ x = 0x58

/-- The text before the digits and their radix, for the base asked for; base 0 leaves it to the
text. -/
inductive Radix : Nat → CString → CString → Nat → Prop
  | given {base digits} : base ≠ 0 → Radix base [] digits base
  | marked {base x digits} : base = 0 ∨ base = 16 → IsMark x → Radix base [0x30, x] digits 16
  | octal {digits} : digits.head? = some 0x30 → Radix 0 [] digits 8
  | decimal {digits} : digits.head? ≠ some 0x30 → Radix 0 [] digits 10

/-- The string starts with a numeral, and this is behind it. -/
def Reads (base : Nat) (s : CString) (radix : Nat) (digits rest : CString) : Prop :=
  ∃ lead, s = lead ++ (digits ++ rest) ∧ Radix base lead digits radix ∧ digits ≠ [] ∧
    ∀ c ∈ digits, isDigitIn radix c = true

/-- The string is a numeral, with one newline behind it at most. -/
def Denotes (base : Nat) (s : CString) (v : Nat) : Prop :=
  ∃ radix digits rest, Reads base s radix digits rest ∧ (rest = [] ∨ rest = [0x0A]) ∧
    v = numeralValue radix digits

/-- The string starts with more digits than the accumulator or the digit count can take. -/
def Overlong (base : Nat) (s : CString) : Prop :=
  ∃ radix digits rest, Reads base s radix digits rest ∧
    (PassesFrom radix (2 ^ 59) 0 digits ∨ 2 ^ 31 ≤ digits.length)

/-- The same with a sign. -/
inductive DenotesInt (base : Nat) : CString → Int → Prop
  | unsigned {s v} : Denotes base s v → DenotesInt base s v
  | plus {s v} : Denotes base s v → DenotesInt base (0x2B :: s) v
  | minus {s v} : Denotes base s v → DenotesInt base (0x2D :: s) (-v)

inductive OverlongInt (base : Nat) : CString → Prop
  | unsigned {s} : Overlong base s → OverlongInt base s
  | plus {s} : Overlong base s → OverlongInt base (0x2B :: s)
  | minus {s} : Overlong base s → OverlongInt base (0x2D :: s)

/-- What must be returned and left behind the result pointer, which held `old`. -/
structure Meets {Value : Type} (denotes fits : Value → Prop) (overlong : Prop) (old : Value)
    (out : Int × Value) : Prop where
  success : ∀ v, denotes v → fits v → ¬ overlong → out = (0, v)
  range : (overlong ∨ ∃ v, denotes v ∧ ¬ fits v) → out = (-eRange, old)
  invalid : ¬ overlong → (¬ ∃ v, denotes v) → out = (-eInval, old)

theorem digitVal_eq (c : UInt8) : digitVal c = digitValue c := by
  have every : ∀ n < 256, digitVal (UInt8.ofNat n) = digitValue (UInt8.ofNat n) := by
    decide +kernel
  rw [← UInt8.ofNat_toNat (x := c)]
  exact every c.toNat c.toNat_lt

theorem digitValue_lt {c : UInt8} {val : Nat} (digit : digitValue c = some val) : val < 16 := by
  have every : ∀ n < 256, (digitValue (UInt8.ofNat n)).all (· < 16) = true := by decide +kernel
  have this := every c.toNat c.toNat_lt
  rw [UInt8.ofNat_toNat, digit] at this
  simpa using this

theorem upperBits_iff {res : Nat} (typed : res < 2 ^ 64) :
    res &&& 0xF800000000000000 ≠ 0 ↔ 2 ^ 59 ≤ res := by
  have masked : res &&& 0xF800000000000000 = (res >>> 59) <<< 59 := by
    have mask : 0xF800000000000000 = (2 ^ 5 - 1) <<< 59 := by decide
    rw [mask]
    apply Nat.eq_of_testBit_eq
    intro i
    rw [Nat.testBit_and, Nat.testBit_shiftLeft, Nat.testBit_shiftLeft, Nat.testBit_shiftRight,
      Nat.testBit_two_pow_sub_one]
    by_cases low : 59 ≤ i
    · rw [Nat.add_sub_cancel' low]
      by_cases high : i - 59 < 5
      · simp [low, high]
      · have above : res.testBit i = false := Nat.testBit_lt_two_pow
          (Nat.lt_of_lt_of_le typed (Nat.pow_le_pow_right (by decide) (by omega)))
        simp [above]
    · simp [low]
  rw [masked, Nat.shiftRight_eq_div_pow, Nat.shiftLeft_eq]
  omega

variable {base maxChars : Nat} {c : UInt8} {rest : CString} {rv res : Nat}

theorem parseLoop_other (other : isDigitIn base c ≠ true) :
    parseLoop base maxChars (c :: rest) rv res = (res, rv, false) := by
  unfold isDigitIn at other
  rw [parseLoop, digitVal_eq]
  split
  · cases value : digitValue c with
    | none => rfl
    | some val =>
      have outside : val ≥ base := by simpa [value] using other
      simp only [if_pos outside]
  · rfl

theorem parseLoop_full (digit : isDigitIn base c = true) (counts : rv < maxChars)
    (typed : res < 2 ^ 64) (full : 2 ^ 59 ≤ res) :
    parseLoop base maxChars (c :: rest) rv res = (0xFFFFFFFFFFFFFFFF, rv, true) := by
  unfold isDigitIn at digit
  rw [parseLoop, digitVal_eq, if_pos counts]
  cases value : digitValue c with
  | none => simp [value] at digit
  | some val =>
    have inBase : ¬ val ≥ base := by simpa [value] using digit
    simp only [if_neg inBase]
    rw [if_pos ((upperBits_iff typed).mpr full)]

theorem parseLoop_digit (small : base ≤ 16) (digit : isDigitIn base c = true)
    (counts : rv < maxChars) (takes : res < 2 ^ 59) :
    res * base + (digitValue c).getD 0 < 2 ^ 64 ∧ parseLoop base maxChars (c :: rest) rv res =
        parseLoop base maxChars rest (rv + 1) (res * base + (digitValue c).getD 0) := by
  unfold isDigitIn at digit
  rw [parseLoop, digitVal_eq, if_pos counts]
  cases value : digitValue c with
  | none => simp [value] at digit
  | some val =>
    have inBase : ¬ val ≥ base := by simpa [value] using digit
    have next : res * base + val < 2 ^ 64 := by
      have := digitValue_lt value
      have : res * base ≤ res * 16 := Nat.mul_le_mul_left res small
      omega
    refine ⟨next, ?_⟩
    simp only [if_neg inBase, Option.getD_some]
    rw [if_neg (mt (upperBits_iff (by omega)).mp (by omega))]
    exact congrArg _ (Nat.mod_eq_of_lt next)

theorem parseLoop_spec (small : base ≤ 16) (s : CString) (room : rv ≤ maxChars)
    (typed : res < 2 ^ 64) :
    ((parseLoop base maxChars s rv res).2.2 = true ∧
        PassesFrom base (2 ^ 59) res (s.takeWhile (isDigitIn base))) ∨
      (¬ PassesFrom base (2 ^ 59) res (s.takeWhile (isDigitIn base)) ∧
        parseLoop base maxChars s rv res = (valueFrom base res (s.takeWhile (isDigitIn base)),
          rv + (s.takeWhile (isDigitIn base)).length, false) ∧
        rv + (s.takeWhile (isDigitIn base)).length ≤ maxChars) ∨
      ((parseLoop base maxChars s rv res).2 = (maxChars, false) ∧
        maxChars < rv + (s.takeWhile (isDigitIn base)).length) := by
  induction s generalizing rv res with
  | nil => exact .inr (.inl ⟨passesFrom_nil _ _ _, rfl, room⟩)
  | cons c rest ih =>
    by_cases digit : isDigitIn base c = true
    · rw [takeWhile_cons_of_pos digit, passesFrom_cons, valueFrom_cons, length_cons,
        show ∀ length, rv + (length + 1) = rv + 1 + length by omega]
      by_cases counts : rv < maxChars
      · by_cases full : 2 ^ 59 ≤ res
        · rw [parseLoop_full digit counts typed full]
          exact .inl ⟨rfl, .inl full⟩
        · obtain ⟨next, step⟩ := @parseLoop_digit base maxChars c rest rv res small digit counts
            (Nat.not_le.mp full)
          rw [step]
          rcases @ih (rv + 1) _ counts next with
            ⟨flag, passes⟩ | ⟨stays, ends, fits⟩ | ⟨ends, long⟩
          · exact .inl ⟨flag, .inr passes⟩
          · exact .inr (.inl ⟨not_or.mpr ⟨full, stays⟩, ends, fits⟩)
          · exact .inr (.inr ⟨ends, long⟩)
      · rw [parseLoop, if_neg counts]
        exact .inr (.inr ⟨by rw [Nat.le_antisymm room (Nat.not_lt.mp counts)], by omega⟩)
    · rw [parseLoop_other digit, takeWhile_cons_of_neg digit]
      exact .inr (.inl ⟨passesFrom_nil _ _ _, rfl, room⟩)

/-- The digits `mkrn_parse_integer` is given, behind the prefix. -/
def leadingDigits (base : Nat) (s : CString) : CString :=
  (fixupRadix s base).1.takeWhile (isDigitIn (fixupRadix s base).2)

def behindDigits (base : Nat) (s : CString) : CString :=
  (fixupRadix s base).1.dropWhile (isDigitIn (fixupRadix s base).2)

theorem tolower_x (x : UInt8) : m4kTolower x = 0x78 ↔ x = 0x78 ∨ x = 0x58 := by
  have every : ∀ n < 256, m4kTolower (UInt8.ofNat n) = 0x78 ↔
      UInt8.ofNat n = 0x78 ∨ UInt8.ofNat n = 0x58 := by decide +kernel
  rw [← UInt8.ofNat_toNat (x := x)]
  exact every x.toNat x.toNat_lt

theorem isxdigit_iff (x : UInt8) : m4kIsxdigit x = isDigitIn 16 x := by
  have every : ∀ n < 256, m4kIsxdigit (UInt8.ofNat n) = isDigitIn 16 (UInt8.ofNat n) := by
    decide +kernel
  rw [← UInt8.ofNat_toNat (x := x)]
  exact every x.toNat x.toNat_lt

variable {s digits : CString}

theorem marked_iff : (charAt s 0 = 0x30 ∧ m4kTolower (charAt s 1) = 0x78) ↔
      ∃ x behind, s = 0x30 :: x :: behind ∧ IsMark x := by
  rw [tolower_x]
  unfold charAt IsMark
  constructor
  · rintro ⟨zero, mark⟩
    match s, zero, mark with
    | [], zero, _ => simp at zero
    | [_], _, mark => simp at mark
    | first :: x :: behind, zero, mark =>
      obtain rfl : first = 0x30 := zero
      exact ⟨x, behind, rfl, mark⟩
  · rintro ⟨x, behind, rfl, mark⟩
    exact ⟨rfl, mark⟩

theorem IsMark.not_digit {x : UInt8} (mark : IsMark x) (base : Nat) : isDigitIn base x ≠ true := by
  rcases mark with rfl | rfl <;> simp [isDigitIn, digitValue]

theorem IsMark.digits_eq {x : UInt8} (mark : IsMark x) {radix : Nat} {rest behind : CString}
    (digit : ∀ c ∈ digits, isDigitIn radix c = true) (some_ : digits ≠ [])
    (whole : digits ++ rest = 0x30 :: x :: behind) : digits = [0x30] ∧ rest = x :: behind := by
  match digits, some_ with
  | [first], _ =>
    obtain ⟨rfl, rfl⟩ := List.cons.inj whole
    exact ⟨rfl, rfl⟩
  | first :: second :: more, _ =>
    obtain ⟨-, tail⟩ := List.cons.inj whole
    obtain ⟨rfl, -⟩ := List.cons.inj tail
    exact absurd (digit second (by simp)) (mark.not_digit radix)

theorem fixupRadix_cases (base : Nat) (s : CString) :
    (∃ x behind, s = 0x30 :: x :: behind ∧ IsMark x ∧ fixupRadix s base = (behind, 16) ∧
        (base = 16 ∨ base = 0 ∧ m4kIsxdigit (charAt behind 0) = true)) ∨
      (base ≠ 0 ∧ fixupRadix s base = (s, base) ∧
        ¬ (base = 16 ∧ ∃ x behind, s = 0x30 :: x :: behind ∧ IsMark x)) ∨
      (base = 0 ∧ fixupRadix s base = (s, 8) ∧ s.head? = some 0x30 ∧
        ¬ ∃ x behind, s = 0x30 :: x :: behind ∧ IsMark x ∧ m4kIsxdigit (charAt behind 0) = true) ∨
      (base = 0 ∧ fixupRadix s base = (s, 10) ∧ s.head? ≠ some 0x30) := by
  by_cases marked : charAt s 0 = 0x30 ∧ m4kTolower (charAt s 1) = 0x78
  · obtain ⟨zero, mark⟩ := marked
    obtain ⟨x, behind, rfl, isMark⟩ := marked_iff.mp ⟨zero, mark⟩
    have third : charAt (0x30 :: x :: behind) 2 = charAt behind 0 := rfl
    by_cases free : base = 0
    · subst free
      by_cases hex : m4kIsxdigit (charAt behind 0) = true
      · refine .inl ⟨x, behind, rfl, isMark, ?_, .inr ⟨rfl, hex⟩⟩
        simp [fixupRadix, zero, mark, third, hex]
      · refine .inr (.inr (.inl ⟨rfl, ?_, rfl, ?_⟩))
        · simp [fixupRadix, zero, mark, third, hex]
        · rintro ⟨y, other, same, -, hexToo⟩
          obtain ⟨-, rfl⟩ := List.cons.inj (List.cons.inj same).2
          exact hex hexToo
    · by_cases sixteen : base = 16
      · refine .inl ⟨x, behind, rfl, isMark, ?_, .inl sixteen⟩
        simp [fixupRadix, zero, mark, sixteen]
      · refine .inr (.inl ⟨free, ?_, fun both => sixteen both.1⟩)
        simp [fixupRadix, free, sixteen]
  · have unmarked : ¬ ∃ x behind, s = 0x30 :: x :: behind ∧ IsMark x := mt marked_iff.mpr marked
    by_cases free : base = 0
    · subst free
      by_cases zero : charAt s 0 = 0x30
      · have noMark : m4kTolower (charAt s 1) ≠ 0x78 := fun mark => marked ⟨zero, mark⟩
        refine .inr (.inr (.inl ⟨rfl, ?_, ?_, ?_⟩))
        · simp [fixupRadix, zero, noMark]
        · cases s with
          | nil => exact absurd zero (by decide)
          | cons first behind => exact congrArg some zero
        · rintro ⟨x, behind, whole, mark, -⟩
          exact unmarked ⟨x, behind, whole, mark⟩
      · refine .inr (.inr (.inr ⟨rfl, ?_, ?_⟩))
        · simp [fixupRadix, zero]
        · intro head
          refine zero ?_
          cases s with
          | nil => cases head
          | cons first behind => exact Option.some.inj head
    · refine .inr (.inl ⟨free, ?_, fun both => unmarked both.2⟩)
      simp only [fixupRadix, if_neg free]
      rw [if_neg fun all => marked all.2]

theorem fixupRadix_base (allowed : base = 0 ∨ 2 ≤ base ∧ base ≤ 16) (s : CString) :
    2 ≤ (fixupRadix s base).2 ∧ (fixupRadix s base).2 ≤ 16 := by
  rcases fixupRadix_cases base s with
    ⟨x, behind, -, -, fixed, -⟩ | ⟨given, fixed, -⟩ | ⟨-, fixed, -⟩ | ⟨-, fixed, -⟩
  all_goals
    rw [fixed]
    simp only
    omega

theorem leadingDigits_reads (some_ : leadingDigits base s ≠ []) :
    Reads base s (fixupRadix s base).2 (leadingDigits base s) (behindDigits base s) := by
  have digit : ∀ c ∈ leadingDigits base s, isDigitIn (fixupRadix s base).2 c = true :=
    fun c member => mem_takeWhile_imp member
  have whole : leadingDigits base s ++ behindDigits base s = (fixupRadix s base).1 :=
    takeWhile_append_dropWhile
  have head : (leadingDigits base s).head? = (fixupRadix s base).1.head? := by
    rw [← whole]
    cases digits : leadingDigits base s with
    | nil => exact absurd digits some_
    | cons first more => rfl
  rcases fixupRadix_cases base s with
    ⟨x, behind, text, mark, fixed, allowed⟩ | ⟨given, fixed, -⟩ | ⟨free, fixed, zero, -⟩ |
      ⟨free, fixed, zero⟩
  · rw [fixed] at whole
    refine ⟨[0x30, x], by rw [whole, text]; rfl, ?_, some_, digit⟩
    rw [fixed]
    refine .marked ?_ mark
    rcases allowed with sixteen | ⟨free, -⟩
    · exact .inr sixteen
    · exact .inl free
  · refine ⟨[], by rw [whole, fixed]; rfl, ?_, some_, digit⟩
    rw [fixed]
    exact .given given
  · refine ⟨[], by rw [whole, fixed]; rfl, ?_, some_, digit⟩
    rw [fixed] at head ⊢
    subst free
    exact .octal (head.trans zero)
  · refine ⟨[], by rw [whole, fixed]; rfl, ?_, some_, digit⟩
    rw [fixed] at head ⊢
    subst free
    exact .decimal (by rw [head]; exact zero)

theorem Reads.fixed {rest : CString} {radix : Nat} (reads : Reads base s radix digits rest) :
    fixupRadix s base = (digits ++ rest, radix) ∨
      digits = [0x30] ∧ ∃ x behind, rest = x :: behind ∧ IsMark x := by
  obtain ⟨lead, rfl, how, some_, digit⟩ := reads
  obtain ⟨first, more, digits_eq⟩ := exists_cons_of_ne_nil some_
  have cases_ := fixupRadix_cases base (lead ++ (digits ++ rest))
  cases how with
  | given given =>
    rcases cases_ with ⟨x, behind, text, mark, -⟩ | ⟨-, fixed, -⟩ | ⟨free, -⟩ | ⟨free, -⟩
    · obtain ⟨zero, behindEq⟩ := mark.digits_eq digit some_ text
      exact .inr ⟨zero, x, behind, behindEq, mark⟩
    · exact .inl fixed
    · exact absurd free given
    · exact absurd free given
  | @marked _ x _ allowed mark =>
    rcases cases_ with ⟨y, behind, text, -, fixed, -⟩ | ⟨given, -, unmarked⟩ | ⟨-, -, -, unmarked⟩ |
      ⟨-, -, other⟩
    · obtain ⟨-, rfl⟩ := List.cons.inj (List.cons.inj text).2
      exact .inl fixed
    · exact absurd ⟨allowed.resolve_left given, x, digits ++ rest, rfl, mark⟩ unmarked
    · refine absurd ⟨x, digits ++ rest, rfl, mark, ?_⟩ unmarked
      rw [isxdigit_iff, digits_eq]
      exact digit first (by simp [digits_eq])
    · exact absurd rfl other
  | octal zero =>
    rcases cases_ with ⟨x, behind, text, mark, -⟩ | ⟨given, -⟩ | ⟨-, fixed, -⟩ | ⟨-, -, other⟩
    · obtain ⟨only, behindEq⟩ := mark.digits_eq digit some_ text
      exact .inr ⟨only, x, behind, behindEq, mark⟩
    · exact absurd rfl given
    · exact .inl fixed
    · rw [digits_eq] at zero other
      exact absurd zero other
  | decimal nonzero =>
    rcases cases_ with ⟨x, behind, text, -⟩ | ⟨given, -⟩ | ⟨-, -, zero, -⟩ | ⟨-, fixed, -⟩
    · rw [digits_eq] at nonzero text
      obtain ⟨rfl, -⟩ := List.cons.inj text
      exact absurd rfl nonzero
    · exact absurd rfl given
    · rw [digits_eq] at nonzero zero
      exact absurd zero nonzero
    · exact .inl fixed

theorem overlong_iff :
    Overlong base s ↔ PassesFrom (fixupRadix s base).2 (2 ^ 59) 0 (leadingDigits base s) ∨
      2 ^ 31 ≤ (leadingDigits base s).length := by
  constructor
  · rintro ⟨radix, digits, rest, reads, long⟩
    have digit := reads.choose_spec.2.2.2
    rcases reads.fixed with fixed | ⟨rfl, -⟩
    · have whole : leadingDigits base s = digits ++ rest.takeWhile (isDigitIn radix) := by
        rw [leadingDigits, fixed]
        exact takeWhile_append_of_pos digit
      rw [whole, fixed]
      rcases long with passes | many
      · exact .inl (passes.append _)
      · exact .inr (Nat.le_trans many (by simp))
    · rcases long with passes | many
      · obtain ⟨front, c, behind, whole, reached⟩ := passes
        have short : front = [] := by
          have := congrArg List.length whole
          simp only [length_append, length_cons, length_nil] at this
          exact length_eq_zero_iff.mp (by omega)
        subst short
        rw [valueFrom_nil] at reached
        exact absurd reached (by decide)
      · exact absurd many (by decide)
  · intro long
    have some_ : leadingDigits base s ≠ [] := by
      intro empty
      rw [empty] at long
      rcases long with passes | many
      · exact passesFrom_nil _ _ _ passes
      · exact absurd many (by decide)
    exact ⟨_, _, _, leadingDigits_reads some_, long⟩

theorem denotes_iff {v : Nat} : Denotes base s v ↔ leadingDigits base s ≠ [] ∧
      (behindDigits base s = [] ∨ behindDigits base s = [0x0A]) ∧
      v = numeralValue (fixupRadix s base).2 (leadingDigits base s) := by
  constructor
  · rintro ⟨radix, digits, rest, reads, ends, rfl⟩
    rcases reads.fixed with fixed | ⟨-, x, behind, text, mark⟩
    · obtain ⟨-, -, -, some_, digit⟩ := reads
      have stops : rest.takeWhile (isDigitIn radix) = [] ∧
          rest.dropWhile (isDigitIn radix) = rest := by
        rcases ends with rfl | rfl
        · exact ⟨rfl, rfl⟩
        · have newline : ¬ isDigitIn radix 0x0A = true := by simp [isDigitIn, digitValue]
          exact ⟨takeWhile_cons_of_neg newline, dropWhile_cons_of_neg newline⟩
      have leading : leadingDigits base s = digits := by
        rw [leadingDigits, fixed, takeWhile_append_of_pos digit, stops.1, append_nil]
      have behind : behindDigits base s = rest := by
        rw [behindDigits, fixed, dropWhile_append_of_pos digit, stops.2]
      rw [leading, behind, fixed]
      exact ⟨some_, ends, rfl⟩
    · rw [text] at ends
      rcases ends with empty | newline
      · cases empty
      · obtain ⟨rfl, -⟩ := List.cons.inj newline
        exact absurd mark (by unfold IsMark; decide)
  · rintro ⟨some_, ends, rfl⟩
    exact ⟨_, _, _, leadingDigits_reads some_, ends, rfl⟩

theorem numeralValue_lt {run : CString} (small : base ≤ 16)
    (stays : ¬ PassesFrom base (2 ^ 59) 0 run) (digit : ∀ c ∈ run, isDigitIn base c = true) :
    numeralValue base run < 2 ^ 63 := by
  rcases eq_nil_or_concat run with rfl | ⟨front, c, rfl⟩
  · exact Nat.two_pow_pos 63
  · rw [concat_eq_append] at *
    have below : valueFrom base 0 front < 2 ^ 59 :=
      Nat.not_le.mp fun reached => stays ⟨front, c, [], rfl, reached⟩
    have last : (digitValue c).getD 0 < 16 := by
      have isDigit := digit c (by simp)
      unfold isDigitIn at isDigit
      cases value : digitValue c with
      | none => simp [value] at isDigit
      | some val => exact digitValue_lt value
    rw [numeralValue, valueFrom_append, valueFrom_cons, valueFrom_nil]
    have : valueFrom base 0 front * base ≤ valueFrom base 0 front * 16 :=
      Nat.mul_le_mul_left _ small
    omega

theorem flag_set (rv : Nat) : (rv ||| kstrtoxOverflow) &&& kstrtoxOverflow ≠ 0 := by
  have bit : ((rv ||| kstrtoxOverflow) &&& kstrtoxOverflow).testBit 31 = true := by
    rw [Nat.testBit_and, Nat.testBit_or, show kstrtoxOverflow.testBit 31 = true by decide]
    simp
  intro zero
  rw [zero, Nat.zero_testBit] at bit
  cases bit

theorem flag_of_long {rv : Nat} (typed : rv < 2 ^ 32) (long : 2 ^ 31 ≤ rv) :
    rv &&& kstrtoxOverflow ≠ 0 := by
  rw [show kstrtoxOverflow = 2 ^ 31 from rfl, Nat.and_two_pow]
  have bit : rv.testBit 31 = true := by
    rw [Nat.testBit_eq_decide_div_mod_eq, decide_eq_true_iff]
    omega
  rw [bit]
  decide

theorem flag_of_short {rv : Nat} (short : rv < 2 ^ 31) : rv &&& kstrtoxOverflow = 0 := by
  rw [show kstrtoxOverflow = 2 ^ 31 from rfl, Nat.and_two_pow, Nat.testBit_lt_two_pow short]
  rfl

theorem count_of_short {rv : Nat} (short : rv < 2 ^ 31) : rv &&& 2147483647 = rv :=
  (Nat.and_two_pow_sub_one_eq_mod rv 31).trans (Nat.mod_eq_of_lt short)

theorem tail_iff (rest : CString) :
    (if charAt rest 0 = 0x0A then rest.drop 1 else rest) ≠ [] ↔ ¬ (rest = [] ∨ rest = [0x0A]) := by
  match rest with
  | [] => simp [charAt]
  | first :: more =>
    by_cases newline : first = 0x0A
    · subst newline
      simp [charAt]
    · simp [charAt, newline]

theorem kstrtoullImpl_meets (allowed : base = 0 ∨ 2 ≤ base ∧ base ≤ 16) (s : CString) (res : Nat) :
    Meets (Denotes base s) (fun _ => True) (Overlong base s) res (kstrtoullImpl s base res) := by
  have small := (fixupRadix_base allowed s).2
  have ends := parseLoop_spec small (fixupRadix s base).1 (Nat.zero_le 4294967295)
    (show 0 < 2 ^ 64 by decide)
  rw [Nat.zero_add] at ends
  change (_ ∧ PassesFrom _ _ _ (leadingDigits base s)) ∨
    (¬ PassesFrom _ _ _ (leadingDigits base s) ∧
    _ = (numeralValue _ (leadingDigits base s), (leadingDigits base s).length, false) ∧
      (leadingDigits base s).length ≤ _) ∨ (_ ∧ _ < (leadingDigits base s).length) at ends
  have refused : ∀ {v rv : Nat} {overflow : Bool},
      parseLoop (fixupRadix s base).2 4294967295 (fixupRadix s base).1 0 0 = (v, rv, overflow) →
      (rv ||| if overflow then kstrtoxOverflow else 0) &&& kstrtoxOverflow ≠ 0 →
      Overlong base s →
      Meets (Denotes base s) (fun _ => True) (Overlong base s) res (kstrtoullImpl s base res) := by
    intro v rv overflow parsed flag long
    have out : kstrtoullImpl s base res = (-eRange, res) := by
      simp only [kstrtoullImpl, parseInteger, parsed]
      rw [if_pos flag]
    exact ⟨fun _ _ _ short => absurd long short, fun _ => out, fun short => absurd long short⟩
  rcases ends with ⟨overflow, passes⟩ | ⟨stays, parsed, typed⟩ | ⟨full, many⟩
  · generalize parsed : parseLoop _ _ _ _ _ = out at overflow
    obtain ⟨v, rv, flag⟩ := out
    obtain rfl : flag = true := overflow
    exact refused parsed (flag_set rv) (overlong_iff.mpr (.inl passes))
  · by_cases many : 2 ^ 31 ≤ (leadingDigits base s).length
    · refine refused parsed ?_ (overlong_iff.mpr (.inr many))
      rw [if_neg (by decide), Nat.or_zero]
      exact flag_of_long (by omega) many
    · have short : ¬ Overlong base s := by
        rw [overlong_iff]
        exact not_or.mpr ⟨stays, many⟩
      have whole : (fixupRadix s base).1 = leadingDigits base s ++ behindDigits base s :=
        takeWhile_append_dropWhile.symm
      have out : kstrtoullImpl s base res =
          if (leadingDigits base s).length = 0 then (-eInval, res)
          else if (if charAt (behindDigits base s) 0 = 0x0A then (behindDigits base s).drop 1
            else behindDigits base s) ≠ [] then (-eInval, res)
          else (0, numeralValue (fixupRadix s base).2 (leadingDigits base s)) := by
        simp only [kstrtoullImpl, parseInteger, parsed]
        rw [if_neg (by decide : ¬ false = true), Nat.or_zero, flag_of_short (Nat.not_le.mp many),
          if_neg (fun flag => flag rfl), count_of_short (Nat.not_le.mp many), whole, drop_left]
      refine ⟨fun v denotes _ _ => ?_, fun bad => ?_, fun _ none_ => ?_⟩
      · obtain ⟨some_, ends, rfl⟩ := denotes_iff.mp denotes
        rw [out, if_neg (mt length_eq_zero_iff.mp some_),
          if_neg (mt (tail_iff _).mp (not_not_intro ends))]
      · rcases bad with long | ⟨_, _, bad⟩
        · exact absurd long short
        · exact absurd trivial bad
      · rw [out]
        by_cases empty : leadingDigits base s = []
        · rw [if_pos (length_eq_zero_iff.mpr empty)]
        · have unended : ¬ (behindDigits base s = [] ∨ behindDigits base s = [0x0A]) :=
            fun ends => none_ ⟨_, denotes_iff.mpr ⟨empty, ends, rfl⟩⟩
          rw [if_neg (mt length_eq_zero_iff.mp empty), if_pos ((tail_iff _).mpr unended)]
  · generalize parsed : parseLoop _ _ _ _ _ = out at full
    obtain ⟨v, rv, flag⟩ := out
    obtain ⟨rfl, rfl⟩ := Prod.mk.inj full
    exact refused parsed (by decide) (overlong_iff.mpr (.inr (by omega)))

theorem denotes_lt (allowed : base = 0 ∨ 2 ≤ base ∧ base ≤ 16) {v : Nat}
    (denotes : Denotes base s v) (short : ¬ Overlong base s) : v < 2 ^ 63 := by
  obtain ⟨-, -, rfl⟩ := denotes_iff.mp denotes
  exact numeralValue_lt (fixupRadix_base allowed s).2
    (fun passes => short (overlong_iff.mpr (.inl passes)))
    fun c member => mem_takeWhile_imp member

theorem Reads.not_sign {sign : UInt8} {rest : CString} {radix : Nat}
    (reads : Reads base (sign :: s) radix digits rest) : sign ≠ 0x2B ∧ sign ≠ 0x2D := by
  obtain ⟨lead, whole, how, some_, digit⟩ := reads
  obtain ⟨first, more, rfl⟩ := exists_cons_of_ne_nil some_
  have first_digit : ∀ radix, isDigitIn radix sign = true → sign ≠ 0x2B ∧ sign ≠ 0x2D := by
    intro radix isDigit
    constructor
    · rintro rfl
      simp [isDigitIn, digitValue] at isDigit
    · rintro rfl
      simp [isDigitIn, digitValue] at isDigit
  cases how with
  | marked _ _ =>
    obtain ⟨rfl, -⟩ := List.cons.inj whole
    decide
  | given _ | octal _ | decimal _ =>
    obtain ⟨rfl, -⟩ := List.cons.inj whole
    exact first_digit _ (digit _ (by simp))

theorem denotesInt_unsigned (plus : s.head? ≠ some 0x2B) (minus : s.head? ≠ some 0x2D)
    {v : Int} : DenotesInt base s v ↔ ∃ n : Nat, Denotes base s n ∧ v = n := by
  constructor
  · intro denotes
    cases denotes with
    | unsigned denotes => exact ⟨_, denotes, rfl⟩
    | plus _ => exact absurd rfl plus
    | minus _ => exact absurd rfl minus
  · rintro ⟨n, denotes, rfl⟩
    exact .unsigned denotes

theorem overlongInt_unsigned (plus : s.head? ≠ some 0x2B)
    (minus : s.head? ≠ some 0x2D) : OverlongInt base s ↔ Overlong base s := by
  constructor
  · intro long
    cases long with
    | unsigned long => exact long
    | plus _ => exact absurd rfl plus
    | minus _ => exact absurd rfl minus
  · exact .unsigned

theorem denotesInt_plus {v : Int} :
    DenotesInt base (0x2B :: s) v ↔ ∃ n : Nat, Denotes base s n ∧ v = n := by
  constructor
  · intro denotes
    cases denotes with
    | unsigned denotes =>
      obtain ⟨_, _, _, reads, -⟩ := denotes
      exact absurd rfl reads.not_sign.1
    | plus denotes => exact ⟨_, denotes, rfl⟩
  · rintro ⟨n, denotes, rfl⟩
    exact .plus denotes

theorem overlongInt_plus : OverlongInt base (0x2B :: s) ↔ Overlong base s := by
  constructor
  · intro long
    cases long with
    | unsigned long =>
      obtain ⟨_, _, _, reads, -⟩ := long
      exact absurd rfl reads.not_sign.1
    | plus long => exact long
  · exact .plus

theorem denotesInt_minus {v : Int} :
    DenotesInt base (0x2D :: s) v ↔ ∃ n : Nat, Denotes base s n ∧ v = -n := by
  constructor
  · intro denotes
    cases denotes with
    | unsigned denotes =>
      obtain ⟨_, _, _, reads, -⟩ := denotes
      exact absurd rfl reads.not_sign.2
    | minus denotes => exact ⟨_, denotes, rfl⟩
  · rintro ⟨n, denotes, rfl⟩
    exact .minus denotes

theorem overlongInt_minus : OverlongInt base (0x2D :: s) ↔ Overlong base s := by
  constructor
  · intro long
    cases long with
    | unsigned long =>
      obtain ⟨_, _, _, reads, -⟩ := long
      exact absurd rfl reads.not_sign.2
    | minus long => exact long
  · exact .minus

theorem negative_eRange : -eRange < 0 := by decide

theorem negative_eInval : -eInval < 0 := by decide

theorem Meets.andThen {Inner Outer : Type} {denotes fits : Inner → Prop}
    {denotes' fits' : Outer → Prop}
    {overlong overlong' : Prop} {old : Inner} {old' : Outer} {out : Int × Inner}
    {out' : Int × Outer}
    (inner : Meets denotes fits overlong old out) (all : ∀ v, fits v) (convert : Inner → Outer)
    (sameDenotes : ∀ w, denotes' w ↔ ∃ v, denotes v ∧ w = convert v)
    (sameOverlong : overlong' ↔ overlong)
    (found : ∀ v, denotes v → ¬ overlong → out = (0, v) → fits' (convert v) → out' = (0, convert v))
    (unfit : ∀ v, denotes v → ¬ overlong → out = (0, v) → ¬ fits' (convert v) →
      out' = (-eRange, old'))
    (failed : out.1 < 0 → out' = (out.1, old')) : Meets denotes' fits' overlong' old' out' := by
  refine ⟨fun w denotes_w fits_w short => ?_, fun bad => ?_, fun short none_ => ?_⟩
  · obtain ⟨v, denotes_v, rfl⟩ := (sameDenotes w).mp denotes_w
    rw [sameOverlong] at short
    exact found v denotes_v short (inner.success v denotes_v (all v) short) fits_w
  · by_cases long : overlong
    · have refused := inner.range (.inl long)
      rw [failed (by rw [refused]; exact negative_eRange), refused]
    · rcases bad with long' | ⟨w, denotes_w, unfit_w⟩
      · exact absurd (sameOverlong.mp long') long
      · obtain ⟨v, denotes_v, rfl⟩ := (sameDenotes w).mp denotes_w
        exact unfit v denotes_v long (inner.success v denotes_v (all v) long) unfit_w
  · have refused := inner.invalid (fun long => short (sameOverlong.mpr long)) fun ⟨v, denotes_v⟩ =>
      none_ ⟨convert v, (sameDenotes _).mpr ⟨v, denotes_v, rfl⟩⟩
    rw [failed (by rw [refused]; exact negative_eInval), refused]

theorem kstrtoll_meets (allowed : base = 0 ∨ 2 ≤ base ∧ base ≤ 16) (s : CString) (tmp : Nat)
    (res : Int) : Meets (DenotesInt base s) (fun _ => True) (OverlongInt base s) res
      (kstrtoll s base tmp res) := by
  -- Without a minus sign, `mkrn_kstrtoull` leaves the digits to `mkrn_kstrtoull_impl`.
  have nonnegative : ∀ t : CString, kstrtoll s base tmp res =
      (let out := kstrtoullImpl t base tmp
        if out.1 < 0 then (out.1, res)
        else if out.2 > 9223372036854775807 then (-eRange, res)
        else (0, signed64 out.2)) →
      (∀ w, DenotesInt base s w ↔ ∃ n : Nat, Denotes base t n ∧ w = n) →
      (OverlongInt base s ↔ Overlong base t) →
      Meets (DenotesInt base s) (fun _ => True) (OverlongInt base s) res
        (kstrtoll s base tmp res) := by
    intro t out denotes overlong
    refine (kstrtoullImpl_meets allowed t tmp).andThen (fun _ => trivial) (fun n => (n : Int))
      denotes overlong ?_ (fun _ _ _ _ unfit => absurd trivial unfit) ?_
    · intro v denotes_v short inner _
      have typed := denotes_lt allowed denotes_v short
      rw [out, inner]
      simp only
      rw [if_neg (by decide), if_neg (by omega), signed64_eq (by omega) (by omega)]
    · intro failed
      rw [out]
      simp only [if_pos failed]
  cases s with
  | nil =>
    exact nonnegative [] rfl (fun _ => denotesInt_unsigned (by simp) (by simp))
      (overlongInt_unsigned (by simp) (by simp))
  | cons first rest =>
    by_cases minus : first = 0x2D
    · subst minus
      have out : kstrtoll (0x2D :: rest) base tmp res =
          (let out := kstrtoullImpl rest base tmp
            if out.1 < 0 then (out.1, res)
            else if signed64 (-out.2) > 0 then (-eRange, res)
            else (0, -signed64 out.2)) := rfl
      refine (kstrtoullImpl_meets allowed rest tmp).andThen (fun _ => trivial)
        (fun n => (-n : Int)) (fun _ => denotesInt_minus) overlongInt_minus ?_
        (fun _ _ _ _ unfit => absurd trivial unfit) ?_
      · intro v denotes_v short inner _
        have typed := denotes_lt allowed denotes_v short
        rw [out, inner]
        simp only
        rw [if_neg (by decide), signed64_eq (by omega) (by omega), if_neg (by omega),
          signed64_eq (by omega) (by omega)]
      · intro failed
        rw [out]
        simp only [if_pos failed]
    · by_cases plus : first = 0x2B
      · subst plus
        exact nonnegative rest rfl (fun _ => denotesInt_plus) overlongInt_plus
      · have headPlus : (first :: rest).head? ≠ some 0x2B := fun same => plus (Option.some.inj same)
        have headMinus : (first :: rest).head? ≠ some 0x2D :=
          fun same => minus (Option.some.inj same)
        refine nonnegative (first :: rest) ?_ (fun _ => denotesInt_unsigned headPlus headMinus)
          (overlongInt_unsigned headPlus headMinus)
        have noMinus : ¬ charAt (first :: rest) 0 = 0x2D := minus
        have noPlus : ¬ charAt (first :: rest) 0 = 0x2B := plus
        rw [kstrtoll, if_neg noMinus, kstrtoull, if_neg noPlus]

/-- The value of a numeral, ERANGE for what is too big, EINVAL for the rest. -/
theorem kstrtox_meets (allowed : base = 0 ∨ 2 ≤ base ∧ base ≤ 16) (s : CString) :
    (∀ tmp res, Meets (Denotes base s) (· < 2 ^ 32) (Overlong base s) res
      (kstrtouint s base tmp res)) ∧
    ∀ stack tmp res, Meets (DenotesInt base s) (fun v => -2 ^ 31 ≤ v ∧ v < 2 ^ 31)
      (OverlongInt base s) res (kstrtoint s base stack tmp res) := by
  constructor
  · intro tmp res
    refine (kstrtoullImpl_meets allowed s tmp).andThen (fun _ => trivial) id
      (fun w => ⟨fun denotes => ⟨w, denotes, rfl⟩, fun ⟨_, denotes, same⟩ => same ▸ denotes⟩)
        Iff.rfl
      ?_ ?_ ?_
    · intro v _ _ inner fits
      simp only [id_eq] at fits
      simp only [kstrtouint, inner, id_eq]
      rw [if_neg (by decide), Nat.mod_eq_of_lt (show v < 4294967296 from fits),
        if_neg (fun differs => differs rfl)]
    · intro v _ _ inner unfit
      simp only [id_eq] at unfit
      simp only [kstrtouint, inner]
      rw [if_neg (by decide), if_pos (by omega)]
    · intro failed
      simp only [kstrtouint, if_pos failed]
  · intro stack tmp res
    refine (kstrtoll_meets allowed s stack tmp).andThen (fun _ => trivial) id
      (fun w => ⟨fun denotes => ⟨w, denotes, rfl⟩, fun ⟨_, denotes, same⟩ => same ▸ denotes⟩)
        Iff.rfl
      ?_ ?_ ?_
    · intro v _ _ inner fits
      simp only [id_eq] at fits
      simp only [kstrtoint, inner, id_eq]
      rw [if_neg (by decide), signed32_eq (by omega) (by omega),
        if_neg (fun differs => differs rfl)]
    · intro v _ _ inner unfit
      simp only [id_eq] at unfit
      have cut : v ≠ signed32 v := by
        rw [signed32, Int.bmod_def]
        omega
      simp only [kstrtoint, inner]
      rw [if_neg (by decide), if_pos cut]
    · intro failed
      simp only [kstrtoint, if_pos failed]

/-- `-7` in decimal. -/
theorem kstrtox_meets_signed : Meets (DenotesInt 10 (cstr "-7"))
    (fun v => -2 ^ 31 ≤ v ∧ v < 2 ^ 31) (OverlongInt 10 (cstr "-7")) 0
      (kstrtoint (cstr "-7") 10 0 0 0) ∧ kstrtoint (cstr "-7") 10 0 0 0 = (0, -7) :=
  ⟨(kstrtox_meets (.inr (by decide)) _).2 0 0 0, by decide⟩

/-- Nineteen nines and a letter are no numeral, but ERANGE is returned, not EINVAL. -/
theorem not_kstrtox_meets : ¬ ∀ base, base = 0 ∨ 2 ≤ base ∧ base ≤ 16 → ∀ s tmp res,
    Meets (Denotes base s) (· < 2 ^ 32) False res (kstrtouint s base tmp res) := by
  intro always
  have none_ : ¬ ∃ v, Denotes 10 (cstr "9999999999999999999x") v := by
    rintro ⟨v, denotes⟩
    have ends := (denotes_iff.mp denotes).2.1
    revert ends
    decide
  have invalid := (always 10 (.inr (by decide)) (cstr "9999999999999999999x") 0 0).invalid id none_
  revert invalid
  decide

end M4KK1.Kernel
