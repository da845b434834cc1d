import M4KK1.Calc.Expressions
import Mathlib.Data.List.TakeWhile

/-!
# What `calc` computes

The grammar of `calc` as syntax trees: a sign binds tighter than `^`, which does not chain; `*`, `/`
and `%` go to the left, and so do `+` and `-`. The value of a tree is computed from left to right.
An overflow is where the code stops reading; there a tree has no value.
-/

namespace M4KK1.Calc

open List

/-- Digits, and those behind a point. -/
structure Literal where
  whole : List UInt8
  fraction : Option (List UInt8)
  nonempty : whole ≠ []
  isWhole : ∀ c ∈ whole, isDigit c
  isFraction : ∀ digits ∈ fraction, ∀ c ∈ digits, isDigit c

inductive Grade where
  | primary | unary | power | term | expr | statement

def Grade.rank : Grade → Nat
  | primary => 5
  | unary => 4
  | power => 3
  | term => 2
  | expr => 1
  | statement => 0

inductive Syn : Grade → Type where
  | num (n : Literal) : Syn .primary
  | ans : Syn .primary
  | var (x : Fin 26) : Syn .primary
  | paren (e : Syn .statement) : Syn .primary
  | call (f : Fn) (e : Syn .statement) : Syn .primary
  | bare (e : Syn .primary) : Syn .unary
  | neg (e : Syn .unary) : Syn .unary
  | pos (e : Syn .unary) : Syn .unary
  | alone (e : Syn .unary) : Syn .power
  | pow (b e : Syn .unary) : Syn .power
  | factor (e : Syn .power) : Syn .term
  | product (op : TermOp) (a : Syn .term) (b : Syn .power) : Syn .term
  | summand (e : Syn .term) : Syn .expr
  | sum (minus : Bool) (a : Syn .expr) (b : Syn .term) : Syn .expr
  | value (e : Syn .expr) : Syn .statement
  | assign (x : Fin 26) (e : Syn .statement) : Syn .statement

def Literal.text (n : Literal) : List UInt8 := n.whole ++ n.fraction.elim [] (46 :: ·)

def letter (x : Fin 26) : UInt8 := 97 + UInt8.ofNat x.val

def TermOp.symbol : TermOp → UInt8
  | mul => 42
  | div => 47
  | mod => 37

/-- The text of a tree, with a blank behind each token. -/
@[simp] def Syn.text {grade : Grade} : Syn grade → List UInt8
  | num n => n.text ++ [32]
  | ans => [97, 110, 115, 32]
  | var x => [letter x, 32]
  | paren e => 40 :: 32 :: (e.text ++ [41, 32])
  | call f e => f.name ++ 32 :: 40 :: 32 :: (e.text ++ [41, 32])
  | bare e | alone e | factor e | summand e | value e => e.text
  | neg e => 45 :: 32 :: e.text
  | pos e => 43 :: 32 :: e.text
  | pow b e => b.text ++ 94 :: 32 :: e.text
  | product op a b => a.text ++ op.symbol :: 32 :: b.text
  | sum minus a b => a.text ++ (if minus then 45 else 43) :: 32 :: b.text
  | assign x e => letter x :: 32 :: 61 :: 32 :: e.text

variable (real : Fn → BitVec 64 → BitVec 64) (scale : Nat)

def Literal.value (n : Literal) : BitVec 64 :=
  digitsValue n.whole * pow10i scale + n.fraction.elim 0 (fractionValue scale)

def Syn.eval {grade : Grade} : Syn grade → Memory → Option (BitVec 64 × Memory)
  | num n, m => some (n.value scale, m)
  | ans, m => some (m.vars 26, m)
  | var x, m => some (m.vars x.castSucc, m)
  | paren e, m | bare e, m | alone e, m | factor e, m | summand e, m | value e, m | pos e, m =>
    e.eval m
  | call f e, m => (e.eval m).map fun (v, m) => (f.call real v, m)
  | neg e, m => (e.eval m).map fun (v, m) => (-v, m)
  | pow b e, m => do
    let (v, m) ← b.eval m
    let (w, m) ← e.eval m
    some (calcPowi scale v (divdi3 w (pow10i scale)), m)
  | product op a b, m => do
    let (v, m) ← a.eval m
    let (r, m) ← b.eval m
    match op.compute scale v r with
    | .ok v => some (v, m)
    | .error c => if op = .mul then none else some (0, m.complain c)
  | sum minus a b, m => do
    let (v, m) ← a.eval m
    let (r, m) ← b.eval m
    some (if minus then v - r else v + r, m)
  | assign x e, m => (e.eval m).map fun (v, m) => (v, m.store scale x v)

/-- The calls and loops that the tree needs. -/
@[simp] def Syn.cost {grade : Grade} : Syn grade → Nat
  | num _ | ans | var _ => 1
  | paren e | call _ e | bare e | alone e | factor e | summand e | neg e | pos e => e.cost + 1
  | value e => e.cost
  | pow b e => b.cost + e.cost + 1
  | product _ a b => a.cost + b.cost + 1
  | sum _ a b => a.cost + b.cost + 1
  | assign _ e => e.cost + 6

/-- The turns of the loop of the tree's grade. -/
def Syn.turns {grade : Grade} : Syn grade → Nat
  | factor _ | summand _ => 1
  | product _ a _ => a.turns + 1
  | sum _ a _ => a.turns + 1
  | value e => e.turns
  | _ => 0

variable {real : Fn → BitVec 64 → BitVec 64} {scale fuel : Nat} {m m' : Memory} {v : BitVec 64}
    {t : Token}
  {s text : List UInt8}

/-- The text with a blank behind it is read as this token. -/
def Spells (scale : Nat) (text : List UInt8) (t : Token) : Prop :=
  ∀ s, nextToken scale (text ++ 32 :: s) = (t, 32 :: s)

theorem reading_blank : reading scale (32 :: s) m = reading scale s m := by
  rw [reading, reading, nextToken, dropWhile_cons_of_pos (by decide), ← nextToken]

theorem Spells.reading (spells : Spells scale text t) :
    reading scale (text ++ 32 :: s) m = ⟨t, 32 :: s, m⟩ := by
  rw [Calc.reading, spells]

@[simp]
theorem advance_blank : advance scale ⟨t, 32 :: s, m⟩ = reading scale s m := reading_blank

theorem spells_symbol {c : UInt8} (isSymbol : symbolToken c ≠ .eof) :
    Spells scale [c] (symbolToken c) := by
  intro s
  revert isSymbol
  unfold symbolToken
  split <;> intro isSymbol
  all_goals first | rfl | exact absurd rfl isSymbol

theorem spells_letter (x : Fin 26) : Spells scale [letter x] (.var x) := by
  intro s
  obtain ⟨notBlank, notEnd, notDigit, notPoint, lower, word⟩ : isWs (letter x) = false ∧
      ¬(letter x = 35 ∨ letter x = 10 ∨ letter x = 13) ∧ isDigit (letter x) = false ∧
      letter x ≠ 46 ∧
      isLower (letter x) = true ∧ wordToken [letter x] = .var x := by
    revert x
    decide
  simp [nextToken, notBlank, notEnd, notDigit, notPoint, lower, word,
    show isLower 32 = false by decide]

theorem spells_name (f : Fn) : Spells scale f.name (.fn f) := by
  intro s
  cases f <;> rfl

theorem blank_of_digit {c : UInt8} (digit : isDigit c) :
    isWs c = false ∧ ¬(c = 35 ∨ c = 10 ∨ c = 13) := by
  simp only [isDigit, decide_eq_true_eq, isWs, decide_eq_false_iff_not, UInt8.le_iff_toNat_le,
    ← UInt8.toNat_inj] at *
  have low := digit.1
  simp at *
  omega

theorem spells_literal (n : Literal) : Spells scale n.text (.num (n.value scale)) := by
  intro s
  obtain ⟨whole, fraction, nonempty, isWhole, isFraction⟩ := n
  obtain ⟨c, cs, rfl⟩ := exists_cons_of_ne_nil nonempty
  have digit := isWhole c mem_cons_self
  obtain ⟨notBlank, notEnd⟩ := blank_of_digit digit
  unfold nextToken Literal.text
  rw [cons_append, cons_append, dropWhile_cons_of_neg (by simp [notBlank])]
  dsimp only
  rw [if_neg notEnd, if_pos digit, ← cons_append, ← cons_append, append_assoc,
    takeWhile_append_of_pos isWhole,
    dropWhile_append_of_pos isWhole]
  cases fraction with
  | none => simp [Literal.value, show isDigit 32 = false by decide]
  | some digits =>
    have digits' := isFraction digits rfl
    simp [Literal.value, show isDigit 46 = false by decide, takeWhile_append_of_pos digits',
      dropWhile_append_of_pos digits', show isDigit 32 = false by decide]

variable (real scale) in
/-- The function that reads a tree of the grade. -/
def parse : Grade → Nat → Evaluator → Option (BitVec 64 × Evaluator)
  | .primary => parsePrimary real scale
  | .unary => parseUnary real scale
  | .power => parsePower real scale
  | .term => parseTerm real scale
  | .expr | .statement => parseExpr real scale

variable (real scale) in
/-- The loop that it ends in. -/
def finish : Grade → Nat → BitVec 64 → Evaluator → Option (BitVec 64 × Evaluator)
  | .term => termLoop real scale
  | .expr => exprLoop real scale
  | _ => fun _ v k => some (v, k)

/-- A token that does not go on with a tree of the grade. -/
def Stops : Grade → Token → Prop
  | .primary, t | .unary, t => t ≠ .eq
  | .power, t | .term, t => t ≠ .eq ∧ t ≠ .pow
  | .expr, t => t ≠ .eq ∧ t ≠ .pow ∧ termOp t = none
  | .statement, t => t ≠ .eq ∧ t ≠ .pow ∧ termOp t = none ∧ t ≠ .plus ∧ t ≠ .minus

theorem Syn.turns_lt {grade : Grade} (e : Syn grade) : e.turns < e.cost := by
  induction e <;> simp only [turns, cost] <;> omega

theorem Syn.turn_left {grade : Grade} {e : Syn grade} (enough : e.cost ≤ fuel) :
    ∃ less, fuel - e.turns = less + 1 ∧ fuel ≤ less + e.cost := by
  have := e.turns_lt
  exact ⟨fuel - e.turns - 1, by omega⟩

theorem reads_symbol {c : UInt8} (isSymbol : symbolToken c ≠ .eof) :
    reading scale (c :: 32 :: s) m = ⟨symbolToken c, 32 :: s, m⟩ :=
  (spells_symbol isSymbol).reading

theorem parsePrimary_paren
    (inner : parseExpr real scale fuel (reading scale text m) = some (v, ⟨.rparen, 32 :: s, m'⟩)) :
    parsePrimary real scale (fuel + 1) ⟨.lparen, 32 :: text, m⟩ = some (v, reading scale s m') := by
  change (parseExpr real scale fuel (advance scale _)).bind _ = _
  rw [advance_blank, inner]
  rfl

theorem parsePrimary_call {f : Fn}
    (inner : parseExpr real scale fuel (reading scale text m) = some (v, ⟨.rparen, 32 :: s, m'⟩)) :
    parsePrimary real scale (fuel + 1) ⟨.fn f, 32 :: 40 :: 32 :: text, m⟩ =
      some (f.call real v, reading scale s m') := by
  change (parseExpr real scale fuel (advance scale (advance scale _))).bind _ = _
  rw [advance_blank, reads_symbol (by decide), advance_blank, inner]
  rfl

theorem parseUnary_minus {k : Evaluator}
    (inner : parseUnary real scale fuel (reading scale text m) = some (v, k)) :
    parseUnary real scale (fuel + 1) ⟨.minus, 32 :: text, m⟩ = some (-v, k) := by
  rw [parseUnary, if_pos rfl, advance_blank, inner]
  rfl

theorem parsePower_pow {w : BitVec 64} {k k' : Evaluator}
    (first : parseUnary real scale fuel k = some (w, ⟨.pow, 32 :: text, m⟩))
    (second : parseUnary real scale fuel (reading scale text m) = some (v, k')) :
    parsePower real scale (fuel + 1) k = some (calcPowi scale w (divdi3 v (pow10i scale)), k') := by
  rw [parsePower, first]
  change (parseUnary real scale fuel (advance scale _)).bind _ = _
  rw [advance_blank, second]
  rfl

theorem first_primary (e : Syn .primary) (s : List UInt8) (m : Memory) :
    (reading scale (e.text ++ s) m).cur ≠ .minus ∧ (reading scale (e.text ++ s) m).cur ≠ .plus := by
  cases e with
  | num n => rw [Syn.text, append_assoc, singleton_append, (spells_literal n).reading]; simp
  | ans => exact ⟨show Token.ans ≠ .minus by decide, show Token.ans ≠ .plus by decide⟩
  | var x =>
    rw [Syn.text, show [letter x, 32] ++ s = [letter x] ++ 32 :: s from rfl,
      (spells_letter x).reading]; simp
  | paren e => exact ⟨show Token.lparen ≠ .minus by decide, show Token.lparen ≠ .plus by decide⟩
  | call f e => rw [Syn.text, append_assoc, cons_append, (spells_name f).reading]; simp

theorem Syn.fuel_succ {grade : Grade} {e : Syn grade} (enough : e.cost ≤ fuel) :
    ∃ less, fuel = less + 1 := by
  have := e.turns_lt
  exact ⟨fuel - 1, by omega⟩

theorem stops_closing {grade : Grade} (closing : t = .rparen ∨ t = .semi) : Stops grade t := by
  rcases closing with rfl | rfl <;> cases grade <;> simp [Stops, termOp]

theorem stops_op (op : TermOp) : Stops .term (symbolToken op.symbol) := by
  cases op <;> exact ⟨show symbolToken _ ≠ .eq by decide, show symbolToken _ ≠ .pow by decide⟩

theorem stops_sign (minus : Bool) : Stops .expr (if minus then .minus else .plus) := by
  cases minus <;> simp [Stops, termOp]

theorem reads_op (op : TermOp) :
    reading scale (op.symbol :: 32 :: s) m = ⟨symbolToken op.symbol, 32 :: s, m⟩ :=
  reads_symbol (by cases op <;> decide)

theorem termOp_symbol (op : TermOp) : termOp (symbolToken op.symbol) = some op := by
  cases op <;> rfl

variable (real scale) in
/-- With fuel for its calls and loops the tree is read to its value, and the loop of its grade takes
over at what follows its text, when the token there does not go on with the tree. -/
def Parses {grade : Grade} (e : Syn grade) : Prop :=
  ∀ ⦃m m' : Memory⦄ ⦃v : BitVec 64⦄ ⦃s : List UInt8⦄ ⦃fuel : Nat⦄,
    e.eval real scale m = some (v, m') →
    Stops grade (reading scale s m').cur → e.cost ≤ fuel →
      parse real scale grade fuel (reading scale (e.text ++ s) m) =
        finish real scale grade (fuel - e.turns) v (reading scale s m')

theorem Parses.num (n : Literal) : Parses real scale (.num n) := by
  intro m m' v s fuel value stops enough
  obtain ⟨fuel, rfl⟩ := Syn.fuel_succ enough
  cases value
  rw [Syn.text, append_assoc, singleton_append, (spells_literal n).reading]
  rfl

theorem Parses.ans : Parses real scale .ans := by
  intro m m' v s fuel value stops enough
  obtain ⟨fuel, rfl⟩ := Syn.fuel_succ enough
  cases value
  rfl

theorem Parses.var (x : Fin 26) : Parses real scale (.var x) := by
  intro m m' v s fuel value stops enough
  obtain ⟨fuel, rfl⟩ := Syn.fuel_succ enough
  cases value
  rw [Syn.text, show [letter x, 32] ++ s = [letter x] ++ 32 :: s from rfl,
    (spells_letter x).reading]
  exact if_neg stops

theorem Parses.paren {e : Syn .statement} (inner : Parses real scale e) :
    Parses real scale (.paren e) := by
  intro m m' v s fuel value stops enough
  obtain ⟨fuel, rfl⟩ := Syn.fuel_succ enough
  rw [Syn.text, cons_append, cons_append, append_assoc, reads_symbol (by decide)]
  refine parsePrimary_paren ((inner value ?_ (Nat.le_of_succ_le_succ enough)).trans ?_)
  · exact stops_closing (.inl rfl)
  · rfl

theorem Parses.call (f : Fn) {e : Syn .statement} (inner : Parses real scale e) :
    Parses real scale (.call f e) := by
  intro m m' v s fuel value stops enough
  obtain ⟨fuel, rfl⟩ := Syn.fuel_succ enough
  obtain ⟨⟨v, m'⟩, value, result⟩ := Option.map_eq_some_iff.mp value
  cases result
  rw [Syn.text, append_assoc, cons_append, cons_append, cons_append, append_assoc,
    (spells_name f).reading]
  refine parsePrimary_call ((inner value ?_ (Nat.le_of_succ_le_succ enough)).trans ?_)
  · exact stops_closing (.inl rfl)
  · rfl

theorem Parses.bare {e : Syn .primary} (inner : Parses real scale e) :
    Parses real scale (.bare e) := by
  intro m m' v s fuel value stops enough
  obtain ⟨fuel, rfl⟩ := Syn.fuel_succ enough
  obtain ⟨notMinus, notPlus⟩ := @first_primary scale e s m
  change parseUnary real scale (fuel + 1) _ = _
  rw [Syn.text, parseUnary, if_neg notMinus, if_neg notPlus]
  exact inner value stops (Nat.le_of_succ_le_succ enough)

theorem Parses.neg {e : Syn .unary} (inner : Parses real scale e) : Parses real scale (.neg e) := by
  intro m m' v s fuel value stops enough
  obtain ⟨fuel, rfl⟩ := Syn.fuel_succ enough
  obtain ⟨⟨v, m'⟩, value, result⟩ := Option.map_eq_some_iff.mp value
  cases result
  have read : parseUnary real scale fuel (reading scale (e.text ++ s) m) =
      some (v, reading scale s m') :=
    inner value stops (Nat.le_of_succ_le_succ enough)
  change parseUnary real scale (fuel + 1) _ = _
  rw [Syn.text, cons_append, cons_append, reads_symbol (by decide)]
  exact parseUnary_minus read

theorem Parses.pos {e : Syn .unary} (inner : Parses real scale e) : Parses real scale (.pos e) := by
  intro m m' v s fuel value stops enough
  obtain ⟨fuel, rfl⟩ := Syn.fuel_succ enough
  change parseUnary real scale (fuel + 1) _ = _
  rw [Syn.text, cons_append, cons_append, reads_symbol (by decide)]
  change parseUnary real scale fuel (reading scale (e.text ++ s) m) = _
  exact inner value stops (Nat.le_of_succ_le_succ enough)

theorem Parses.alone {e : Syn .unary} (inner : Parses real scale e) :
    Parses real scale (.alone e) := by
  intro m m' v s fuel value stops enough
  obtain ⟨fuel, rfl⟩ := Syn.fuel_succ enough
  have read : parseUnary real scale fuel (reading scale (e.text ++ s) m) =
      some (v, reading scale s m') :=
    inner value stops.1 (Nat.le_of_succ_le_succ enough)
  change parsePower real scale (fuel + 1) _ = _
  rw [Syn.text, parsePower, read]
  exact if_neg stops.2

theorem Parses.pow {b e : Syn .unary}
    (ofBase : Parses real scale b) (ofExponent : Parses real scale e) :
    Parses real scale (.pow b e) := by
  intro m m' v s fuel value stops enough
  obtain ⟨fuel, rfl⟩ := Syn.fuel_succ enough
  obtain ⟨⟨w, middle⟩, base, value⟩ := Option.bind_eq_some_iff.mp value
  obtain ⟨⟨y, after⟩, exponent, result⟩ := Option.bind_eq_some_iff.mp value
  cases result
  simp only [Syn.cost] at enough
  have first : parseUnary real scale fuel (reading scale (b.text ++ 94 :: 32 :: (e.text ++ s)) m) =
      some (w, ⟨.pow, 32 :: (e.text ++ s), middle⟩) :=
    ofBase base (show Token.pow ≠ .eq by decide) (by omega)
  have second : parseUnary real scale fuel (reading scale (e.text ++ s) middle) =
      some (y, reading scale s m') :=
    ofExponent exponent stops.1 (by omega)
  rw [Syn.text, append_assoc, cons_append, cons_append]
  exact parsePower_pow first second

theorem Parses.factor {e : Syn .power} (inner : Parses real scale e) :
    Parses real scale (.factor e) := by
  intro m m' v s fuel value stops enough
  obtain ⟨fuel, rfl⟩ := Syn.fuel_succ enough
  have read : parsePower real scale fuel (reading scale (e.text ++ s) m) =
      some (v, reading scale s m') :=
    inner value stops (Nat.le_of_succ_le_succ enough)
  change parseTerm real scale (fuel + 1) _ = _
  rw [Syn.text, parseTerm, read]
  rfl

theorem Parses.product (op : TermOp) {a : Syn .term} {b : Syn .power}
    (ofLeft : Parses real scale a) (ofRight : Parses real scale b) :
    Parses real scale (.product op a b) := by
  intro m m' v s fuel value stops enough
  obtain ⟨⟨w, middle⟩, left, value⟩ := Option.bind_eq_some_iff.mp value
  obtain ⟨⟨r, after⟩, right, result⟩ := Option.bind_eq_some_iff.mp value
  simp only [Syn.cost] at enough
  obtain ⟨less, isLess, left_le⟩ := @Syn.turn_left fuel _ a (by omega)
  have first :
    parseTerm real scale fuel (reading scale (a.text ++ op.symbol :: 32 :: (b.text ++ s)) m) =
      termLoop real scale (fuel - a.turns) w ⟨symbolToken op.symbol, 32 :: (b.text ++ s),
        middle⟩ := by
    rw [← reads_op]
    exact ofLeft left (by rw [reads_op]; exact stops_op op) (by omega)
  have second : parsePower real scale less (reading scale (b.text ++ s) middle) =
      some (r, reading scale s after) :=
    ofRight right stops (by omega)
  change parseTerm real scale fuel _ = termLoop real scale (fuel - (a.turns + 1)) _ _
  rw [Syn.text, append_assoc, cons_append, cons_append, first, ← Nat.sub_sub, isLess, termLoop]
  simp only [termOp_symbol, advance_blank, second, Option.bind_eq_bind,
    Option.bind_some] at result ⊢
  cases computed : op.compute scale w r with
  | ok u =>
    simp only [computed, Option.some.injEq, Prod.mk.injEq] at result
    obtain ⟨rfl, rfl⟩ := result
    rfl
  | error c =>
    simp only [computed] at result
    split at result
    · cases result
    · next notMul =>
      cases result
      exact if_neg notMul

theorem Parses.summand {e : Syn .term} (inner : Parses real scale e) :
    Parses real scale (.summand e) := by
  intro m m' v s fuel value stops enough
  obtain ⟨fuel, rfl⟩ := Syn.fuel_succ enough
  have enough := Nat.le_of_succ_le_succ enough
  obtain ⟨less, isLess, -⟩ := Syn.turn_left enough
  have read : parseTerm real scale fuel (reading scale (e.text ++ s) m) =
      termLoop real scale (fuel - e.turns) v (reading scale s m') :=
    inner value ⟨stops.1, stops.2.1⟩ enough
  change parseExpr real scale (fuel + 1) _ = exprLoop real scale fuel _ _
  rw [Syn.text, parseExpr, read, isLess, termLoop, stops.2.2]
  rfl

theorem Parses.sum (minus : Bool) {a : Syn .expr} {b : Syn .term}
    (ofLeft : Parses real scale a) (ofRight : Parses real scale b) :
    Parses real scale (.sum minus a b) := by
  intro m m' v s fuel value stops enough
  obtain ⟨⟨w, middle⟩, left, value⟩ := Option.bind_eq_some_iff.mp value
  obtain ⟨⟨r, after⟩, right, result⟩ := Option.bind_eq_some_iff.mp value
  cases result
  simp only [Syn.cost] at enough
  obtain ⟨less, isLess, left_le⟩ := @Syn.turn_left fuel _ a (by omega)
  obtain ⟨rest, isRest, -⟩ := @Syn.turn_left less _ b (by omega)
  have isSign : reading scale ((if minus then 45 else 43) :: 32 :: (b.text ++ s)) middle =
      ⟨if minus then .minus else .plus, 32 :: (b.text ++ s), middle⟩ := by cases minus <;> rfl
  have first : parseExpr real scale fuel
    (reading scale (a.text ++ (if minus then 45 else 43) :: 32 :: (b.text ++ s)) m) =
      exprLoop real scale (fuel - a.turns) w ⟨if minus then .minus else .plus, 32 :: (b.text ++ s),
        middle⟩ := by
    rw [← isSign]
    exact ofLeft left (by rw [isSign]; exact stops_sign minus) (by omega)
  have second : parseTerm real scale less (reading scale (b.text ++ s) middle) =
      some (r, reading scale s m') := by
    refine (ofRight right ⟨stops.1, stops.2.1⟩ (by omega)).trans ?_
    change termLoop real scale (less - b.turns) r (reading scale s m') = _
    rw [isRest, termLoop, stops.2.2]
  change parseExpr real scale fuel _ = exprLoop real scale (fuel - (a.turns + 1)) _ _
  rw [Syn.text, append_assoc, cons_append, cons_append, first, ← Nat.sub_sub, isLess, exprLoop,
    if_pos (by cases minus <;> simp), advance_blank, second]
  cases minus <;> rfl

theorem Parses.value {e : Syn .expr} (inner : Parses real scale e) :
    Parses real scale (.value e) := by
  intro m m' v s fuel value stops enough
  have enough : e.cost ≤ fuel := enough
  obtain ⟨less, isLess, -⟩ := Syn.turn_left enough
  have read : parseExpr real scale fuel (reading scale (e.text ++ s) m) =
      exprLoop real scale (fuel - e.turns) v (reading scale s m') :=
    inner value ⟨stops.1, stops.2.1, stops.2.2.1⟩ enough
  change parseExpr real scale fuel _ = some _
  rw [Syn.text, read, isLess, exprLoop, if_neg (not_or.mpr stops.2.2.2)]

theorem Parses.assign (x : Fin 26) {e : Syn .statement} (inner : Parses real scale e) :
    Parses real scale (.assign x e) := by
  intro m m' v s fuel value stops enough
  obtain ⟨⟨v, middle⟩, isValue, result⟩ := Option.map_eq_some_iff.mp value
  cases result
  simp only [Syn.cost] at enough
  obtain ⟨less, rfl⟩ : ∃ less, fuel = less + 6 := ⟨fuel - 6, by omega⟩
  generalize isAfter : reading scale s (middle.store scale x v) = after at stops ⊢
  have read : parseExpr real scale (less + 1) (reading scale (e.text ++ s) m) =
      some (v, reading scale s middle) :=
    @inner m middle v s (less + 1) isValue (by rw [← isAfter] at stops; exact stops) (by omega)
  have primary : parsePrimary real scale (less + 2) ⟨.var x, 32 :: 61 :: 32 :: (e.text ++ s), m⟩ =
      some (v, after) := by
    change (parseExpr real scale (less + 1) (reading scale (e.text ++ s) m)).bind _ = _
    rw [read, ← isAfter]
    rfl
  have unary : parseUnary real scale (less + 3) ⟨.var x, 32 :: 61 :: 32 :: (e.text ++ s), m⟩ =
      some (v, after) := primary
  have power : parsePower real scale (less + 4) ⟨.var x, 32 :: 61 :: 32 :: (e.text ++ s), m⟩ =
      some (v, after) := by
    rw [parsePower, unary]
    exact if_neg stops.2.1
  have term : parseTerm real scale (less + 5) ⟨.var x, 32 :: 61 :: 32 :: (e.text ++ s), m⟩ =
      some (v, after) := by
    rw [parseTerm, power]
    change termLoop real scale (less + 4) v after = _
    rw [termLoop, stops.2.2.1]
  change parseExpr real scale (less + 6)
    (reading scale ([letter x] ++ 32 :: 61 :: 32 :: (e.text ++ s)) m) = some _
  rw [(spells_letter x).reading, parseExpr, term]
  change exprLoop real scale (less + 5) v after = _
  rw [exprLoop, if_neg (not_or.mpr stops.2.2.2)]

/-- Whatever tree it is, its text is read to its value. -/
theorem parse_text {grade : Grade} (e : Syn grade) : Parses real scale e := by
  induction e with
  | num n => exact .num n
  | ans => exact .ans
  | var x => exact .var x
  | paren e inner => exact inner.paren
  | call f e inner => exact inner.call f
  | bare e inner => exact inner.bare
  | neg e inner => exact inner.neg
  | pos e inner => exact inner.pos
  | alone e inner => exact inner.alone
  | pow b e ofBase ofExponent => exact ofBase.pow ofExponent
  | factor e inner => exact inner.factor
  | product op a b ofLeft ofRight => exact ofLeft.product op ofRight
  | summand e inner => exact inner.summand
  | sum minus a b ofLeft ofRight => exact ofLeft.sum minus ofRight
  | value e inner => exact inner.value
  | assign x e inner => exact inner.assign x

theorem Syn.cost_le {grade : Grade} (e : Syn grade) : e.cost + grade.rank ≤ 8 * e.text.length := by
  induction e <;>
    simp only [cost, text, Grade.rank, length_append, length_cons, length_nil] at * <;> omega

/-- On the text of a tree `eval_expr` computes the value of the tree and stores what it assigns,
when the token behind it does not go on with an expression. -/
theorem evalExpr_text (e : Syn .statement)
    (value : e.eval real scale { m with evalError := false } = some (v, m'))
    (stops : Stops .statement (nextToken scale s).1) :
    evalExpr real scale (e.text ++ s) m = some (v, m') := by
  have enough : e.cost ≤ 8 * ((e.text ++ s).length + 1) := by
    have bound := e.cost_le
    rw [length_append]
    omega
  have read : parseExpr real scale _ (reading scale (e.text ++ s) _) =
      some (v, reading scale s m') :=
    parse_text e value stops enough
  change (parseExpr real scale _ _).bind _ = _
  rw [read]
  rfl

/-- `a = ans - ans * a` -/
theorem evalExpr_text_assign : ∃ m', evalExpr (fun _ v => v) 0 ((Syn.assign 0 (.value (.sum true
    (.summand (.factor (.alone (.bare .ans))))
    (.product .mul (.factor (.alone (.bare .ans))) (.alone (.bare (.var 0))))))).text ++ [59])
      ⟨fun _ => 7, fun _ => 0, true, []⟩ = some (-42, m') ∧ m'.vars 0 = -42 :=
  ⟨_, evalExpr_text _ rfl (stops_closing (.inr rfl)), rfl⟩

end M4KK1.Calc
