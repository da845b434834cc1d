import Mathlib.Algebra.Ring.Int.Defs
import Mathlib.Algebra.Ring.Nat
import Mathlib.Data.List.Basic

/-!
# `vsnprintf`

`m4k_libc/stdio.c`: a `%` at the end lets the loop look behind the NUL.
-/

namespace M4KK1.Libc

open List

/-- An argument: an `int`, or a pointer to a string or NULL. -/
inductive Arg where
  | int (v : Int32)
  | str (s : Option (List UInt8))

/-- `while (more && pos < size - 1) str[pos++] = next;`, where `limit` is `size - 1`. -/
def put (limit : Nat) : List UInt8 → List UInt8 → List UInt8
  | [], out => out
  | c :: rest, out => if out.length < limit then put limit rest (out ++ [c]) else out

/-- The `do` loop for the digits; what was put into `buf` last comes first. -/
def digitLoop : Nat → Int → List UInt8 → List UInt8
  | 0, _, buf => buf
  | len + 1, val, buf =>
    let buf := UInt8.ofInt (48 + val.tmod 10) :: buf
    if val.tdiv 10 > 0 then digitLoop len (val.tdiv 10) buf else buf

/-- `val = -val` in 32 bits. -/
def negated (val : Int) : Int := (-val).bmod (2 ^ 32)

/-- The case of `%d`. -/
def putInt (limit : Nat) (val : Int) (out : List UInt8) : List UInt8 :=
  if val < 0 then put limit (digitLoop 31 (negated val) []) (put limit [45] out)
  else put limit (digitLoop 31 val []) out

/-- `"(null)"`. -/
def nullText : List UInt8 := [40, 110, 117, 108, 108, 41]

/-- Behind a `%`: the arguments left and the bytes, or nothing for an argument of another kind. -/
def directive (limit : Nat) (d : UInt8) (args : List Arg) (out : List UInt8) :
    Option (List Arg × List UInt8) :=
  if d = 100 then match args with
    | .int val :: args => some (args, putInt limit val.toInt out)
    | _ => none
  else if d = 115 then match args with
    | .str s :: args => some (args, put limit (s.getD nullText) out)
    | _ => none
  else if d = 99 then match args with
    | .int c :: args => some (args, put limit [UInt8.ofInt c.toInt] out)
    | _ => none
  else if d = 37 then some (args, put limit [37] out)
  else some (args, out)

/-- The loop of `vsnprintf`. There is no result when it looks behind the NUL of the format. -/
def vsnprintfLoop (limit : Nat) (args : List Arg) (out : List UInt8) :
    List UInt8 → Option (List UInt8)
  | [] => some out
  | c :: format =>
    if out.length < limit then
      if c = 37 then
        match format with
        | [] => none
        | d :: format =>
          (directive limit d args out).bind fun r => vsnprintfLoop limit r.1 r.2 format
      else vsnprintfLoop limit args (put limit [c] out) format
    else some out

/-- `vsnprintf`: the bytes stored from `str` on, and the value returned, an `int`. -/
def vsnprintf (size : Nat) (format : List UInt8) (args : List Arg) : Option (List UInt8 × Int) :=
  if size = 0 then some ([], 0)
  else (vsnprintfLoop (size - 1) args [] format).map fun out =>
    (out ++ [0], (out.length : Int).bmod (2 ^ 32))

/-- A piece of a format, with its argument. -/
inductive Item where
  | plain (c : UInt8) (ordinary : c ≠ 0 ∧ c ≠ 37)
  | decimal (v : Int32)
  | text (s : Option (List UInt8))
  | char (c : Int32)
  | percent
  | unknown (d : UInt8) (other : d ≠ 0 ∧ d ≠ 100 ∧ d ≠ 115 ∧ d ≠ 99 ∧ d ≠ 37)

namespace Item

def format : Item → List UInt8
  | plain c _ => [c]
  | decimal _ => [37, 100]
  | text _ => [37, 115]
  | char _ => [37, 99]
  | percent => [37, 37]
  | unknown d _ => [37, d]

def args : Item → List Arg
  | decimal v => [.int v]
  | text s => [.str s]
  | char c => [.int c]
  | _ => []

def digits (n : Nat) : List UInt8 := (Nat.toDigits 10 n).map fun c => c.toNat.toUInt8

def expansion : Item → List UInt8
  | plain c _ => [c]
  | decimal v => if v.toInt < 0 then 45 :: digits v.toInt.natAbs else digits v.toInt.natAbs
  | text s => s.getD nullText
  | char c => [UInt8.ofInt c.toInt]
  | percent => [37]
  | unknown .. => []

def printed : Item → List UInt8
  | decimal v =>
    if v.toInt < 0 then 45 :: digitLoop 31 (negated v.toInt) [] else digitLoop 31 v.toInt []
  | item => item.expansion

end Item

/-- The format of these items, with a `%` at the end when `lone` holds. -/
def formatOf (items : List Item) (lone : Bool) : List UInt8 :=
  items.flatMap Item.format ++ if lone then [37] else []

/-- Within this room no more than the sign of the smallest `int` is printed. -/
def NoSmallest : Nat → List Item → Prop
  | _, [] => True
  | room, item :: items =>
    (item = .decimal Int32.minValue → room ≤ 1) ∧ NoSmallest (room - item.expansion.length) items

variable {limit : Nat} {out : List UInt8}

theorem put_eq (fits : out.length ≤ limit) (cs : List UInt8) :
    put limit cs out = out ++ cs.take (limit - out.length) := by
  induction cs generalizing out with
  | nil => simp [put]
  | cons c cs ih =>
    unfold put
    split
    · next room =>
      rw [ih (by simp; omega), append_assoc, length_append, length_singleton,
        show limit - out.length = (limit - (out.length + 1)) + 1 by omega]
      rfl
    · rw [show limit - out.length = 0 by omega, take_zero, append_nil]

theorem put_put (fits : out.length ≤ limit) (xs ys : List UInt8) :
    put limit ys (put limit xs out) = put limit (xs ++ ys) out := by
  rw [put_eq fits, put_eq (by simp; omega), put_eq fits, take_append, append_assoc,
    length_append, length_take]
  congr 3
  omega

theorem put_full (full : ¬out.length < limit) (cs : List UInt8) : put limit cs out = out := by
  cases cs <;> simp [put, full]

theorem putInt_eq (fits : out.length ≤ limit) (v : Int32) :
    putInt limit v.toInt out = put limit (Item.decimal v).printed out := by
  simp only [putInt, Item.printed]
  split
  · rw [put_put fits]
    rfl
  · rfl

theorem digitLoop_eq (len : Nat) {n : Nat} (small : n < 10 ^ len) (some : 0 < len)
    (buf : List UInt8) :
    digitLoop len n buf = Item.digits n ++ buf := by
  induction len generalizing n buf with
  | zero => cases some
  | succ len ih =>
    have digit : UInt8.ofInt (48 + (n : Int).tmod 10) = (Nat.digitChar (n % 10)).toNat.toUInt8 := by
      rw [Nat.toNat_digitChar_of_lt_ten (Nat.mod_lt n (by decide))]
      exact UInt8.toNat_inj.mp (by simp [UInt8.ofInt, Int.tmod]; omega)
    have quotient : (n : Int).tdiv 10 = (n / 10 : Nat) := rfl
    rw [digitLoop, digit, quotient, Item.digits, Nat.toDigits_eq_if (by decide)]
    by_cases one : n < 10
    · rw [if_neg (by omega), if_pos one, Nat.mod_eq_of_lt one]
      rfl
    · rw [Nat.pow_succ] at small
      have more : 0 < len := Nat.pos_of_ne_zero (by rintro rfl; omega)
      rw [if_pos (by omega), if_neg one, ih (by omega) more]
      simp [Item.digits]

theorem printed_eq {item : Item} (fair : item ≠ .decimal Int32.minValue) :
    item.printed = item.expansion := by
  cases item with
  | decimal v =>
    have low := v.le_toInt
    have high := v.toInt_lt
    have notMin : v.toInt ≠ Int32.minValue.toInt :=
      fun same => fair (by rw [Int32.toInt_inj.mp same])
    rw [show Int32.minValue.toInt = -2 ^ 31 from rfl] at notMin
    simp only [Item.printed, Item.expansion]
    split
    · rw [negated, Int.bmod_eq_of_le (by omega) (by omega),
        show -v.toInt = (v.toInt.natAbs : Int) by omega,
        digitLoop_eq 31 (by omega) (by decide), append_nil]
    · obtain ⟨n, isN⟩ := Int.eq_ofNat_of_zero_le (show 0 ≤ v.toInt by omega)
      rw [isN, digitLoop_eq 31 (by omega) (by decide), append_nil, Int.natAbs_natCast]
  | _ => rfl

theorem vsnprintfLoop_item (item : Item) (args : List Arg) (format : List UInt8)
    (room : out.length < limit) :
    vsnprintfLoop limit (item.args ++ args) out (item.format ++ format) =
      vsnprintfLoop limit args (put limit item.printed out) format := by
  cases item with
  | plain c ordinary =>
    show vsnprintfLoop limit args out (c :: format) = _
    rw [vsnprintfLoop.eq_def]
    simp [room, ordinary.2, Item.printed, Item.expansion]
  | decimal v => 
    simp [Item.format, Item.args, vsnprintfLoop, room, directive, ← putInt_eq (Nat.le_of_lt room)]
  | unknown d other =>
    simp [Item.format, Item.args, Item.printed, Item.expansion, vsnprintfLoop, room, directive,
      other, put]
  | _ => simp [Item.format, Item.args, Item.printed, Item.expansion, vsnprintfLoop, directive, room]

theorem vsnprintfLoop_eq (items : List Item) (lone : Bool) (fits : out.length ≤ limit) :
    vsnprintfLoop limit (items.flatMap Item.args) out (formatOf items lone) =
      if lone ∧ out.length + (items.flatMap Item.printed).length < limit then none
      else some (put limit (items.flatMap Item.printed) out) := by
  induction items generalizing out with
  | nil => cases lone <;> simp [formatOf, vsnprintfLoop, put]
  | cons item items ih =>
    by_cases room : out.length < limit
    · have now := @ih (put limit item.printed out) (by rw [put_eq fits]; simp; omega)
      rw [formatOf] at now
      rw [formatOf, flatMap_cons, flatMap_cons, flatMap_cons, append_assoc,
        vsnprintfLoop_item item _ _ room, now, put_put fits, length_append, put_eq fits]
      simp only [length_append, length_take]
      congr 1
      simp only [eq_iff_iff, and_congr_right_iff]
      omega
    · rw [put_full room, if_neg (by omega)]
      obtain ⟨c, rest, same⟩ : ∃ c rest, formatOf (item :: items) lone = c :: rest := by
        cases item <;> exact ⟨_, _, rfl⟩
      rw [same, vsnprintfLoop.eq_def]
      simp [room]

theorem take_printed_iff (items : List Item) (room : Nat) :
    (items.flatMap Item.printed).take room = (items.flatMap Item.expansion).take room ↔
      NoSmallest room items := by
  induction items generalizing room with
  | nil => exact iff_of_true rfl trivial
  | cons item items ih =>
    rw [flatMap_cons, flatMap_cons, NoSmallest, take_append, take_append]
    by_cases fair : item = .decimal Int32.minValue
    · subst fair
      have printed : (Item.decimal Int32.minValue).printed = [45, 40] := by decide
      have expansion : (Item.decimal Int32.minValue).expansion =
        [45, 50, 49, 52, 55, 52, 56, 51, 54, 52, 56] := by decide
      rw [printed, expansion]
      match room with
      | 0 => simp [← ih]
      | 1 => simp [← ih]
      | room + 2 => simp
    · rw [printed_eq fair, append_cancel_left_eq, ih]
      simp [fair]

/-- The first `size - 1` bytes are stored with a NUL behind them, and their number is returned. -/
def Prints (size : Nat) (items : List Item) (lone : Bool) : Prop :=
  let text := (items.flatMap Item.expansion).take (size - 1)
  vsnprintf size (formatOf items lone) (items.flatMap Item.args) =
    some (text ++ [0], (text.length : Int)) ∧
    (text ++ [0]).length ≤ size

/-- `vsnprintf` is right exactly when no `%` at the end and no smallest `int` is reached. -/
theorem vsnprintf_prints_iff (size : Nat) (items : List Item) (lone : Bool) (some : 0 < size)
    (word : size < 2 ^ 32) :
    Prints size items lone ↔
      (lone → size - 1 ≤ (items.flatMap Item.expansion).length) ∧ NoSmallest (size - 1) items ∧
        min (size - 1) (items.flatMap Item.expansion).length < 2 ^ 31 := by
  have sameRoom : ∀ text : List UInt8, text.take (size - 1) =
    (items.flatMap Item.expansion).take (size - 1) →
      (text.length < size - 1 ↔ (items.flatMap Item.expansion).length < size - 1) := by
    intro text same
    have := congrArg List.length same
    rw [length_take, length_take] at this
    omega
  unfold Prints vsnprintf
  rw [if_neg (by omega), vsnprintfLoop_eq items lone (Nat.zero_le _), put_eq (Nat.zero_le _)]
  simp only [nil_append, length_nil, Nat.sub_zero, Nat.zero_add]
  constructor
  · rintro ⟨prints, -⟩
    split at prints
    · cases prints
    · next reached =>
      obtain ⟨stored, returned⟩ := Prod.mk.inj (Option.some.inj prints)
      have same := append_cancel_right stored
      refine ⟨fun isLone => ?_, (take_printed_iff items _).mp same, ?_⟩
      · have := sameRoom _ same
        simp only [isLone, true_and] at reached
        omega
      · rw [same, Int.bmod_def, length_take] at returned
        split at returned <;> omega
  · rintro ⟨reached, fair, small⟩
    have same := (take_printed_iff items _).mpr fair
    rw [if_neg (fun ⟨isLone, short⟩ => absurd ((sameRoom _ same).mp short)
      (by have := reached isLone; omega)),
      Option.map_some, same, Int.bmod_eq_of_le (by omega) (by rw [length_take]; omega)]
    refine ⟨rfl, ?_⟩
    simp
    omega

/-- A text and a negative number, of which a buffer of four bytes takes three. -/
theorem vsnprintf_prints_iff_cut : Prints 4 [.text (some [104, 105]), .decimal (-42)] false :=
  (vsnprintf_prints_iff 4 _ false (by decide) (by decide)).mpr
    ⟨nofun,
      ⟨nofun, fun smallest => absurd (Item.decimal.inj smallest) (by decide), trivial⟩, by decide⟩

/-- The loop goes on behind the NUL of `"%"`. -/
theorem vsnprintf_reads_past : ¬ ∀ (size : Nat) (items : List Item) (lone : Bool),
    0 < size → size < 2 ^ 32 → Prints size items lone := by
  intro prints
  obtain ⟨none, -⟩ := prints 8 [] true (by decide) (by decide)
  cases none

theorem formatOf_cons (item : Item) (items : List Item) (lone : Bool) :
    formatOf (item :: items) lone = item.format ++ formatOf items lone := by
  simp [formatOf]

theorem format_spelled : ∀ format : List UInt8, 0 ∉ format →
    ∃ items lone, formatOf items lone = format
  | [], _ => ⟨[], false, rfl⟩
  | [c], ended => by
    by_cases isPercent : c = 37
    · exact ⟨[], true, isPercent ▸ rfl⟩
    · exact ⟨[.plain c ⟨fun isNul => ended (by simp [isNul]), isPercent⟩], false, rfl⟩
  | c :: d :: rest, ended => by
    simp only [mem_cons, not_or] at ended
    by_cases isPercent : c = 37
    · obtain ⟨items, lone, rfl⟩ := format_spelled rest ended.2.2
      obtain ⟨item, spelled⟩ : ∃ item : Item, item.format = [37, d] := by
        by_cases known : d = 100 ∨ d = 115 ∨ d = 99 ∨ d = 37
        · rcases known with rfl | rfl | rfl | rfl
          exacts [⟨.decimal 0, rfl⟩, ⟨.text none, rfl⟩, ⟨.char 0, rfl⟩, ⟨.percent, rfl⟩]
        · simp only [not_or] at known
          exact ⟨.unknown d ⟨fun isNul => ended.2.1 isNul.symm, known⟩, rfl⟩
      exact ⟨item :: items, lone, by rw [formatOf_cons, spelled, isPercent]; rfl⟩
    · obtain ⟨items, lone, same⟩ := format_spelled (d :: rest) (by simp [ended])
      exact ⟨.plain c ⟨fun isNul => ended.1 isNul.symm, isPercent⟩ :: items, lone, by
        rw [formatOf_cons, same]; rfl⟩

end M4KK1.Libc
