import Mathlib.Data.List.TakeWhile
import Mathlib.Tactic.Ring
import M4KK1.Shell.Lists

/-!
# Numbers and files of the databases

Decimal numbers, and files written from their beginning without being truncated.
-/

namespace M4KK1.Shell

open List

/-- The digits of a number from the last one on, in an array of so many. -/
def decimalReversed : Nat → Nat → Text
  | 0, _ => []
  | places + 1, n =>
    UInt8.ofNat (48 + n % 10) :: if n / 10 = 0 then [] else decimalReversed places (n / 10)

variable (n : UInt32)

/-- The digits of a 32-bit number. -/
def decimal : Text := (decimalReversed 16 n.toNat).reverse

/-- A character is taken for the next digit of a number, or skipped. -/
def readDigit (c : UInt8) : UInt32 :=
  if 48 ≤ c ∧ c ≤ 57 then n * 10 + UInt32.ofNat (c.toNat - 48) else n

/-- The contents behind a write from the beginning. -/
def overwrite (old text : Text) : Text := text ++ old.drop text.length

@[simp] def linesFrom (begun : Text) : Text → List Text
  | [] => []
  | c :: rest => if c = 10 then begun :: linesFrom [] rest else linesFrom (begun ++ [c]) rest

/-- A field of a record: how it is read and how it is replaced. -/
structure Field (Record Value : Type) where
  get : Record → Value
  set : Record → Value → Record
  get_set : ∀ record value, get (set record value) = value
  set_set : ∀ record value last, set (set record value) last = set record last
  set_get : ∀ record, set record (get record) = record

namespace Field

variable {Record : Type} {put : Record → UInt8 → Record}

theorem foldl_text (field : Field Record Text) {limit : Nat}
    (put_eq : ∀ record c,
      put record c = if (field.get record).length < limit then
        field.set record (field.get record ++ [c]) else record)
    (record : Record) (text : Text) (begun : (field.get record).length ≤ limit) :
    text.foldl put record = field.set record ((field.get record ++ text).take limit) := by
  induction text generalizing record with
  | nil => rw [foldl_nil, append_nil, take_of_length_le begun, field.set_get]
  | cons c text ih =>
    rw [foldl_cons, put_eq]
    split
    · rename_i goesIn
      have longer : (field.get record ++ [c]).length ≤ limit := by
        rw [length_append, length_singleton]
        exact goesIn
      rw [ih _ (by rwa [field.get_set]), field.get_set, field.set_set, append_assoc,
        singleton_append]
    · rename_i full
      have isFull : (field.get record).length = limit := by omega
      rw [ih _ begun, take_append_of_le_length isFull.ge, take_append_of_le_length isFull.ge]

/-- A text field read from blank holds the text up to its limit. -/
theorem foldl_text_blank (field : Field Record Text) {limit : Nat}
    (put_eq : ∀ record c,
      put record c = if (field.get record).length < limit then
        field.set record (field.get record ++ [c]) else record)
    {record : Record} {text : Text} (isBlank : field.get record = []) :
    text.foldl put record = field.set record (text.take limit) := by
  rw [field.foldl_text put_eq record text (by rw [isBlank]; exact Nat.zero_le limit), isBlank,
    nil_append]

theorem foldl_number (field : Field Record UInt32)
    (put_eq : ∀ record c, put record c = field.set record (readDigit (field.get record) c))
    (record : Record) (text : Text) :
    text.foldl put record = field.set record (text.foldl readDigit (field.get record)) := by
  induction text generalizing record with
  | nil => rw [foldl_nil, foldl_nil, field.set_get]
  | cons c text ih => rw [foldl_cons, foldl_cons, put_eq, ih, field.get_set, field.set_set]

end Field

theorem linesFrom_plain (begun : Text) {plain : Text} (rest : Text) (oneLine : 10 ∉ plain) :
    linesFrom begun (plain ++ rest) = linesFrom (begun ++ plain) rest := by
  induction plain generalizing begun with
  | nil => rw [nil_append, append_nil]
  | cons c plain ih =>
    have other : c ≠ 10 := fun same => oneLine (same ▸ mem_cons_self)
    rw [cons_append, linesFrom, if_neg other, ih _ fun later => oneLine (mem_cons_of_mem c later),
      append_assoc, singleton_append]

theorem linesFrom_line (begun : Text) {plain : Text} (rest : Text) (oneLine : 10 ∉ plain) :
    linesFrom begun (plain ++ 10 :: rest) = (begun ++ plain) :: linesFrom [] rest := by
  rw [linesFrom_plain begun _ oneLine, linesFrom, if_pos rfl]

theorem linesFrom_length (begun text : Text) : (linesFrom begun text).length = text.count 10 := by
  induction text generalizing begun with
  | nil => rfl
  | cons c rest ih =>
    rw [linesFrom]
    split
    · next newline => rw [length_cons, ih, newline, count_cons_self]
    · next other => rw [ih, count_cons_of_ne other]

theorem takeWhile_noNul {text : Text} (noNul : 0 ∉ text) : text.takeWhile (· ≠ 0) = text :=
  takeWhile_eq_self_iff.mpr fun _ member => decide_eq_true fun same => noNul (same ▸ member)

theorem take_append_eq_left {α : Type} {xs ys : List α} {n : Nat} (fits : xs.length ≤ n) :
    (xs ++ ys).take n = xs ↔ xs.length = n ∨ ys = [] := by
  rw [take_append, take_of_length_le fits, append_right_eq_self, take_eq_nil_iff,
    Nat.sub_eq_zero_iff_le]
  exact or_congr ⟨fun full => Nat.le_antisymm fits full, fun full => full.ge⟩ Iff.rfl

theorem decimalReversed_digits (places n : Nat) :
    ∀ c ∈ decimalReversed places n, ∃ d < 10, c = UInt8.ofNat (48 + d) := by
  induction places generalizing n with
  | zero => exact fun c absent => nomatch absent
  | succ places ih =>
    intro c member
    rw [decimalReversed] at member
    rcases mem_cons.mp member with rfl | member
    · exact ⟨n % 10, Nat.mod_lt _ (by decide), rfl⟩
    · split at member
      · cases member
      · exact ih _ c member

theorem decimal_digits : ∀ c ∈ decimal n, ∃ d < 10, c = UInt8.ofNat (48 + d) :=
  fun c member => decimalReversed_digits _ _ c (mem_reverse.mp member)

theorem readDigit_digit {d : Nat} (isDigit : d < 10) :
    readDigit n (UInt8.ofNat (48 + d)) = n * 10 + UInt32.ofNat d := by
  have value : (UInt8.ofNat (48 + d)).toNat = 48 + d := by
    rw [UInt8.toNat_ofNat']
    omega
  have inRange : 48 ≤ UInt8.ofNat (48 + d) ∧ UInt8.ofNat (48 + d) ≤ 57 := by
    rw [UInt8.le_iff_toNat_le, UInt8.le_iff_toNat_le, value]
    exact ⟨Nat.le_add_right 48 d, show 48 + d ≤ 57 by omega⟩
  rw [readDigit, if_pos inRange, value, Nat.add_sub_cancel_left]

theorem decimalReversed_value (places n : Nat) (fits : n < 10 ^ places) :
    (decimalReversed places n).foldr (fun c v => readDigit v c) 0 = UInt32.ofNat n := by
  induction places generalizing n with
  | zero =>
    have isZero : n = 0 := by omega
    rw [isZero]
    rfl
  | succ places ih =>
    rw [decimalReversed, foldr_cons, readDigit_digit _ (Nat.mod_lt _ (by decide))]
    have rest : (if n / 10 = 0 then [] else decimalReversed places (n / 10)).foldr
      (fun c v => readDigit v c) 0 =
        UInt32.ofNat (n / 10) := by
      split
      · next isZero =>
        rw [isZero]
        rfl
      · refine ih _ ?_
        rw [Nat.pow_succ] at fits
        omega
    rw [rest]
    have ten : (10 : UInt32) = UInt32.ofNat 10 := rfl
    rw [ten, ← UInt32.ofNat_mul, ← UInt32.ofNat_add, Nat.mul_comm, Nat.div_add_mod]

theorem decimal_value : (decimal n).foldl readDigit 0 = n := by
  rw [decimal, foldl_reverse, decimalReversed_value _ _ (by have := n.toNat_lt; omega),
    UInt32.ofNat_toNat]

theorem decimal_plain {c : UInt8} (member : c ∈ decimal n) : 48 ≤ c ∧ c ≤ 57 := by
  obtain ⟨d, isDigit, rfl⟩ := decimal_digits n c member
  have value : (UInt8.ofNat (48 + d)).toNat = 48 + d := by
    rw [UInt8.toNat_ofNat']
    omega
  rw [UInt8.le_iff_toNat_le, UInt8.le_iff_toNat_le, value]
  exact ⟨Nat.le_add_right 48 d, show 48 + d ≤ 57 by omega⟩

theorem decimalReversed_length (places n : Nat) (fits : n < 10 ^ places) :
    ∀ limit, n < 10 ^ limit → 0 < limit → (decimalReversed places n).length ≤ limit := by
  induction places generalizing n with
  | zero => exact fun limit _ _ => Nat.zero_le limit
  | succ places ih =>
    intro limit small positive
    rw [decimalReversed, length_cons]
    split
    · exact positive
    · next more =>
      cases limit with
      | zero => cases positive
      | succ limit =>
        rw [Nat.pow_succ] at fits small
        refine Nat.succ_le_succ (ih _ (by omega) limit (by omega) ?_)
        by_contra none_
        have isZero : limit = 0 := by omega
        rw [isZero] at small
        omega

/-- A number of 32 bits has at most ten digits. -/
theorem decimal_length : (decimal n).length ≤ 10 := by
  have small := n.toNat_lt
  rw [decimal, length_reverse]
  exact decimalReversed_length 16 _ (by omega) 10 (by omega) (by omega)

end M4KK1.Shell
