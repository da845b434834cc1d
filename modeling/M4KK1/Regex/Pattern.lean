import Mathlib.Logic.Relation
import M4KK1.Shell.Lists

/-!
# Patterns and their languages

The language of a pattern, and the reading that takes the longest repetition.
-/

namespace M4KK1.Regex

open M4KK1.Shell (Text)
open Relation

/-- A character or a range in a character class. -/
inductive ClassItem where
  | single (c : UInt8)
  | range (first last : UInt8)

/-- An atom that is not a group. -/
inductive Simple where
  | literal (c : UInt8)
  | escaped (c : UInt8)
  | dot
  | charClass (negated : Bool) (items : List ClassItem)
  | start
  | stop

/-- What stands behind an atom. -/
inductive Quant where
  | one | star | plus | opt
deriving DecidableEq

/-- A pattern: the atoms of a concatenation one after the other, or an alternation. -/
inductive Pattern where
  | last
  | simple (atom : Simple) (quant : Quant) (next : Pattern)
  | group (body : Pattern) (quant : Quant) (next : Pattern)
  | alt (first second : Pattern)

def ClassItem.spell : ClassItem → Text
  | .single c => [c]
  | .range first last => [first, 45, last]

def Simple.spell : Simple → Text
  | .literal c => [c]
  | .escaped c => [92, c]
  | .dot => [46]
  | .charClass negated items =>
    91 :: ((if negated then [94] else []) ++ items.flatMap ClassItem.spell ++ [93])
  | .start => [94]
  | .stop => [36]

def Quant.spell : Quant → Text
  | .one => []
  | .star => [42]
  | .plus => [43]
  | .opt => [63]

def Pattern.spell : Pattern → Text
  | .last => []
  | .simple atom quant next => atom.spell ++ quant.spell ++ next.spell
  | .group body quant next => 40 :: body.spell ++ 41 :: quant.spell ++ next.spell
  | .alt first second => first.spell ++ 124 :: second.spell

/-- The characters that do not stand for themselves: `( ) * + . ? [ \ ^ $ |`. -/
def special : Text := [40, 41, 42, 43, 46, 63, 91, 92, 94, 36, 124]

/-- An item can be told from the one before it and from the end of its class. -/
def ClassItem.Spelled : ClassItem → Prop
  | .single c => c ≠ 0 ∧ c ≠ 93
  | .range first last => first ≠ 0 ∧ first ≠ 93 ∧ last ≠ 0 ∧ last ≠ 93

/-- No `-` stands behind a single character, unless the class ends there. -/
def classSeparated : List ClassItem → Prop
  | .single _ :: .single d :: rest => (d = 45 → rest = []) ∧ classSeparated (.single d :: rest)
  | .single _ :: .range first last :: rest =>
    first ≠ 45 ∧ classSeparated (.range first last :: rest)
  | _ :: rest => classSeparated rest
  | [] => True

/-- The atom is written in the supported syntax. -/
def Simple.Spelled : Simple → Prop
  | .literal c => c ≠ 0 ∧ c ∉ special
  | .escaped c => c ≠ 0
  | .charClass negated items =>
    (∀ item ∈ items, item.Spelled) ∧ classSeparated items ∧
      (negated = false → (items.flatMap ClassItem.spell).head? ≠ some 94)
  | _ => True

mutual

/-- A concatenation in the supported syntax, up to its end. -/
def Pattern.Concat : Pattern → Prop
  | .last => True
  | .simple atom _ next => atom.Spelled ∧ next.Concat
  | .group body _ next => body.Supported ∧ next.Concat
  | .alt _ _ => False

/-- A pattern in the supported syntax: concatenations of at least one atom, with `|` between
them. -/
def Pattern.Supported : Pattern → Prop
  | .last => False
  | .simple atom _ next => atom.Spelled ∧ next.Concat
  | .group body _ next => body.Supported ∧ next.Concat
  | .alt first second => first ≠ .last ∧ first.Concat ∧ second.Supported

end

def ClassItem.Has (c : UInt8) : ClassItem → Prop
  | .single d => c = d
  | .range first last => first ≤ c ∧ c ≤ last

instance (c : UInt8) (item : ClassItem) : Decidable (item.Has c) := by
  cases item <;> unfold ClassItem.Has <;> infer_instance

/-- Where an atom takes a match from a position. -/
def Simple.step (text : Text) (p : Nat) : Simple → Option Nat
  | .literal c => if text[p]? = some c then some (p + 1) else none
  | .escaped c => if text[p]? = some c then some (p + 1) else none
  | .dot => text[p]?.bind fun c => if c ≠ 10 then some (p + 1) else none
  | .charClass negated items =>
    text[p]?.bind fun c => if (negated = true ↔ ¬∃ item ∈ items, item.Has c) then some (p + 1)
      else none
  | .start => if p = 0 then some p else none
  | .stop => if p = text.length then some p else none

/-- An atom matches between two positions. -/
def Simple.Step (text : Text) (atom : Simple) (p q : Nat) : Prop := atom.step text p = some q

/-- Steps as often as a quantifier allows. -/
def Quant.Repeats (R : Nat → Nat → Prop) : Quant → Nat → Nat → Prop
  | .one => R
  | .star => ReflTransGen R
  | .plus => TransGen R
  | .opt => ReflGen R

/-- The substring between two positions of the text is in the language of the pattern. -/
def Pattern.Matches (text : Text) : Pattern → Nat → Nat → Prop
  | .last, p, q => p = q
  | .simple atom quant next, p, q => ∃ m, quant.Repeats (atom.Step text) p m ∧ next.Matches text m q
  | .group body quant next, p, q =>
    ∃ m, quant.Repeats (body.Matches text) p m ∧ next.Matches text m q
  | .alt first second, p, q => first.Matches text p q ∨ second.Matches text p q

/-- Nothing more can be taken from a position, or only the empty substring. -/
def Rests (R : Nat → Nat → Prop) (p : Nat) : Prop := R p p ∨ ¬∃ q, R p q

/-- Steps as often as a quantifier allows and steps are possible. -/
def Quant.Settles (R : Nat → Nat → Prop) : Quant → Nat → Nat → Prop
  | .one, p, q => R p q
  | .star, p, q => ReflTransGen R p q ∧ Rests R q
  | .plus, p, q => TransGen R p q ∧ Rests R q
  | .opt, p, q => R p q ∨ (¬∃ m, R p m) ∧ q = p

/-- Where the pattern leads with the longest repetitions and no choice taken back. -/
def Pattern.Taken (text : Text) : Pattern → Nat → Nat → Prop
  | .last, p, q => p = q
  | .simple atom quant next, p, q => ∃ m, quant.Settles (atom.Step text) p m ∧ next.Taken text m q
  | .group body quant next, p, q => ∃ m, quant.Settles (body.Taken text) p m ∧ next.Taken text m q
  | .alt first second, p, q =>
    first.Taken text p q ∨ (¬∃ m, first.Taken text p m) ∧ second.Taken text p q

variable {R : Nat → Nat → Prop}

theorem Quant.Settles.repeats {S : Nat → Nat → Prop} (within : ∀ p q, R p q → S p q)
    {quant : Quant} {p q : Nat}
    (settles : quant.Settles R p q) : quant.Repeats S p q := by
  cases quant with
  | one => exact within p q settles
  | star => exact ReflTransGen.mono within p q settles.1
  | plus => exact TransGen.mono within p q settles.1
  | opt =>
    rcases settles with step | ⟨_, rfl⟩
    · exact .single (within p q step)
    · exact .refl

/-- What is taken is a match. -/
theorem Pattern.Taken.matches {text : Text} {pattern : Pattern} {p q : Nat}
    (taken : pattern.Taken text p q) :
    pattern.Matches text p q := by
  induction pattern generalizing p q with
  | last => exact taken
  | simple atom quant next ih =>
    obtain ⟨m, settles, rest⟩ := taken
    exact ⟨m, settles.repeats fun _ _ step => step, ih rest⟩
  | group body quant next ihBody ihNext =>
    obtain ⟨m, settles, rest⟩ := taken
    exact ⟨m, settles.repeats fun _ _ step => ihBody step, ihNext rest⟩
  | alt first second ihFirst ihSecond =>
    rcases taken with inFirst | ⟨_, inSecond⟩
    · exact .inl (ihFirst inFirst)
    · exact .inr (ihSecond inSecond)

/-- Steps go forward and stay in the text. -/
def Forward (text : Text) (R : Nat → Nat → Prop) : Prop :=
  ∀ p q, R p q → p ≤ q ∧ (p ≤ text.length → q ≤ text.length)

theorem Simple.forward (text : Text) (atom : Simple) : Forward text (atom.Step text) := by
  intro p q step
  have inText (c : UInt8) (here : text[p]? = some c) : p + 1 ≤ text.length :=
    (List.getElem?_eq_some_iff.mp here).1
  cases atom with
  | literal c =>
    rw [Simple.Step, Simple.step] at step
    split at step
    · next here =>
      cases step
      exact ⟨Nat.le_succ p, fun _ => inText c here⟩
    · cases step
  | escaped c =>
    rw [Simple.Step, Simple.step] at step
    split at step
    · next here =>
      cases step
      exact ⟨Nat.le_succ p, fun _ => inText c here⟩
    · cases step
  | dot =>
    obtain ⟨c, here, step⟩ := Option.bind_eq_some_iff.mp step
    split at step
    · cases step
      exact ⟨Nat.le_succ p, fun _ => inText c here⟩
    · cases step
  | charClass negated items =>
    obtain ⟨c, here, step⟩ := Option.bind_eq_some_iff.mp step
    split at step
    · cases step
      exact ⟨Nat.le_succ p, fun _ => inText c here⟩
    · cases step
  | start =>
    rw [Simple.Step, Simple.step] at step
    split at step
    · cases step
      exact ⟨Nat.le_refl p, id⟩
    · cases step
  | stop =>
    rw [Simple.Step, Simple.step] at step
    split at step
    · cases step
      exact ⟨Nat.le_refl p, id⟩
    · cases step

theorem Forward.reflTransGen {text : Text} (forward : Forward text R) :
    Forward text (ReflTransGen R) := by
  intro p q steps
  induction steps with
  | refl => exact ⟨Nat.le_refl p, id⟩
  | tail _ step ih =>
    have last := forward _ _ step
    exact ⟨Nat.le_trans ih.1 last.1, fun inside => last.2 (ih.2 inside)⟩

theorem Forward.repeats {text : Text} (forward : Forward text R) (quant : Quant) :
    Forward text (quant.Repeats R) := by
  intro p q steps
  cases quant with
  | one => exact forward p q steps
  | star => exact forward.reflTransGen p q steps
  | plus => exact forward.reflTransGen p q (TransGen.to_reflTransGen steps)
  | opt => exact forward.reflTransGen p q (ReflGen.to_reflTransGen steps)

/-- No pattern matches backwards. -/
theorem Pattern.forward (text : Text) (pattern : Pattern) :
    Forward text (pattern.Matches text) := by
  induction pattern with
  | last =>
    rintro p q rfl
    exact ⟨Nat.le_refl p, id⟩
  | simple atom quant next ih =>
    rintro p q ⟨m, steps, rest⟩
    have first := (atom.forward text).repeats quant _ _ steps
    have second := ih _ _ rest
    exact ⟨Nat.le_trans first.1 second.1, fun inside => second.2 (first.2 inside)⟩
  | group body quant next ihBody ihNext =>
    rintro p q ⟨m, steps, rest⟩
    have first := ihBody.repeats quant _ _ steps
    have second := ihNext _ _ rest
    exact ⟨Nat.le_trans first.1 second.1, fun inside => second.2 (first.2 inside)⟩
  | alt first second ihFirst ihSecond =>
    rintro p q (inFirst | inSecond)
    · exact ihFirst p q inFirst
    · exact ihSecond p q inSecond

end M4KK1.Regex
