import Mathlib.Algebra.Ring.Nat
import M4KK1.Regex.Compile

/-!
# What a search finds

`match_node` takes no choice back. Where that does not matter, a search finds the leftmost match.
-/

namespace M4KK1.Regex

open M4KK1.Shell (Text)
open Relation

/-- `^` or `$`. -/
def Simple.IsAnchor : Simple → Prop
  | .start | .stop => True
  | _ => False

instance (atom : Simple) : Decidable atom.IsAnchor := by
  cases atom <;> unfold Simple.IsAnchor <;> infer_instance

/-- A repetition tries its step at these positions. -/
def Quant.Tries (R : Nat → Nat → Prop) : Quant → Nat → Nat → Prop
  | .one, p, m => m = p
  | .opt, p, m => m = p
  | .star, p, m => ReflTransGen R p m
  | .plus, p, m => ReflTransGen R p m

/-- A repetition ends its concatenation, or its step has no match at the position; one that may then
be left out stands in front of a rest that takes the empty substring. -/
def Quant.Ends (quant : Quant) (S : Nat → Nat → Prop) (text : Text) (next : Pattern) (p : Nat) :
    Prop :=
  next = .last ∨ (¬∃ m, S p m) ∧ (quant.minRep = 0 → next.Taken text p p)

/-- Matching from a position never needs a choice that `match_node` does not take. -/
def Pattern.Clean (text : Text) : Pattern → Nat → Prop
  | .last, _ => True
  | .simple atom quant next, p =>
    if atom.IsAnchor then
      (quant.minRep = 0 → atom.Step text p p) ∧ ∀ m, atom.Step text p m → next.Clean text m
    else
      (quant ≠ .one → quant.Ends (atom.Step text) text next p) ∧
        (quant = .one → ∀ m, atom.Step text p m → next.Clean text m)
  | .group body quant next, p =>
    (quant ≠ .one → quant.Ends (body.Matches text) text next p) ∧
      (∀ m, quant.Tries (body.Taken text) p m → body.Clean text m) ∧
      (quant = .one → ∀ m, body.Taken text p m →
        next.Clean text m ∧
          ((∃ q, next.Matches text m q) ∨ ∀ other, body.Matches text p other →
            ¬∃ q, next.Matches text other q))
  | .alt first second, p =>
    first.Clean text p ∧ (¬∃ q, first.Matches text p q) ∧ second.Clean text p

/-- A matcher takes steps of `R`, and fails only where no step of `S` exists. -/
def Takes (text : Text) (R S : Nat → Nat → Prop) (tried : Nat → Prop) (once : Matcher) : Prop :=
  ∀ s, tried s.pos → s.pos ≤ text.length → ∃ matched t, once s = some (matched, t) ∧
    (matched = true → R s.pos t.pos) ∧ (matched = false → t.pos = s.pos ∧ ¬∃ q, S s.pos q)

section Repetition

variable {text : Text} {R S : Nat → Nat → Prop} {once : Matcher}

theorem repeatLoop_unbounded {tried : Nat → Prop} (within : ∀ p q, R p q → S p q)
    (forward : Forward text R)
    (takes : Takes text R S tried once) (slots : Nat) (positions : List Nat) (s : Matching)
    (reached : ∀ m, ReflTransGen R s.pos m → tried m) (inside : s.pos ≤ text.length)
    (enough : text.length - s.pos < slots) :
    ∃ stored t, repeatLoop once (-1) slots positions s = some (stored, t) ∧
      ReflTransGen R s.pos t.pos ∧ Rests R t.pos ∧ positions.length ≤ stored.length ∧
      (stored.length = positions.length → ¬∃ q, S s.pos q) ∧
      (positions.length < stored.length → TransGen R s.pos t.pos) := by
  induction slots generalizing positions s with
  | zero => cases enough
  | succ slots ih =>
    have goesOn : (-1 : Int) < 0 ∨ (positions.length : Int) < -1 := .inl (by decide)
    obtain ⟨matched, t, result, took, failed⟩ := takes s (reached s.pos .refl) inside
    rw [repeatLoop, if_pos goesOn, result, Option.bind_some]
    cases matched with
    | false =>
      obtain ⟨same, nothing⟩ := failed rfl
      have rests : Rests R t.pos := .inr fun ⟨q, step⟩ => nothing ⟨q, within _ _ (same ▸ step)⟩
      exact ⟨positions, t, rfl, same ▸ .refl, rests, Nat.le_refl _, fun _ => nothing,
        fun more => absurd more (Nat.lt_irrefl _)⟩
    | true =>
      have step := took rfl
      have ahead := forward _ _ step
      dsimp only
      rw [if_pos rfl]
      split
      · next same =>
        have longer : positions.length < (positions ++ [s.pos]).length := by
          rw [List.length_append]
          exact Nat.lt_succ_self _
        refine ⟨_, t, rfl, .single step, .inl (same.symm ▸ same ▸ step), Nat.le_of_lt longer,
          fun equal => ?_, fun _ => .single step⟩
        omega
      · next moved =>
        have closer : text.length - t.pos < slots := by
          have := ahead.2 inside
          omega
        obtain ⟨stored, u, loop, steps, rests, longer, -, -⟩ := ih (positions ++ [s.pos]) t
          (fun m later => reached m (.head step later)) (ahead.2 inside) closer
        rw [List.length_append, List.length_singleton] at longer
        refine ⟨stored, u, loop, .head step steps, rests, by omega, fun equal => by omega,
          fun _ => .head' step steps⟩

theorem repeatLoop_once (s : Matching) (slots : Nat) {matched : Bool} {t : Matching}
    (result : once s = some (matched, t)) :
    repeatLoop once 1 (slots + 1) [] s = some (if matched then [s.pos] else [], t) := by
  have goesOn : (1 : Int) < 0 ∨ (([] : List Nat).length : Int) < 1 := .inr (by decide)
  have stops (p : Nat) : ¬((1 : Int) < 0 ∨ (([p] : List Nat).length : Int) < 1) := by
    rintro (low | few)
    · exact absurd low (by decide)
    · rw [List.length_singleton] at few
      exact absurd few (by decide)
  rw [repeatLoop, if_pos goesOn, result, Option.bind_some]
  cases matched with
  | false => rfl
  | true =>
    dsimp only
    rw [if_pos rfl, if_pos rfl, List.nil_append]
    split
    · rfl
    · cases slots with
      | zero => rw [repeatLoop, if_neg (stops _)]
      | succ slots => rw [repeatLoop, if_neg (stops _)]

theorem matchRepetition_takes {quant : Quant} (repeated : quant ≠ .one)
    (within : ∀ p q, R p q → S p q)
    (forward : Forward text R) (small : text.length < 256) (s : Matching)
    (takes : Takes text R S (quant.Tries R s.pos) once) (inside : s.pos ≤ text.length) :
    ∃ matched t, matchRepetition once quant.minRep quant.maxRep true s = some (matched, t) ∧
      (matched = true → quant.Settles R s.pos t.pos) ∧
      (matched = false → ¬∃ q, quant.Repeats S s.pos q) := by
  cases quant with
  | one => exact absurd rfl repeated
  | opt =>
    obtain ⟨matched, t, result, took, failed⟩ := takes s rfl inside
    have enough (positions : List Nat) : ¬(positions.length : Int) < Quant.opt.minRep := by
      rw [Quant.minRep]
      omega
    rw [matchRepetition, Quant.maxRep, repeatLoop_once s 255 result, Option.bind_some]
    dsimp only
    rw [if_neg (enough _), if_pos rfl]
    refine ⟨true, t, rfl, fun _ => ?_, fun absent => (nomatch absent)⟩
    cases matched with
    | true => exact .inl (took rfl)
    | false =>
      obtain ⟨same, nothing⟩ := failed rfl
      exact .inr ⟨fun ⟨q, step⟩ => nothing ⟨q, within _ _ step⟩, same⟩
  | star =>
    obtain ⟨stored, t, loop, steps, rests, -, -, -⟩ :=
      repeatLoop_unbounded within forward takes 256 [] s
      (fun _ reached => reached) inside (by omega)
    have enough : ¬(stored.length : Int) < Quant.star.minRep := by
      rw [Quant.minRep]
      omega
    rw [matchRepetition, Quant.maxRep, loop, Option.bind_some]
    dsimp only
    rw [if_neg enough, if_pos rfl]
    exact ⟨true, t, rfl, fun _ => ⟨steps, rests⟩, fun absent => (nomatch absent)⟩
  | plus =>
    obtain ⟨stored, t, loop, -, rests, -, nothing, steps⟩ :=
      repeatLoop_unbounded within forward takes 256 [] s
      (fun _ reached => reached) inside (by omega)
    rw [matchRepetition, Quant.maxRep, loop, Option.bind_some]
    dsimp only
    split
    · next few =>
      rw [Quant.minRep] at few
      have noStep := nothing (by rw [List.length_nil]; omega)
      refine ⟨false, _, rfl, fun absent => (nomatch absent), fun _ ⟨q, repeats⟩ => ?_⟩
      obtain ⟨m, first, -⟩ := TransGen.head'_iff.mp repeats
      exact noStep ⟨m, first⟩
    · next enough =>
      rw [Quant.minRep] at enough
      refine ⟨true, t, rfl, fun _ => ⟨steps ?_, rests⟩, fun absent => (nomatch absent)⟩
      rw [List.length_nil]
      omega

end Repetition

theorem takeChar_eq (text : Text) (test : UInt8 → Bool) (next : Matcher) (s : Matching) :
    takeChar text test next s =
      match text[s.pos]?.bind fun c => if test c then some (s.pos + 1) else none with
      | some m => next { s with pos := m }
      | none => some (false, s) := by
  rw [takeChar]
  cases text[s.pos]? with
  | none => rfl
  | some c =>
    rw [Option.bind_some]
    dsimp only
    split <;> rfl

variable {atom : Simple} {text : Text} {quant : Quant} {s : Matching} {pattern : Pattern}

theorem matchOnce_simple (text : Text) (noAnchor : ¬atom.IsAnchor) (child next : Matcher)
    (s : Matching) :
    matchOnce text atom.kind child next s =
      match atom.step text s.pos with
      | some m => next { s with pos := m }
      | none => some (false, s) := by
  have literal (c : UInt8) :
      (text[s.pos]?.bind fun d => if decide (d = c) = true then some (s.pos + 1) else none) =
      if text[s.pos]? = some c then some (s.pos + 1) else none := by
    cases text[s.pos]? with
    | none => rfl
    | some d => simp only [Option.bind_some, decide_eq_true_eq, Option.some_inj]
  cases atom with
  | literal c => rw [Simple.kind, matchOnce, takeChar_eq, literal, Simple.step]
  | escaped c => rw [Simple.kind, matchOnce, takeChar_eq, literal, Simple.step]
  | dot =>
    rw [Simple.kind, matchOnce, takeChar_eq, Simple.step]
    simp only [decide_eq_true_eq]
  | charClass negated items =>
    have same (c : UInt8) : (if negated = true then !classSet items c else classSet items c) =
      true ↔
        (negated = true ↔ ¬∃ item ∈ items, item.Has c) := by
      cases negated <;> simp [classSet]
    rw [Simple.kind, matchOnce, takeChar_eq, Simple.step]
    simp only [same]
  | start => exact absurd trivial noAnchor
  | stop => exact absurd trivial noAnchor

theorem matchNode_anchor (text : Text) (anchor : atom.IsAnchor) (minRep maxRep : Int)
    (child next : Node)
    (s : Matching) (inside : s.pos ≤ text.length) :
    matchNode text (.mk atom.kind minRep maxRep true child next) s =
      if atom.step text s.pos = some s.pos then matchNode text next s else some (false, s) := by
  cases atom with
  | start =>
    rw [Simple.kind, matchNode, Simple.step]
    dsimp only
    by_cases atStart : s.pos = 0
    · rw [if_neg (not_not.mpr atStart), if_pos atStart, if_pos rfl]
    · rw [if_pos atStart, if_neg atStart, if_neg (Option.some_ne_none s.pos).symm]
  | stop =>
    rw [Simple.kind, matchNode, Simple.step]
    dsimp only
    by_cases atStop : s.pos = text.length
    · rw [if_neg (not_not.mpr (List.getElem?_eq_none (Nat.le_of_eq atStop.symm))), if_pos atStop,
        if_pos rfl]
    · have more : text[s.pos]? ≠ none := fun absent =>
        atStop (Nat.le_antisymm inside (List.getElem?_eq_none_iff.mp absent))
      rw [if_pos more, if_neg atStop, if_neg (Option.some_ne_none s.pos).symm]
  | literal c => cases anchor
  | escaped c => cases anchor
  | dot => cases anchor
  | charClass negated items => cases anchor

theorem anchor_stays (anchor : atom.IsAnchor) {p q : Nat} (step : atom.Step text p q) : q = p := by
  cases atom with
  | start =>
    rw [Simple.Step, Simple.step] at step
    split at step
    · exact (Option.some.inj step).symm
    · cases step
  | stop =>
    rw [Simple.Step, Simple.step] at step
    split at step
    · exact (Option.some.inj step).symm
    · cases step
  | literal c => cases anchor
  | escaped c => cases anchor
  | dot => cases anchor
  | charClass negated items => cases anchor

theorem anchor_steps_stay (anchor : atom.IsAnchor) {p q : Nat}
    (steps : ReflTransGen (atom.Step text) p q) : q = p := by
  induction steps with
  | refl => rfl
  | tail _ step ih => exact (anchor_stays anchor step).trans ih

theorem matchNode_atom (text : Text) {kind : Kind} (noAlt : kind ≠ .alt)
    (noStart : kind ≠ .anchorStart)
    (noStop : kind ≠ .anchorEnd) (quant : Quant) (child next : Node) :
    matchNode text (.mk kind quant.minRep quant.maxRep true child next) =
      if quant ≠ .one then
        matchRepetition (matchOnce text kind (matchNode text child) (matchNode text next))
          quant.minRep quant.maxRep true
      else matchOnce text kind (matchNode text child) (matchNode text next) := by
  have repeats : (quant.minRep ≠ 1 ∨ quant.maxRep ≠ 1) ↔ quant ≠ .one := by
    cases quant <;> decide
  cases kind with
  | alt => exact absurd rfl noAlt
  | anchorStart => exact absurd rfl noStart
  | anchorEnd => exact absurd rfl noStop
  | literal ch => simp only [matchNode, repeats]
  | dot => simp only [matchNode, repeats]
  | charClass set negated => simp only [matchNode, repeats]
  | group groupId => simp only [matchNode, repeats]

@[simp]
theorem setStart_pos (s : Matching) (id : Nat) : (s.setStart id).pos = s.pos := by
  rw [Matching.setStart]
  split <;> rfl

@[simp]
theorem setStop_pos (s : Matching) (id : Nat) : (s.setStop id).pos = s.pos := by
  rw [Matching.setStop]
  split <;> rfl

/-- A matcher takes the pattern from a position, or fails where the pattern has no match. -/
def Answers (text : Text) (pattern : Pattern) (s : Matching) (result : Option (Bool × Matching)) :
    Prop :=
  ∃ matched t, result = some (matched, t) ∧ (matched = true → pattern.Taken text s.pos t.pos) ∧
    (matched = false → ¬∃ q, pattern.Matches text s.pos q)

theorem answers_anchor (anchor : atom.IsAnchor) {next : Pattern}
    (inside : s.pos ≤ text.length) (clean : (Pattern.simple atom quant next).Clean text s.pos)
    (id : Nat)
    (answers : next.Clean text s.pos → Answers text next s (matchNode text (next.compiled id) s)) :
    Answers text (.simple atom quant next) s
      (matchNode text ((Pattern.simple atom quant next).compiled id) s) := by
  rw [Pattern.Clean, if_pos anchor] at clean
  rw [Pattern.compiled, matchNode_anchor text anchor _ _ _ _ s inside]
  split
  · next satisfied =>
    obtain ⟨matched, t, result, took, failed⟩ := answers (clean.2 _ satisfied)
    have stays (m : Nat) (repeats : quant.Repeats (atom.Step text) s.pos m) : m = s.pos := by
      cases quant with
      | one => exact anchor_stays anchor repeats
      | star => exact anchor_steps_stay anchor repeats
      | plus => exact anchor_steps_stay anchor repeats.to_reflTransGen
      | opt => exact anchor_steps_stay anchor repeats.to_reflTransGen
    have settles : quant.Settles (atom.Step text) s.pos s.pos := by
      cases quant with
      | one => exact satisfied
      | star => exact ⟨.refl, .inl satisfied⟩
      | plus => exact ⟨.single satisfied, .inl satisfied⟩
      | opt => exact .inl satisfied
    refine ⟨matched, t, result, fun isMatched => ⟨s.pos, settles, took isMatched⟩,
      fun isFailed => ?_⟩
    rintro ⟨q, m, repeats, rest⟩
    rw [stays m repeats] at rest
    exact failed isFailed ⟨q, rest⟩
  · next unsatisfied =>
    refine ⟨false, s, rfl, fun absent => absurd absent (by decide), fun _ => ?_⟩
    have noStep (q : Nat) : ¬atom.Step text s.pos q := fun step =>
      unsatisfied (anchor_stays anchor step ▸ step)
    rintro ⟨q, m, repeats, -⟩
    cases quant with
    | one => exact noStep m repeats
    | star => exact noStep _ (clean.1 rfl)
    | plus =>
      obtain ⟨first, step, -⟩ := TransGen.head'_iff.mp repeats
      exact noStep first step
    | opt => exact noStep _ (clean.1 rfl)

theorem kind_of_noAnchor (noAnchor : ¬atom.IsAnchor) :
    atom.kind ≠ .alt ∧ atom.kind ≠ .anchorStart ∧ atom.kind ≠ .anchorEnd := by
  cases atom with
  | start => exact absurd trivial noAnchor
  | stop => exact absurd trivial noAnchor
  | literal c =>
    exact ⟨fun same => (nomatch same), fun same => (nomatch same), fun same => (nomatch same)⟩
  | escaped c =>
    exact ⟨fun same => (nomatch same), fun same => (nomatch same), fun same => (nomatch same)⟩
  | dot =>
    exact ⟨fun same => (nomatch same), fun same => (nomatch same), fun same => (nomatch same)⟩
  | charClass negated items =>
    exact ⟨fun same => (nomatch same), fun same => (nomatch same), fun same => (nomatch same)⟩

theorem answers_repeated {R S : Nat → Nat → Prop} {once : Matcher}
    (small : text.length < 256) (repeated : quant ≠ .one) (within : ∀ p q, R p q → S p q)
    (forward : Forward text S)
    (inside : s.pos ≤ text.length) (takes : Takes text R S (quant.Tries R s.pos) once)
    (taken : ∀ q, quant.Settles R s.pos q → pattern.Taken text s.pos q)
    (matches_ : ∀ q, pattern.Matches text s.pos q → quant.Repeats S s.pos q) :
    Answers text pattern s (matchRepetition once quant.minRep quant.maxRep true s) := by
  obtain ⟨matched, t, result, took, failed⟩ := matchRepetition_takes repeated within
    (fun p q step => forward p q (within p q step)) small s takes inside
  exact ⟨matched, t, result, fun isMatched => taken _ (took isMatched),
    fun isFailed ⟨q, isMatch⟩ => failed isFailed ⟨q, matches_ q isMatch⟩⟩

/-- A repetition whose step fails at once goes on behind it, or fails. -/
theorem answers_untaken {once : Matcher} {t : Matching} (repeated : quant ≠ .one)
    (fails : once s = some (false, t)) (back : t.pos = s.pos)
    (taken : quant.minRep = 0 → pattern.Taken text s.pos s.pos)
    (noMatch : quant = .plus → ¬∃ q, pattern.Matches text s.pos q) :
    Answers text pattern s (matchRepetition once quant.minRep quant.maxRep true s) := by
  have unbounded : repeatLoop once (-1) 256 [] s = some ([], t) := by
    rw [repeatLoop, if_pos (.inl (by decide)), fails, Option.bind_some]
    rfl
  cases quant with
  | one => exact absurd rfl repeated
  | opt =>
    have loop : repeatLoop once 1 256 [] s = some ([], t) := repeatLoop_once s 255 fails
    rw [matchRepetition, Quant.maxRep, loop]
    exact ⟨true, t, rfl, fun _ => back.symm ▸ taken rfl, fun absent => absurd absent (by decide)⟩
  | star =>
    rw [matchRepetition, Quant.maxRep, unbounded]
    exact ⟨true, t, rfl, fun _ => back.symm ▸ taken rfl, fun absent => absurd absent (by decide)⟩
  | plus =>
    rw [matchRepetition, Quant.maxRep, unbounded]
    exact ⟨false, _, rfl, fun absent => absurd absent (by decide), fun _ => noMatch rfl⟩

/-- Without a step a repetition that may be left out settles where it stands. -/
theorem Quant.settles_untaken {R : Nat → Nat → Prop} {p : Nat} (repeated : quant ≠ .one)
    (optional : quant.minRep = 0) (none_ : ¬∃ m, R p m) : quant.Settles R p p := by
  cases quant with
  | one => exact absurd rfl repeated
  | star => exact ⟨.refl, .inr none_⟩
  | plus => cases optional
  | opt => exact .inr ⟨none_, rfl⟩

theorem Quant.plus_untaken {R : Nat → Nat → Prop} {p m : Nat} (isPlus : quant = .plus)
    (none_ : ¬∃ m, R p m) : ¬ quant.Repeats R p m := by
  subst isPlus
  intro repeats
  obtain ⟨first, step, -⟩ := TransGen.head'_iff.mp repeats
  exact none_ ⟨first, step⟩

theorem answers_simple (small : text.length < 256) (noAnchor : ¬atom.IsAnchor)
    {next : Pattern} (inside : s.pos ≤ text.length)
    (clean : (Pattern.simple atom quant next).Clean text s.pos) (id : Nat)
    (answers : ∀ t : Matching, t.pos ≤ text.length → next.Clean text t.pos →
      Answers text next t (matchNode text (next.compiled id) t)) :
    Answers text (.simple atom quant next) s
      (matchNode text ((Pattern.simple atom quant next).compiled id) s) := by
  rw [Pattern.Clean, if_neg noAnchor] at clean
  obtain ⟨noAlt, noStart, noStop⟩ := kind_of_noAnchor noAnchor
  rw [Pattern.compiled, matchNode_atom text noAlt noStart noStop]
  split
  · next repeated =>
    rcases clean.1 repeated with rfl | ⟨none_, taken⟩
    case inr =>
      have fails : atom.step text s.pos = none :=
        Option.eq_none_iff_forall_ne_some.mpr fun m step => none_ ⟨m, step⟩
      refine answers_untaken repeated (by rw [matchOnce_simple text noAnchor, fails]) rfl ?_ ?_
      · exact fun optional => ⟨_, Quant.settles_untaken repeated optional none_, taken optional⟩
      · rintro isPlus ⟨q, m, repeats, -⟩
        exact Quant.plus_untaken isPlus none_ repeats
    refine answers_repeated small repeated (fun _ _ step => step) (atom.forward text) inside ?_
      (fun q settles => ⟨q, settles, rfl⟩) (by rintro q ⟨m, repeats, rfl⟩; exact repeats)
    intro t _ _
    rw [matchOnce_simple text noAnchor]
    cases step : atom.step text t.pos with
    | none =>
      refine ⟨false, t, rfl, fun absent => absurd absent (by decide), fun _ => ⟨rfl, ?_⟩⟩
      rintro ⟨q, taken⟩
      rw [Simple.Step, step] at taken
      cases taken
    | some m =>
      exact ⟨true, { t with pos := m }, rfl, fun _ => step, fun absent => absurd absent (by decide)⟩
  · next single =>
    obtain rfl := not_not.mp single
    rw [matchOnce_simple text noAnchor]
    cases step : atom.step text s.pos with
    | none =>
      refine ⟨false, s, rfl, fun absent => absurd absent (by decide), fun _ => ?_⟩
      rintro ⟨q, m, taken, -⟩
      rw [Quant.Repeats, Simple.Step, step] at taken
      cases taken
    | some m =>
      obtain ⟨matched, t, result, took, failed⟩ :=
        answers { s with pos := m } ((atom.forward text _ _ step).2 inside)
        (clean.2 rfl m step)
      refine ⟨matched, t, result, fun isMatched => ⟨m, step, took isMatched⟩, fun isFailed => ?_⟩
      rintro ⟨q, other, taken, rest⟩
      rw [Quant.Repeats, Simple.Step, step] at taken
      cases taken
      exact failed isFailed ⟨q, rest⟩

theorem answers_group (small : text.length < 256) {body next : Pattern}
    (inside : s.pos ≤ text.length) (clean : (body.group quant next).Clean text s.pos) (id : Nat)
    (answersBody : ∀ (bodyId : Nat) (t : Matching), t.pos ≤ text.length → body.Clean text t.pos →
      Answers text body t (matchNode text (body.compiled bodyId) t))
    (answersNext : ∀ (nextId : Nat) (t : Matching), t.pos ≤ text.length → next.Clean text t.pos →
      Answers text next t (matchNode text (next.compiled nextId) t)) :
    Answers text (body.group quant next) s
      (matchNode text ((body.group quant next).compiled id) s) := by
  rw [Pattern.Clean] at clean
  obtain ⟨ends, cleanBody, cleanNext⟩ := clean
  rw [Pattern.compiled,
    @matchNode_atom text (.group id) Kind.noConfusion Kind.noConfusion Kind.noConfusion]
  split
  · next repeated =>
    rcases ends repeated with rfl | ⟨none_, optional⟩
    case inr =>
      have here : quant.Tries (body.Taken text) s.pos s.pos := by
        cases quant <;> first | exact .refl | rfl
      obtain ⟨matched, u, result, took, failed⟩ := answersBody (id + 1) (s.setStart id)
        (by rw [setStart_pos]; exact inside) (by rw [setStart_pos]; exact cleanBody _ here)
      rw [setStart_pos] at took failed
      cases matched with
      | true => exact absurd ⟨_, (took rfl).matches⟩ none_
      | false =>
        have untaken : ¬∃ m, body.Taken text s.pos m := by
          rintro ⟨m, taken⟩
          exact none_ ⟨m, taken.matches⟩
        refine answers_untaken repeated (t := { u with pos := s.pos }) ?_ rfl ?_ ?_
        · rw [matchOnce]
          dsimp only
          rw [result, Option.bind_some]
          rfl
        · exact fun mayEnd => ⟨_, Quant.settles_untaken repeated mayEnd untaken, optional mayEnd⟩
        · rintro isPlus ⟨q, m, repeats, -⟩
          exact Quant.plus_untaken isPlus none_ repeats
    refine answers_repeated small repeated (fun _ _ taken => taken.matches) (body.forward text)
      inside ?_
      (fun q settles => ⟨q, settles, rfl⟩) (by rintro q ⟨m, repeats, rfl⟩; exact repeats)
    intro t tried inText
    obtain ⟨matched, u, result, took, failed⟩ :=
      answersBody (id + 1) (t.setStart id) (by rw [setStart_pos]; exact inText)
      (by rw [setStart_pos]; exact cleanBody _ tried)
    rw [setStart_pos] at took failed
    rw [matchOnce]
    dsimp only
    rw [result, Option.bind_some]
    cases matched with
    | true =>
      refine ⟨true, u.setStop id, rfl, fun _ => ?_, fun absent => absurd absent (by decide)⟩
      rw [setStop_pos]
      exact took rfl
    | false =>
      exact ⟨false, _, rfl, fun absent => absurd absent (by decide), fun _ => ⟨rfl, failed rfl⟩⟩
  · next single =>
    obtain rfl := not_not.mp single
    obtain ⟨matched, u, result, took, failed⟩ :=
      answersBody (id + 1) (s.setStart id) (by rw [setStart_pos]; exact inside)
      (by rw [setStart_pos]; exact cleanBody _ rfl)
    rw [setStart_pos] at took failed
    rw [matchOnce]
    dsimp only
    rw [result, Option.bind_some]
    cases matched with
    | true =>
      have taken := took rfl
      obtain ⟨cleanThere, orElse⟩ := cleanNext rfl u.pos taken
      obtain ⟨matched', v, result', took', failed'⟩ :=
        answersNext (id + 1 + body.groupCount) (u.setStop id)
        (by rw [setStop_pos]; exact (body.forward text _ _ taken.matches).2 inside)
        (by rw [setStop_pos]; exact cleanThere)
      rw [setStop_pos] at took' failed'
      refine ⟨matched', v, result', fun isMatched => ⟨u.pos, taken, took' isMatched⟩,
        fun isFailed => ?_⟩
      rintro ⟨q, other, isMatch, rest⟩
      exact (orElse.resolve_left (failed' isFailed)) other isMatch ⟨q, rest⟩
    | false =>
      refine ⟨false, _, rfl, fun absent => absurd absent (by decide), fun _ => ?_⟩
      rintro ⟨q, m, isMatch, -⟩
      exact failed rfl ⟨m, isMatch⟩

theorem matchNode_answers (small : text.length < 256) (pattern : Pattern) (id : Nat) (s : Matching)
    (inside : s.pos ≤ text.length) (clean : pattern.Clean text s.pos) :
    Answers text pattern s (matchNode text (pattern.compiled id) s) := by
  induction pattern generalizing id s with
  | last => exact ⟨true, s, rfl, fun _ => rfl, fun absent => absurd absent (by decide)⟩
  | simple atom quant next ih =>
    by_cases anchor : atom.IsAnchor
    · exact answers_anchor anchor inside clean id (ih id s inside)
    · exact answers_simple small anchor inside clean id fun t => ih id t
  | group body quant next ihBody ihNext => exact answers_group small inside clean id ihBody ihNext
  | alt first second ihFirst ihSecond =>
    obtain ⟨cleanFirst, noFirst, cleanSecond⟩ := clean
    obtain ⟨matched, t, result, took, -⟩ := ihFirst id s inside cleanFirst
    rw [Pattern.compiled, matchNode]
    dsimp only
    rw [result, Option.bind_some]
    cases matched with
    | true => exact absurd ⟨_, (took rfl).matches⟩ noFirst
    | false =>
      obtain ⟨matched', u, result', took', failed'⟩ :=
        ihSecond (id + first.groupCount) { t with pos := s.pos } inside cleanSecond
      dsimp only
      rw [if_neg Bool.false_ne_true, result', Option.map_some]
      refine ⟨matched', _, rfl, fun isMatched => ?_, fun isFailed => ?_⟩
      · rw [if_pos isMatched]
        exact .inr ⟨fun taken => noFirst (taken.imp fun m => Pattern.Taken.matches),
          took' isMatched⟩
      · rintro ⟨q, inFirst | inSecond⟩
        · exact noFirst ⟨q, inFirst⟩
        · exact failed' isFailed ⟨q, inSecond⟩

theorem regexMaxGroups_pos : 0 < regexMaxGroups := by decide

def Pattern.MatchesAt (text : Text) (pattern : Pattern) (p : Nat) : Prop :=
  ∃ q, pattern.Matches text p q

/-- `regex_search` finds a substring of the language that starts as far left as possible. -/
def Found (text : Text) (pattern : Pattern)
    (result : Option (Int × (Fin regexMaxGroups → RegexMatch))) : Prop :=
  ∃ code groups, result = some (code, groups) ∧
    (code = 1 ↔ ∃ p ≤ text.length, pattern.MatchesAt text p) ∧
    (code = 1 →
      pattern.Matches text (groups ⟨0, regexMaxGroups_pos⟩).start
        (groups ⟨0, regexMaxGroups_pos⟩).stop ∧
        ∀ p < (groups ⟨0, regexMaxGroups_pos⟩).start, ¬pattern.MatchesAt text p)

/-- Nothing goes wrong up to the leftmost match. -/
def SearchClean (text : Text) (pattern : Pattern) : Prop :=
  ∀ p ≤ text.length, (∀ before < p, ¬pattern.MatchesAt text before) → pattern.Clean text p

theorem searchFrom_match (left : Nat) {p : Nat} {t : Matching}
    {groups : Fin regexMaxGroups → RegexMatch} (inText : p ≤ text.length)
    (notBefore : ∀ before < p, ¬pattern.MatchesAt text before)
    (result : matchNode text (pattern.compiled 0) ⟨p, groups⟩ = some (true, t))
    (taken : pattern.Taken text p t.pos) :
    Found text pattern (searchFrom text (pattern.compiled 0) left p groups) := by
  have returns : searchFrom text (pattern.compiled 0) left p groups =
      some (1, Function.update t.groups ⟨0, by decide⟩ ⟨p, t.pos⟩) := by
    rw [searchFrom, result, Option.bind_some]
    rfl
  refine ⟨1, _, returns, ⟨fun _ => ⟨p, inText, t.pos, taken.matches⟩, fun _ => rfl⟩, fun _ => ?_⟩
  rw [Function.update_self]
  exact ⟨taken.matches, notBefore⟩

theorem searchFrom_found (small : text.length < 256) (clean : SearchClean text pattern)
    (left p : Nat) (groups : Fin regexMaxGroups → RegexMatch)
    (split : p + left = text.length) (notBefore : ∀ before < p, ¬pattern.MatchesAt text before) :
    Found text pattern (searchFrom text (pattern.compiled 0) left p groups) := by
  induction left generalizing p groups with
  | zero =>
    have inText : p ≤ text.length := Nat.le_of_eq split
    obtain ⟨matched, t, result, took, failed⟩ :=
      matchNode_answers small pattern 0 ⟨p, groups⟩ inText
      (clean p inText notBefore)
    cases matched with
    | true => exact searchFrom_match 0 inText notBefore result (took rfl)
    | false =>
      have returns : searchFrom text (pattern.compiled 0) 0 p groups = some (0, t.groups) := by
        rw [searchFrom, result, Option.bind_some]
        rfl
      refine ⟨0, t.groups, returns, ⟨fun isOne => absurd isOne (by decide), ?_⟩,
        fun isOne => absurd isOne (by decide)⟩
      rintro ⟨before, inside, found⟩
      rcases Nat.lt_or_eq_of_le inside with earlier | same
      · exact absurd found (notBefore before (by omega))
      · have here : before = p := by omega
        exact absurd (here ▸ found) (failed rfl)
  | succ left ih =>
    have inText : p ≤ text.length := by omega
    obtain ⟨matched, t, result, took, failed⟩ :=
      matchNode_answers small pattern 0 ⟨p, groups⟩ inText
      (clean p inText notBefore)
    cases matched with
    | true => exact searchFrom_match (left + 1) inText notBefore result (took rfl)
    | false =>
      have goesOn : searchFrom text (pattern.compiled 0) (left + 1) p groups =
          searchFrom text (pattern.compiled 0) left (p + 1) t.groups := by
        rw [searchFrom, result, Option.bind_some]
        rfl
      rw [goesOn]
      refine ih (p + 1) t.groups (by omega) fun before earlier => ?_
      rcases Nat.lt_succ_iff_lt_or_eq.mp earlier with before' | rfl
      · exact notBefore before before'
      · exact failed rfl

/-- The pattern compiles and the search finds the leftmost match. -/
def SearchCorrect (text : Text) (pattern : Pattern) : Prop :=
  ∃ root, regexCompile pattern.spell = some (0, root) ∧ Found text pattern (regexSearch root text)

/-- The leftmost match of a supported pattern is found where nothing goes wrong before it. -/
theorem regex_search_correct {pattern : Pattern} (supported : pattern.Supported)
    (fits : pattern.nodeCount ≤ regexMaxNodes) {text : Text} (small : text.length < 256)
    (plain : pattern.Plain)
    (clean : SearchClean text pattern) : SearchCorrect text pattern :=
  ⟨pattern.compiled 0, regexCompile_spell supported plain fits,
    searchFrom_found small clean text.length 0 _ (Nat.zero_add _) fun _ absurdly =>
      absurd absurdly (Nat.not_lt_zero _)⟩

/-- The pattern `x+y|ab*`. -/
def eitherRepeated : Pattern :=
  .alt (.simple (.literal 120) .plus (.simple (.literal 121) .one .last))
    (.simple (.literal 97) .one (.simple (.literal 98) .star .last))

/-- On `cabb` the repeated `x` has no step, so its copied link is never followed. -/
theorem regex_search_eitherRepeated : SearchCorrect [99, 97, 98, 98] eitherRepeated := by
  have supported : eitherRepeated.Supported :=
    ⟨Pattern.noConfusion, ⟨⟨by decide, by decide⟩, ⟨by decide, by decide⟩, trivial⟩,
      ⟨by decide, by decide⟩, ⟨by decide, by decide⟩, trivial⟩
  have noX (p : Nat) : ¬∃ m, (Simple.literal 120).Step [99, 97, 98, 98] p m := by
    rintro ⟨m, step⟩
    rw [Simple.Step, Simple.step] at step
    split at step
    · next here => exact absurd (List.mem_of_getElem? here) (by decide)
    · cases step
  have clean (p : Nat) : eitherRepeated.Clean [99, 97, 98, 98] p := by
    refine ⟨⟨fun _ => .inr ⟨noX p, fun optional => absurd optional (by decide)⟩,
      fun single => absurd single (by decide)⟩, ?_, fun repeated => absurd rfl repeated,
      fun _ _ _ => ⟨fun _ => .inl rfl, fun single => absurd single (by decide)⟩⟩
    rintro ⟨q, m, repeats, -⟩
    exact Quant.plus_untaken rfl (noX p) repeats
  exact regex_search_correct supported (by decide) (by decide)
    ⟨⟨trivial, trivial, trivial⟩, trivial, trivial, trivial⟩ fun p _ _ => clean p

/-- The pattern `a|b`. -/
def eitherLetter : Pattern :=
  .alt (.simple (.literal 97) .one .last) (.simple (.literal 98) .one .last)

/-- The search for `a|b` in `a` finds nothing. -/
theorem first_alternative_not_found :
    ¬∀ (pattern : Pattern) (text : Text), pattern.Supported → pattern.nodeCount ≤ regexMaxNodes →
    text.length < 256 →
      SearchCorrect text pattern := by
  intro always
  have supported : eitherLetter.Supported :=
    ⟨fun same => (nomatch same), ⟨⟨by decide, by decide⟩, trivial⟩, ⟨by decide, by decide⟩, trivial⟩
  obtain ⟨root, compiles, code, groups, result, iff, -⟩ :=
    always eitherLetter [97] supported (by decide) (by decide)
  have nodes := regexCompile_spell supported ⟨⟨trivial, trivial⟩, trivial, trivial⟩ (by decide)
  rw [nodes] at compiles
  cases compiles
  have nothing : regexSearch (eitherLetter.compiled 0) [97] = some (0, fun _ => ⟨0, 0⟩) := rfl
  rw [nothing] at result
  cases result
  exact absurd (iff.mpr ⟨0, by decide, 1, .inl ⟨1, rfl, rfl⟩⟩) (by decide)

end M4KK1.Regex
