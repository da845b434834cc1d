import M4KK1.Calc.Expressions
import Mathlib.Data.List.TakeWhile

/-!
# Where `calc` stops

Each token takes a part of the text, so every expression gets a value. The loop over a line does not
stop everywhere: the end of an expression is looked for in front of a newline, and the newline
stays.
-/

namespace M4KK1.Calc

open List

variable {real : Fn → BitVec 64 → BitVec 64} {scale fuel : Nat} {m : Memory} {v : BitVec 64}
    {s : List UInt8}

/-- A token other than the end of the text takes a byte of it at least. -/
def Takes (s : List UInt8) (r : Token × List UInt8) : Prop :=
  r.2.length + (if r.1 = .eof then 0 else 1) ≤ s.length

theorem takes_of_lt {r : Token × List UInt8} (less : r.2.length < s.length) : Takes s r := by
  unfold Takes
  split <;> omega

theorem nextToken_takes : Takes s (nextToken scale s) := by
  have shorter (p : UInt8 → Bool) (rest : List UInt8) : (rest.dropWhile p).length ≤ rest.length :=
    (dropWhile_sublist p).length_le
  suffices takes : Takes (s.dropWhile isWs) (nextToken scale s) from le_trans takes (shorter isWs s)
  unfold nextToken
  dsimp only
  generalize s.dropWhile isWs = s
  cases s with
  | nil => exact le_refl 0
  | cons c rest =>
    dsimp only
    have whole := shorter isDigit rest
    have ends : Takes (c :: rest) (.eof, c :: rest) := le_refl _
    split
    · exact ends
    split
    · next digit =>
      rw [dropWhile_cons_of_pos digit]
      split
      · next rest' isRest =>
        rw [isRest, length_cons] at whole
        exact takes_of_lt
          (Nat.lt_succ_of_le ((shorter isDigit rest').trans (Nat.le_of_succ_le whole)))
      · exact takes_of_lt (Nat.lt_succ_of_le whole)
    split
    · split
      · exact ends
      · exact takes_of_lt (Nat.lt_succ_of_le whole)
    split
    · next lower =>
      rw [dropWhile_cons_of_pos lower]
      exact takes_of_lt (Nat.lt_succ_of_le (shorter isLower rest))
    split
    · exact ends
    · exact takes_of_lt (Nat.lt_succ_self _)

/-- The bytes that are not read yet, and one for a token that is not used up. -/
def Evaluator.left (k : Evaluator) : Nat := k.rest.length + if k.cur = .eof then 0 else 1

theorem left_advance {k : Evaluator} (notEof : k.cur ≠ .eof) : (advance scale k).left < k.left := by
  refine Nat.lt_of_le_of_lt nextToken_takes ?_
  rw [Evaluator.left, if_neg notEof]
  exact Nat.lt_succ_self _

/-- A value comes out, and no more is left to read than before. -/
def Ends (bound : Nat) (r : Option (BitVec 64 × Evaluator)) : Prop :=
  ∃ v k, r = some (v, k) ∧ k.left ≤ bound

variable (real scale) in
structure AllEnd (fuel : Nat) : Prop where
  primary (k : Evaluator) : 8 * k.left < fuel → Ends k.left (parsePrimary real scale fuel k)
  unary (k : Evaluator) : 8 * k.left + 1 < fuel → Ends k.left (parseUnary real scale fuel k)
  power (k : Evaluator) : 8 * k.left + 2 < fuel → Ends k.left (parsePower real scale fuel k)
  factors (v : BitVec 64) (k : Evaluator) : 8 * k.left + 3 < fuel →
      Ends k.left (termLoop real scale fuel v k)
  term (k : Evaluator) : 8 * k.left + 4 < fuel → Ends k.left (parseTerm real scale fuel k)
  summands (v : BitVec 64) (k : Evaluator) : 8 * k.left + 5 < fuel →
      Ends k.left (exprLoop real scale fuel v k)
  expr (k : Evaluator) : 8 * k.left + 6 < fuel → Ends k.left (parseExpr real scale fuel k)

theorem Ends.bind {bound bound' : Nat} {r : Option (BitVec 64 × Evaluator)} (ends : Ends bound r)
    {next : BitVec 64 × Evaluator → Option (BitVec 64 × Evaluator)}
    (next_ends : ∀ v k, k.left ≤ bound → Ends bound' (next (v, k))) :
    Ends bound' (r.bind next) := by
  obtain ⟨v, k, rfl, less⟩ := ends
  exact next_ends v k less

theorem Ends.mono {bound bound' : Nat} {r : Option (BitVec 64 × Evaluator)} (ends : Ends bound r)
    (le : bound ≤ bound') : Ends bound' r := by
  obtain ⟨v, k, rfl, less⟩ := ends
  exact ⟨v, k, rfl, less.trans le⟩

theorem ends_value {bound : Nat} {k : Evaluator} (le : k.left ≤ bound) : Ends bound (some (v, k)) :=
  ⟨v, k, rfl, le⟩

theorem allEnd (fuel : Nat) : AllEnd real scale fuel := by
  induction fuel with
  | zero => constructor <;> intros <;> contradiction
  | succ fuel ih =>
    have after {k : Evaluator} {t : Token} (is : k.cur = t) (notEof : t ≠ .eof) :
        (advance scale k).left < k.left :=
      left_advance (is ▸ notEof)
    constructor
    · intro k enough
      obtain ⟨t, rest, mem⟩ := k
      cases t with
      | num n => exact ends_value (after rfl (by simp)).le
      | ans => exact ends_value (after rfl (by simp)).le
      | var idx =>
        have less := @after ⟨.var idx, rest, mem⟩ _ rfl (by simp)
        change Ends _ (if (advance scale _).cur = .eq then (parseExpr real scale fuel _).bind _
          else some _)
        split
        · next assigns =>
          have less' := after assigns (by decide)
          exact (ih.expr _ (by omega)).bind fun v k' le => ends_value (show k'.left ≤ _ by omega)
        · exact ends_value less.le
      | lparen =>
        have less := @after ⟨.lparen, rest, mem⟩ _ rfl (by simp)
        refine (ih.expr _ (by omega)).bind fun v k' le => ?_
        dsimp only
        split
        · next closed =>
          have less' := after closed (by decide)
          exact ends_value (by omega)
        · exact ends_value (show k'.left ≤ _ by omega)
      | fn f =>
        have less := @after ⟨.fn f, rest, mem⟩ _ rfl (by simp)
        have opened : (if (advance scale ⟨.fn f, rest, mem⟩).cur = .lparen then
            advance scale (advance scale ⟨.fn f, rest, mem⟩)
              else advance scale ⟨.fn f, rest, mem⟩).left ≤
              (advance scale ⟨.fn f, rest, mem⟩).left := by
          split
          · next opens => exact (after opens (by decide)).le
          · exact le_rfl
        refine (ih.expr _ (by omega)).bind fun v k' le => ends_value ?_
        split
        · next closed =>
          have less' := after closed.2 (by decide)
          omega
        · omega
      | _ => exact ends_value le_rfl
    · intro k enough
      rw [parseUnary]
      split
      · next minus =>
        have less := after minus (by decide)
        exact (ih.unary _ (by omega)).bind fun v k' le => ends_value (by omega)
      split
      · next plus =>
        have less := after plus (by decide)
        exact (ih.unary _ (by omega)).mono less.le
      · exact ih.primary k (by omega)
    · intro k enough
      rw [parsePower]
      refine (ih.unary k (by omega)).bind fun v k' le => ?_
      dsimp only
      split
      · next pow =>
        have less := after pow (by decide)
        exact (ih.unary _ (by omega)).bind fun w k'' le' => ends_value (show k''.left ≤ _ by omega)
      · exact ends_value le
    · intro v k enough
      rw [termLoop]
      split
      · exact ends_value le_rfl
      · next op isOp =>
        have less : (advance scale k).left < k.left :=
          left_advance fun eof => by simp [eof, termOp] at isOp
        refine (ih.power _ (by omega)).bind fun r k' le => ?_
        have goes_on (v : BitVec 64) (k'' : Evaluator) (same : k''.left = k'.left) :
            Ends k.left (termLoop real scale fuel v k'') :=
              (ih.factors v k'' (by omega)).mono (by omega)
        dsimp only
        split
        · exact goes_on _ k' rfl
        split
        · exact ends_value (show k'.left ≤ _ by omega)
        · exact goes_on 0 _ rfl
    · intro k enough
      rw [parseTerm]
      exact (ih.power k (by omega)).bind fun v k' le => (ih.factors v k' (by omega)).mono le
    · intro v k enough
      rw [exprLoop]
      split
      · next sign =>
        have less : (advance scale k).left < k.left :=
          sign.elim (after · (by decide)) (after · (by decide))
        refine (ih.term _ (by omega)).bind fun r k' le => ?_
        exact (ih.summands _ k' (by omega)).mono (by omega)
      · exact ends_value le_rfl
    · intro k enough
      rw [parseExpr]
      exact (ih.term k (by omega)).bind fun v k' le => (ih.summands v k' (by omega)).mono le

/-- Every text gets a value. -/
theorem evalExpr_ends (s : List UInt8) (m : Memory) : ∃ r, evalExpr real scale s m = some r := by
  have enough : (reading scale s { m with evalError := false }).left ≤ s.length := nextToken_takes
  obtain ⟨v, k, parsed, -⟩ :=
    (@allEnd real scale (8 * (s.length + 1))).expr (reading scale s { m with evalError := false })
      (by omega)
  refine ⟨(v, k.mem), ?_⟩
  change (parseExpr real scale _ _).bind _ = _
  rw [parsed]
  rfl

/-- In front of the end of a line the loop stays where it is. -/
theorem evalLoop_newline (newline : s.head? = some 10) (fuel : Nat) (v : BitVec 64) (m : Memory) :
    evalLoop real scale fuel s v m = none := by
  obtain ⟨s, rfl⟩ := head?_eq_some_iff.mp newline
  induction fuel generalizing v m with
  | zero => rfl
  | succ fuel ih =>
    obtain ⟨r, evaluated⟩ := @evalExpr_ends real scale (10 :: s) m
    rw [evalLoop, dropWhile_cons_of_neg (by decide), if_neg (by simp)]
    change (evalExpr real scale (10 :: s) m).bind _ = _
    rw [evaluated]
    exact ih r.1 r.2

def isComment (piece : List UInt8) : Bool := (piece.dropWhile isWs).head? = some 35

/-- No newline stands in front of the first comment; comments begin where expressions do. -/
def Returns (pieces : List (List UInt8)) : Prop :=
  ∀ piece ∈ pieces.takeWhile (!isComment ·), 10 ∉ piece

theorem returns_nil : Returns ([].splitOn 59) := by
  unfold Returns
  decide

/-- The text up to the first semicolon. -/
theorem exists_piece (s : List UInt8) :
    ∃ piece back, s = piece ++ back ∧ 59 ∉ piece ∧ (back = [] ∨ ∃ rest, back = 59 :: rest) := by
  by_cases semi : 59 ∈ s
  · obtain ⟨piece, rest, rfl, noSemi⟩ := eq_append_cons_of_mem semi
    exact ⟨piece, _, rfl, noSemi, .inr ⟨rest, rfl⟩⟩
  · exact ⟨s, [], (append_nil s).symm, semi, .inl rfl⟩

section Piece

variable {piece back : List UInt8} (noSemi : 59 ∉ piece)
    (isBack : back = [] ∨ ∃ rest, back = 59 :: rest)

include isBack in
theorem dropWhile_piece {p : UInt8 → Bool} (stops : p 59 = false) :
    (piece ++ back).dropWhile p = piece.dropWhile p ++ back := by
  rw [dropWhile_append]
  split
  · next empty =>
    rw [isEmpty_iff.mp empty]
    rcases isBack with rfl | ⟨rest, rfl⟩
    · rfl
    · exact dropWhile_cons_of_neg (by simp [stops])
  · rfl

include noSemi isBack

theorem skipExpr_piece :
    10 ∉ piece ∧ skipExpr (piece ++ back) = back.tail ∨
    10 ∈ piece ∧ (skipExpr (piece ++ back)).head? = some 10 := by
  rw [skipExpr, dropWhile_piece isBack rfl]
  cases isEnd : piece.dropWhile goesOn with
  | nil =>
    refine .inl ⟨fun newline => absurd (dropWhile_eq_nil_iff.mp isEnd 10 newline) (by decide), ?_⟩
    rcases isBack with rfl | ⟨rest, rfl⟩ <;> rfl
  | cons c rest =>
    have member : c ∈ piece := (dropWhile_sublist goesOn).mem (isEnd ▸ mem_cons_self)
    have stop : goesOn c = false := by simpa [isEnd] using head?_dropWhile_not goesOn piece
    obtain rfl : c = 10 := by
      have notSemi : c ≠ 59 := fun same => noSemi (same ▸ member)
      simpa [goesOn, notSemi] using stop
    exact .inr ⟨member, rfl⟩

theorem returns_append :
    Returns ((piece ++ back).splitOn 59) ↔ isComment piece ∨
    10 ∉ piece ∧ Returns (back.tail.splitOn 59) := by
  have cons (pieces : List (List UInt8)) : Returns (piece :: pieces) ↔
      isComment piece ∨ 10 ∉ piece ∧ Returns pieces := by
    unfold Returns
    by_cases comment : isComment piece <;> simp [comment]
  rcases isBack with rfl | ⟨rest, rfl⟩
  · rw [append_nil, splitOn_eq_singleton noSemi, cons, tail_nil]
    exact or_congr_right (and_congr_right fun _ =>
      iff_of_true (fun _ member => absurd member not_mem_nil) returns_nil)
  · rw [splitOn_append_cons_self_of_not_mem noSemi, cons, tail_cons]

/-- One turn of the loop over a piece that is no comment. -/
theorem evalLoop_turn (notComment : ¬isComment piece)
    (nonempty : piece.dropWhile isWs ++ back ≠ []) :
    ∃ v' m' s, evalLoop real scale (fuel + 1) (piece ++ back) v m =
      evalLoop real scale fuel s v' m' ∧
      (10 ∉ piece ∧ s = back.tail ∨ 10 ∈ piece ∧ s.head? = some 10) := by
  have notComment' : (piece.dropWhile isWs ++ back).head? ≠ some 35 := by
    simp only [isComment, decide_eq_true_eq] at notComment
    cases isFirst : piece.dropWhile isWs with
    | nil => rcases isBack with rfl | ⟨rest, rfl⟩ <;> simp
    | cons c cs => simpa [isFirst] using notComment
  have newline_iff : 10 ∈ piece.dropWhile isWs ↔ 10 ∈ piece := by
    refine ⟨(dropWhile_sublist _).mem, fun newline => ?_⟩
    rw [← takeWhile_append_dropWhile (p := isWs) (l := piece), mem_append] at newline
    exact newline.resolve_left fun member => absurd (mem_takeWhile_imp member) (by decide)
  obtain ⟨⟨v', m'⟩, evaluated⟩ := @evalExpr_ends real scale (piece.dropWhile isWs ++ back) m
  rw [evalLoop, dropWhile_piece isBack rfl, if_neg (not_or.mpr ⟨nonempty, notComment'⟩)]
  refine ⟨v', m', _, congrArg (Option.bind · _) evaluated, ?_⟩
  rw [← newline_iff]
  exact skipExpr_piece (mt (dropWhile_sublist isWs).mem noSemi) isBack

end Piece

theorem evalLoop_ends (fuel : Nat) (s : List UInt8) (v : BitVec 64) (m : Memory) :
    (Returns (s.splitOn 59) → s.length < fuel → (evalLoop real scale fuel s v m).isSome) ∧
      (¬Returns (s.splitOn 59) → evalLoop real scale fuel s v m = none) := by
  induction fuel generalizing s v m with
  | zero => exact ⟨fun _ less => absurd less (Nat.not_lt_zero _), fun _ => rfl⟩
  | succ fuel ih =>
    obtain ⟨piece, back, rfl, noSemi, isBack⟩ := exists_piece s
    rw [returns_append noSemi isBack]
    by_cases comment : isComment piece
    · have stop : ((piece ++ back).dropWhile isWs).head? = some 35 := by
        rw [dropWhile_piece isBack rfl, head?_append, of_decide_eq_true comment]
        rfl
      rw [evalLoop, if_pos (.inr stop)]
      exact ⟨fun _ _ => rfl, fun goes => absurd (.inl comment) goes⟩
    by_cases empty : piece.dropWhile isWs ++ back = []
    · rw [evalLoop, dropWhile_piece isBack rfl, if_pos (.inl empty)]
      obtain ⟨blank, rfl⟩ := append_eq_nil_iff.mp empty
      have noNewline : 10 ∉ piece := fun member =>
        absurd (dropWhile_eq_nil_iff.mp blank 10 member) (by decide)
      exact ⟨fun _ _ => rfl, fun goes => absurd (.inr ⟨noNewline, returns_nil⟩) goes⟩
    obtain ⟨v', m', s', turn, ⟨noNewline, rfl⟩ | ⟨newline, stop⟩⟩ :=
      @evalLoop_turn real scale fuel m v piece back noSemi isBack comment empty
    · have less : back.tail.length + 1 ≤ (piece ++ back).length := by
        rw [length_append, length_tail]
        have := length_pos_iff.mpr empty
        have := (dropWhile_sublist isWs (l := piece)).length_le
        rw [length_append] at *
        omega
      rw [turn]
      refine ⟨fun goes enough => (ih _ v' m').1 (goes.resolve_left comment).2 (by omega),
        fun stays => ?_⟩
      exact (ih _ v' m').2 fun goes => stays (.inr ⟨noNewline, goes⟩)
    · rw [turn]
      exact ⟨fun goes => absurd newline (goes.resolve_left comment).1,
        fun _ => evalLoop_newline stop fuel v' m'⟩

/-- Every expression gets a value. The loop over a line stops exactly on the lines of `Returns`,
after at most one turn more than the line has bytes. -/
theorem evalLine_returns_iff (s : List UInt8) (m : Memory) :
    (∃ r, evalExpr real scale s m = some r) ∧
    ((evalLine real scale s m).isSome ↔ Returns (s.splitOn 59)) ∧
      ((∃ fuel, (evalLoop real scale fuel s 0 m).isSome) ↔ Returns (s.splitOn 59)) := by
  have stays (fuel : Nat) (value : (evalLoop real scale fuel s 0 m).isSome) :
      Returns (s.splitOn 59) := by
    by_contra notReturns
    rw [(evalLoop_ends fuel s 0 m).2 notReturns] at value
    exact absurd value Bool.false_ne_true
  have goes (returns : Returns (s.splitOn 59)) : (evalLine real scale s m).isSome :=
    (evalLoop_ends (s.length + 1) s 0 m).1 returns (Nat.lt_succ_self _)
  exact ⟨evalExpr_ends s m, ⟨stays _, goes⟩, fun value => value.elim stays,
    fun returns => ⟨_, goes returns⟩⟩

end M4KK1.Calc
