import M4KK1.Regex.Pattern
import M4KK1.Regex.Engine

/-! # Compiling a supported pattern -/

namespace M4KK1.Regex

open List

open M4KK1.Shell (Text)

def classSet (items : List ClassItem) : UInt8 → Bool := fun c => items.any fun item => item.Has c

def Simple.kind : Simple → Kind
  | .literal c => .literal c
  | .escaped c => .literal c
  | .dot => .dot
  | .charClass negated items => .charClass (classSet items) negated
  | .start => .anchorStart
  | .stop => .anchorEnd

def Quant.minRep : Quant → Int
  | .one => 1
  | .star => 0
  | .plus => 1
  | .opt => 0

def Quant.maxRep : Quant → Int
  | .one => 1
  | .star => -1
  | .plus => -1
  | .opt => 1

def Pattern.groupCount : Pattern → Nat
  | .last => 0
  | .simple _ _ next => next.groupCount
  | .group body _ next => 1 + body.groupCount + next.groupCount
  | .alt first second => first.groupCount + second.groupCount

def Pattern.nodeCount : Pattern → Nat
  | .last => 0
  | .simple _ _ next => 1 + next.nodeCount
  | .group body _ next => 1 + body.nodeCount + next.nodeCount
  | .alt first second => first.nodeCount + 1 + second.nodeCount

def Pattern.compiled : Nat → Pattern → Node
  | _, .last => .null
  | id, .simple atom quant next =>
    .mk atom.kind quant.minRep quant.maxRep true .null (next.compiled id)
  | id, .group body quant next =>
    .mk (.group id) quant.minRep quant.maxRep true (body.compiled (id + 1))
      (next.compiled (id + 1 + body.groupCount))
  | id, .alt first second =>
    .mk .alt 1 1 true (first.compiled id) (second.compiled (id + first.groupCount))

/-- The item writes inside `char_class`, and sets what it says. -/
def ClassItem.Plain : ClassItem → Prop
  | .single c => c < 128
  | .range first last => first < 128 ∧ last < 128 ∨ 128 ≤ last ∧ last < first

def Simple.Plain : Simple → Prop
  | .charClass _ items => ∀ item ∈ items, item.Plain
  | _ => True

/-- The classes of the pattern are of characters below 128. -/
def Pattern.Plain : Pattern → Prop
  | .last => True
  | .simple atom _ next => atom.Plain ∧ next.Plain
  | .group body _ next => body.Plain ∧ next.Plain
  | .alt first second => first.Plain ∧ second.Plain

variable {c : UInt8} {items : List ClassItem} {rest : Text} {pattern : Pattern}

theorem charValue_low (low : c < 128) : charValue c = c.toNat := if_pos low

theorem charValue_high (high : ¬c < 128) : charValue c = (c.toNat : Int) - 256 := if_neg high

variable (set : UInt8 → Bool)

theorem setChar_plain (plain : c < 128) :
    setChar set c = some fun d => decide ((ClassItem.single c).Has d) || set d := by
  rw [setChar, if_neg]
  · rfl
  · rw [charValue_low plain]
    omega

theorem setRange_plain {first last : UInt8} (plain : (ClassItem.range first last).Plain) :
    setRange set first last = some fun d => decide ((ClassItem.range first last).Has d) ||
      set d := by
  have below (d : UInt8) : d.toNat < 256 := d.toNat_lt
  rcases plain with ⟨firstLow, lastLow⟩ | ⟨lastHigh, reversed⟩
  · have firstValue := charValue_low firstLow
    have lastValue := charValue_low lastLow
    rw [setRange]
    split
    · next isEmpty =>
      refine congrArg some (funext fun d => ?_)
      have outside : ¬(ClassItem.range first last).Has d := by
        rintro ⟨fromFirst, toLast⟩
        rw [UInt8.le_iff_toNat_le] at fromFirst toLast
        omega
      rw [decide_eq_false outside, Bool.false_or]
    · rw [if_neg (by omega)]
      refine congrArg some (funext fun d => ?_)
      have same : charValue first ≤ charValue d ∧ charValue d ≤ charValue last ↔
          (ClassItem.range first last).Has d := by
        rw [ClassItem.Has, UInt8.le_iff_toNat_le, UInt8.le_iff_toNat_le, firstValue, lastValue]
        rw [UInt8.lt_iff_toNat_lt] at firstLow lastLow
        have limit : (128 : UInt8).toNat = 128 := rfl
        have dBelow := below d
        by_cases dLow : d < 128
        · rw [charValue_low dLow]
          omega
        · rw [charValue_high dLow]
          rw [UInt8.lt_iff_toNat_lt] at dLow
          omega
      simp only [same]
  · have firstHigh : ¬first < 128 :=
      UInt8.not_lt.mpr (UInt8.le_trans lastHigh (UInt8.le_of_lt reversed))
    have lastNotLow : ¬last < 128 := UInt8.not_lt.mpr lastHigh
    rw [UInt8.lt_iff_toNat_lt] at reversed
    rw [setRange, charValue_high firstHigh, charValue_high lastNotLow, if_pos (by omega)]
    refine congrArg some (funext fun d => ?_)
    have outside : ¬(ClassItem.range first last).Has d := by
      rintro ⟨fromFirst, toLast⟩
      rw [UInt8.le_iff_toNat_le] at fromFirst toLast
      omega
    rw [decide_eq_false outside, Bool.false_or]

theorem classLoop_stop (rest : Text) : classLoop set (93 :: rest) = some (set, 93 :: rest) := by
  rcases rest with _ | ⟨d, _ | ⟨e, rest⟩⟩ <;> rw [classLoop] <;> simp

theorem classLoop_range {e : UInt8} (rest : Text) (more : c ≠ 93) (inside : e ≠ 93) :
    classLoop set (c :: 45 :: e :: rest) = (setRange set c e).bind fun set =>
      classLoop set rest := by
  rw [classLoop, if_neg more, if_pos ⟨rfl, inside⟩]

theorem classLoop_single (rest : Text) (more : c ≠ 93)
    (separated : ∀ e tail, rest = 45 :: e :: tail → e = 93) :
    classLoop set (c :: rest) = (setChar set c).bind fun set => classLoop set rest := by
  rcases rest with _ | ⟨d, _ | ⟨e, rest⟩⟩
  · rw [classLoop, if_neg more]
    simp
  · rw [classLoop, if_neg more]
    simp
  · have noRange : ¬(d = 45 ∧ e ≠ 93) := by
      rintro ⟨rfl, inside⟩
      exact inside (separated e rest rfl)
    rw [classLoop, if_neg more, if_neg noRange]

theorem classSet_cons (item : ClassItem) (items : List ClassItem) (c : UInt8) :
    classSet (item :: items) c = (decide (item.Has c) || classSet items c) :=
  rfl

theorem classSeparated_tail {item : ClassItem} (separated : classSeparated (item :: items)) :
    classSeparated items := by
  match item, items, separated with
  | .single _, [], _ => trivial
  | .single _, .single _ :: _, separated => exact separated.2
  | .single _, .range _ _ :: _, separated => exact separated.2
  | .range _ _, _, separated => exact separated

theorem noRange_of_separated (rest : Text)
    (separated : classSeparated (.single c :: items)) (e : UInt8) (tail : Text)
    (same : items.flatMap ClassItem.spell ++ 93 :: rest = 45 :: e :: tail) : e = 93 := by
  match items, separated, same with
  | [], _, same => exact absurd (List.cons.inj same).1 (by decide)
  | .single d :: more, separated, same =>
    obtain ⟨isDash, later⟩ := List.cons.inj same
    rw [separated.1 isDash] at later
    exact (List.cons.inj later).1.symm
  | .range first last :: more, separated, same => exact absurd (List.cons.inj same).1 separated.1

theorem classLoop_items (items : List ClassItem) (rest : Text)
    (spelled : ∀ item ∈ items, item.Spelled) (separated : classSeparated items)
    (plain : ∀ item ∈ items, item.Plain) :
    classLoop set (items.flatMap ClassItem.spell ++ 93 :: rest) =
      some (fun c => classSet items c || set c, 93 :: rest) := by
  induction items generalizing set with
  | nil =>
    rw [flatMap_nil, nil_append, classLoop_stop]
    rfl
  | cons item items ih =>
    have spelledItem := spelled item mem_cons_self
    have plainItem := plain item mem_cons_self
    have later (set : UInt8 → Bool) :=
      ih set (fun i member => spelled i (mem_cons_of_mem item member))
      (classSeparated_tail separated) (fun i member => plain i (mem_cons_of_mem item member))
    have union (c : UInt8) : (classSet items c || (decide (item.Has c) || set c)) =
        (classSet (item :: items) c || set c) := by
      rw [classSet_cons, Bool.or_left_comm, Bool.or_assoc]
    rw [flatMap_cons, append_assoc]
    cases item with
    | single c =>
      rw [ClassItem.spell, singleton_append,
        classLoop_single set _ spelledItem.2 (noRange_of_separated rest separated),
        setChar_plain set plainItem, Option.bind_some, later]
      simp only [union]
    | range first last =>
      have text : (ClassItem.range first last).spell ++
        (items.flatMap ClassItem.spell ++ 93 :: rest) =
          first :: 45 :: last :: (items.flatMap ClassItem.spell ++ 93 :: rest) := rfl
      rw [text, classLoop_range set _ spelledItem.2.1 spelledItem.2.2.2,
        setRange_plain set plainItem, Option.bind_some,
        later]
      simp only [union]

theorem parseCharClass_spell (negated : Bool) (rest : Text)
    (spelled : (Simple.charClass negated items).Spelled) (plain : ∀ item ∈ items, item.Plain) :
    parseCharClass ((if negated then [94] else []) ++ items.flatMap ClassItem.spell ++ 93 :: rest) =
      some (classSet items, negated, rest) := by
  obtain ⟨each, separated, noCaret⟩ := spelled
  have loop := classLoop_items (fun _ => false) items rest each separated plain
  simp only [Bool.or_false] at loop
  cases negated with
  | true =>
    have text : (if true = true then [94] else []) ++ items.flatMap ClassItem.spell ++ 93 :: rest =
        94 :: (items.flatMap ClassItem.spell ++ 93 :: rest) := rfl
    rw [text, parseCharClass]
    simp only [List.head?_cons, decide_true, if_true, tail_cons, loop, Option.map_some]
  | false =>
    have text : (if false = true then [94] else []) ++ items.flatMap ClassItem.spell ++ 93 :: rest =
        items.flatMap ClassItem.spell ++ 93 :: rest := rfl
    have notNegated : (items.flatMap ClassItem.spell ++ 93 :: rest).head? ≠ some 94 := by
      cases first : items.flatMap ClassItem.spell with
      | nil => exact fun same => absurd (Option.some.inj same) (by decide)
      | cons c cs =>
        have noCaret := noCaret rfl
        rw [first] at noCaret
        exact noCaret
    rw [text, parseCharClass]
    simp only [decide_eq_false notNegated, Bool.false_eq_true, if_false, loop, Option.map_some,
      List.head?_cons,
      if_true, tail_cons]

/-- No repetition stands at the beginning of what is left. -/
def NoRepeater (rest : Text) : Prop :=
  rest.head? ≠ some 42 ∧ rest.head? ≠ some 43 ∧ rest.head? ≠ some 63

theorem parseRepetition_spell (quant : Quant) (behind : NoRepeater rest) :
    parseRepetition (quant.spell ++ rest) = (quant.minRep, quant.maxRep, rest) := by
  cases quant with
  | one =>
    have same : Quant.one.spell ++ rest = rest := rfl
    rw [same, parseRepetition, if_neg behind.1, if_neg behind.2.1, if_neg behind.2.2]
    rfl
  | star => rfl
  | plus => rfl
  | opt => rfl

theorem quantify_spell (kind : Kind) (child : Node) (quant : Quant) (behind : NoRepeater rest)
    (nodeCount groupId : Nat) :
    quantify kind child ⟨quant.spell ++ rest, nodeCount, groupId⟩ =
      (.mk kind quant.minRep quant.maxRep true child .null, ⟨rest, nodeCount, groupId⟩) := by
  rw [quantify, parseRepetition_spell quant behind]
  exact if_neg behind.2.2

theorem parseSimple_spell {atom : Simple} (spelled : atom.Spelled) (plain : atom.Plain)
    (quant : Quant) (behind : NoRepeater rest) {nodeCount : Nat} (room : nodeCount < regexMaxNodes)
    (groupId : Nat) :
    parseSimple ⟨atom.spell ++ (quant.spell ++ rest), nodeCount, groupId⟩ =
      some (.mk atom.kind quant.minRep quant.maxRep true .null .null,
        ⟨rest, nodeCount + 1, groupId⟩) := by
  have free : decide (nodeCount ≥ regexMaxNodes) = false := decide_eq_false (Nat.not_le.mpr room)
  have node (kind : Kind) := quantify_spell kind .null quant behind (nodeCount + 1) groupId
  cases atom with
  | literal c =>
    obtain ⟨_, ordinary⟩ := spelled
    have other (d : UInt8) (isSpecial : d ∈ special) : c ≠ d :=
      fun same => ordinary (same ▸ isSpecial)
    simp [parseSimple, Simple.spell, free, node, Simple.kind, other 91 (by decide),
      other 46 (by decide),
      other 94 (by decide), other 36 (by decide), other 92 (by decide), other 124 (by decide),
      other 41 (by decide)]
  | escaped c => simp [parseSimple, Simple.spell, free, node, Simple.kind]
  | dot => simp [parseSimple, Simple.spell, free, node, Simple.kind]
  | charClass negated items =>
    have read := parseCharClass_spell negated (quant.spell ++ rest) spelled plain
    simp only [append_assoc] at read
    simp [parseSimple, Simple.spell, free, node, Simple.kind, read]
  | start => simp [parseSimple, Simple.spell, free, node, Simple.kind]
  | stop => simp [parseSimple, Simple.spell, free, node, Simple.kind]

/-- The characters no atom begins with: a parenthesis, a bar or a repetition. -/
def structural : Text := [40, 41, 124, 42, 43, 63]

theorem spell_begins {atom : Simple} (spelled : atom.Spelled) :
    ∃ c tail, atom.spell = c :: tail ∧ c ∉ structural := by
  cases atom with
  | literal c =>
    refine ⟨c, [], rfl, fun member => spelled.2 ?_⟩
    exact (by decide : structural ⊆ special) member
  | escaped c => exact ⟨92, [c], rfl, by decide⟩
  | dot => exact ⟨46, [], rfl, by decide⟩
  | charClass negated items => exact ⟨91, _, rfl, by decide⟩
  | start => exact ⟨94, [], rfl, by decide⟩
  | stop => exact ⟨36, [], rfl, by decide⟩

theorem head_ne (tail : Text) (other : c ∉ structural) {d : UInt8} (isOne : d ∈ structural) :
    (c :: tail).head? ≠ some d :=
  fun same => other (Option.some.inj same ▸ isOne)

/-- A concatenation ends in front of what is left. -/
def AtEnd (rest : Text) : Prop := rest = [] ∨ rest.head? = some 124 ∨ rest.head? = some 41

theorem AtEnd.noRepeater (atEnd : AtEnd rest) : NoRepeater rest := by
  rcases atEnd with rfl | bar | paren
  · exact ⟨by decide, by decide, by decide⟩
  · rw [NoRepeater, bar]
    exact ⟨by decide, by decide, by decide⟩
  · rw [NoRepeater, paren]
    exact ⟨by decide, by decide, by decide⟩

theorem not_atEnd_cons (tail : Text) (other : c ∉ structural) : ¬AtEnd (c :: tail) := by
  rintro (absent | bar | paren)
  · cases absent
  · exact head_ne tail other (by decide) bar
  · exact head_ne tail other (by decide) paren

theorem noRepeater_concat (concat : pattern.Concat) (atEnd : AtEnd rest) :
    NoRepeater (pattern.spell ++ rest) := by
  cases pattern with
  | last => exact atEnd.noRepeater
  | simple atom quant next =>
    rw [Pattern.Concat] at concat
    obtain ⟨c, tail, begins, other⟩ := spell_begins concat.1
    rw [Pattern.spell, begins]
    exact ⟨head_ne _ other (by decide), head_ne _ other (by decide), head_ne _ other (by decide)⟩
  | group body quant next =>
    have paren : ((body.group quant next).spell ++ rest).head? = some 40 := rfl
    rw [NoRepeater, paren]
    exact ⟨by decide, by decide, by decide⟩
  | alt first second =>
    rw [Pattern.Concat] at concat
    cases concat

theorem parseConcat_eq (fuel : Nat) {p : Parsing} (more : ¬AtEnd p.rest) :
    parseConcat fuel p = parseNext fuel p := by
  cases fuel with
  | zero => rw [parseConcat, parseNext]
  | succ fuel =>
    rw [AtEnd] at more
    rw [parseConcat, parseNext, if_neg more]

/-- A concatenation of so many characters is read by `parse_concat` behind its first atom. -/
def ReadsConcat (pattern : Pattern) : Prop :=
  pattern.Concat → ∀ (fuel : Nat) (rest : Text) (nodeCount groupId : Nat), AtEnd rest →
    2 * pattern.spell.length + 1 ≤ fuel → nodeCount + pattern.nodeCount ≤ regexMaxNodes →
    parseNext fuel ⟨pattern.spell ++ rest, nodeCount, groupId⟩ =
      some (pattern.compiled groupId,
        ⟨rest, nodeCount + pattern.nodeCount, groupId + pattern.groupCount⟩)

/-- A pattern of so many characters is read by `parse_expr`. -/
def ReadsExpr (pattern : Pattern) : Prop :=
  pattern.Supported → ∀ (fuel : Nat) (rest : Text) (nodeCount groupId : Nat), AtEnd rest →
  rest.head? ≠ some 124 →
    2 * pattern.spell.length + 2 ≤ fuel → nodeCount + pattern.nodeCount ≤ regexMaxNodes →
    parseExpr fuel ⟨pattern.spell ++ rest, nodeCount, groupId⟩ =
      some (pattern.compiled groupId,
        ⟨rest, nodeCount + pattern.nodeCount, groupId + pattern.groupCount⟩)

theorem parseNext_atom {fuel : Nat} {p q r : Parsing} {kind : Kind} {minRep maxRep : Int}
    {child next : Node}
    (more : ¬AtEnd p.rest)
    (atom : parseAtom fuel p = some (.mk kind minRep maxRep true child .null, q))
    (rest : parseNext fuel q = some (next, r)) :
    parseNext (fuel + 1) p = some (.mk kind minRep maxRep true child next, r) := by
  rw [AtEnd] at more
  have real : ¬(Node.mk kind minRep maxRep true child .null).isNull = true := Bool.false_ne_true
  rw [parseNext, if_neg more, atom, Option.bind_some]
  dsimp only
  rw [if_neg real, rest]
  rfl

theorem parseAtom_group {fuel : Nat} {text after : Text} {nodeCount groupId used ids : Nat}
    {child : Node}
    (room : nodeCount < regexMaxNodes)
    (inside :
      parseExpr fuel ⟨text, nodeCount + 1, groupId + 1⟩ = some (child, ⟨41 :: after, used, ids⟩)) :
    parseAtom (fuel + 1) ⟨40 :: text, nodeCount, groupId⟩ =
      some (quantify (.group groupId) child ⟨after, used, ids⟩) := by
  have paren : (40 :: text).head? = some (40 : UInt8) := rfl
  have closing : (41 :: after).head? = some (41 : UInt8) := rfl
  rw [parseAtom]
  dsimp only
  rw [if_pos paren, if_neg (Nat.not_le.mpr room), tail_cons, inside, Option.bind_some]
  dsimp only
  rw [if_pos closing, tail_cons]

theorem readsConcat_simple {atom : Simple} {quant : Quant} {next : Pattern} (plain : atom.Plain)
    (reads : ReadsConcat next) : ReadsConcat (.simple atom quant next) := by
  rintro ⟨spelled, concat⟩ fuel rest nodeCount groupId atEnd enough room
  obtain ⟨c, tail, begins, other⟩ := spell_begins spelled
  have length : (Pattern.simple atom quant next).spell.length ≥ 1 + next.spell.length := by
    rw [Pattern.spell, begins]
    simp only [length_append, length_cons]
    omega
  rw [Pattern.nodeCount] at room
  obtain ⟨fuel, rfl⟩ : ∃ f, fuel = f + 2 := ⟨fuel - 2, by omega⟩
  have text : (Pattern.simple atom quant next).spell ++ rest =
      atom.spell ++ (quant.spell ++ (next.spell ++ rest)) := by
    rw [Pattern.spell, append_assoc, append_assoc]
  have notGroup : (atom.spell ++ (quant.spell ++ (next.spell ++ rest))).head? ≠ some 40 := by
    rw [begins]
    exact head_ne _ other (by decide)
  have more : ¬AtEnd (atom.spell ++ (quant.spell ++ (next.spell ++ rest))) := by
    rw [begins]
    exact not_atEnd_cons _ other
  have first := parseSimple_spell spelled plain quant (noRepeater_concat concat atEnd)
    (show nodeCount < regexMaxNodes by omega) groupId
  have later := reads concat (fuel + 1) rest (nodeCount + 1) groupId atEnd (by omega) (by omega)
  rw [text]
  refine (parseNext_atom more (by rw [parseAtom, if_neg notGroup]; exact first) later).trans ?_
  rw [Pattern.nodeCount, Pattern.groupCount, Nat.add_assoc nodeCount 1]
  rfl

theorem readsConcat_group {body next : Pattern} {quant : Quant} (readsBody : ReadsExpr body)
    (reads : ReadsConcat next) : ReadsConcat (.group body quant next) := by
  rintro ⟨supported, concat⟩ fuel rest nodeCount groupId atEnd enough room
  have length : (body.group quant next).spell.length ≥
      2 + body.spell.length + next.spell.length := by
    rw [Pattern.spell]
    simp only [length_append, length_cons]
    omega
  rw [Pattern.nodeCount] at room
  obtain ⟨fuel, rfl⟩ : ∃ f, fuel = f + 2 := ⟨fuel - 2, by omega⟩
  have text : (body.group quant next).spell ++ rest =
      40 :: (body.spell ++ 41 :: (quant.spell ++ (next.spell ++ rest))) := by
    rw [Pattern.spell]
    simp only [append_assoc, cons_append]
  have more : ¬AtEnd (40 :: (body.spell ++ 41 :: (quant.spell ++ (next.spell ++ rest)))) := by
    rintro (absent | bar | paren)
    · cases absent
    · exact absurd (Option.some.inj bar) (by decide)
    · exact absurd (Option.some.inj paren) (by decide)
  have inside :=
    readsBody supported fuel (41 :: (quant.spell ++ (next.spell ++ rest))) (nodeCount + 1)
    (groupId + 1)
    (.inr (.inr rfl)) (fun bar => absurd (Option.some.inj bar) (by decide)) (by omega) (by omega)
  have first : parseAtom (fuel + 1)
    ⟨40 :: (body.spell ++ 41 :: (quant.spell ++ (next.spell ++ rest))), nodeCount, groupId⟩ =
      some (.mk (.group groupId) quant.minRep quant.maxRep true (body.compiled (groupId + 1)) .null,
        ⟨next.spell ++ rest, nodeCount + 1 + body.nodeCount, groupId + 1 + body.groupCount⟩) := by
    rw [parseAtom_group (by omega) inside,
      quantify_spell _ _ quant (noRepeater_concat concat atEnd)]
  have later :=
    reads concat (fuel + 1) rest (nodeCount + 1 + body.nodeCount)
    (groupId + 1 + body.groupCount) atEnd
    (by omega) (by omega)
  rw [text]
  refine (parseNext_atom more first later).trans ?_
  rw [Pattern.nodeCount, Pattern.groupCount, Pattern.compiled]
  simp only [Nat.add_assoc]

theorem not_atEnd_concat (concat : pattern.Concat) (nonempty : pattern ≠ .last) (rest : Text) :
    ¬AtEnd (pattern.spell ++ rest) := by
  cases pattern with
  | last => exact absurd rfl nonempty
  | simple atom quant next =>
    rw [Pattern.Concat] at concat
    obtain ⟨c, tail, begins, other⟩ := spell_begins concat.1
    rw [Pattern.spell, begins]
    exact not_atEnd_cons _ other
  | group body quant next =>
    rintro (absent | bar | paren)
    · cases absent
    · exact absurd (Option.some.inj bar) (by decide)
    · exact absurd (Option.some.inj paren) (by decide)
  | alt first second =>
    rw [Pattern.Concat] at concat
    cases concat

theorem compiled_isNull (nonempty : pattern ≠ .last) (id : Nat) :
    (pattern.compiled id).isNull = false := by
  cases pattern with
  | last => exact absurd rfl nonempty
  | simple atom quant next => rfl
  | group body quant next => rfl
  | alt first second => rfl

theorem readsExpr_concat (reads : ReadsConcat pattern) (concat : pattern.Concat)
    (nonempty : pattern ≠ .last) : ReadsExpr pattern := by
  intro _ fuel rest nodeCount groupId atEnd noBar enough room
  obtain ⟨fuel, rfl⟩ : ∃ f, fuel = f + 1 := ⟨fuel - 1, by omega⟩
  have real : ¬(pattern.compiled groupId).isNull = true := by
    rw [compiled_isNull nonempty]
    exact Bool.false_ne_true
  rw [parseExpr, parseConcat_eq fuel (not_atEnd_concat concat nonempty rest),
    reads concat fuel rest nodeCount groupId atEnd (by omega) room, Option.bind_some]
  dsimp only
  rw [if_neg real, if_neg noBar]

theorem readsExpr_alt {first second : Pattern} (readsFirst : ReadsConcat first)
    (readsSecond : ReadsExpr second) :
    ReadsExpr (.alt first second) := by
  rintro ⟨nonempty, concat, supported⟩ fuel rest nodeCount groupId atEnd noBar enough room
  have length : (first.alt second).spell.length =
      first.spell.length + (second.spell.length + 1) := by
    rw [Pattern.spell, length_append, length_cons]
  rw [Pattern.nodeCount] at room
  obtain ⟨fuel, rfl⟩ : ∃ f, fuel = f + 1 := ⟨fuel - 1, by omega⟩
  have text : (first.alt second).spell ++ rest = first.spell ++ 124 :: (second.spell ++ rest) := by
    rw [Pattern.spell, append_assoc, cons_append]
  have real : ¬(first.compiled groupId).isNull = true := by
    rw [compiled_isNull nonempty]
    exact Bool.false_ne_true
  have bar : (124 :: (second.spell ++ rest)).head? = some (124 : UInt8) := rfl
  have full : ¬nodeCount + first.nodeCount ≥ regexMaxNodes := by omega
  rw [text, parseExpr, parseConcat_eq fuel (not_atEnd_concat concat nonempty _),
    readsFirst concat fuel (124 :: (second.spell ++ rest)) nodeCount groupId (.inr (.inl rfl))
      (by omega) (by omega),
    Option.bind_some]
  dsimp only
  rw [if_neg real, if_pos bar, if_neg full, tail_cons,
    readsSecond supported fuel rest _ _ atEnd noBar (by omega) (by omega), Option.bind_some]
  dsimp only
  rw [Pattern.nodeCount, Pattern.groupCount, Pattern.compiled]
  simp only [Nat.add_assoc]

theorem reads (pattern : Pattern) (plain : pattern.Plain) :
    ReadsConcat pattern ∧ ReadsExpr pattern := by
  induction pattern with
  | last =>
    constructor
    · intro _ fuel rest nodeCount groupId atEnd enough _
      obtain ⟨fuel, rfl⟩ : ∃ f, fuel = f + 1 := ⟨fuel - 1, by omega⟩
      rw [AtEnd] at atEnd
      rw [Pattern.spell, nil_append, parseNext, if_pos atEnd]
      rfl
    · intro supported
      rw [Pattern.Supported] at supported
      cases supported
  | simple atom quant next ih =>
    have concat := @readsConcat_simple atom quant next plain.1 (ih plain.2).1
    refine ⟨concat,
      fun supported => readsExpr_concat concat ?_ (fun same => nomatch same) supported⟩
    rw [Pattern.Supported] at supported
    rw [Pattern.Concat]
    exact supported
  | group body quant next ihBody ihNext =>
    have concat := @readsConcat_group body next quant (ihBody plain.1).2 (ihNext plain.2).1
    refine ⟨concat,
      fun supported => readsExpr_concat concat ?_ (fun same => nomatch same) supported⟩
    rw [Pattern.Supported] at supported
    rw [Pattern.Concat]
    exact supported
  | alt first second ihFirst ihSecond =>
    refine ⟨fun concat => ?_, readsExpr_alt (ihFirst plain.1).1 (ihSecond plain.2).2⟩
    rw [Pattern.Concat] at concat
    cases concat

/-- A supported pattern that fits compiles to its nodes. -/
theorem regexCompile_spell (supported : pattern.Supported) (plain : pattern.Plain)
    (fits : pattern.nodeCount ≤ regexMaxNodes) :
    regexCompile pattern.spell = some (0, pattern.compiled 0) := by
  have read := (reads pattern plain).2 supported (4 * pattern.spell.length + 4) [] 0 0 (.inl rfl)
    (fun bar => nomatch bar) (by omega) (by omega)
  have nonempty : pattern ≠ .last := by
    rintro rfl
    rw [Pattern.Supported] at supported
    exact supported
  rw [append_nil] at read
  rw [regexCompile, read, Option.map_some]
  dsimp only
  rw [compiled_isNull nonempty]
  rfl

end M4KK1.Regex
