import M4KK1.Shell.Lists

/-!
# The regular expression engine

`m4sh/core/regex.c`, with a signed `char`. No result: a write or a read outside an array.
-/

namespace M4KK1.Regex

open M4KK1.Shell (Text)

def regexMaxGroups : Nat := 10

def regexMaxNodes : Nat := 256

/-- The type of a node, with the data only this type has. -/
inductive Kind where
  | literal (ch : UInt8)
  | dot
  | charClass (charClass : UInt8 → Bool) (negated : Bool)
  | anchorStart
  | anchorEnd
  | group (groupId : Nat)
  | alt

/-- `struct regex_node`, or the null pointer. -/
inductive Node where
  | null
  | mk (kind : Kind) (minRep maxRep : Int) (greedy : Bool) (child next : Node)

/-- The `next` pointer of a node is set. -/
def Node.link : Node → Node → Node
  | .null, _ => .null
  | .mk kind minRep maxRep greedy child _, next => .mk kind minRep maxRep greedy child next

def Node.isNull : Node → Bool
  | .null => true
  | .mk .. => false

/-- The value of a `char`. -/
def charValue (c : UInt8) : Int := if c < 128 then c.toNat else (c.toNat : Int) - 256

/-- `node->char_class[c] = 1` -/
def setChar (set : UInt8 → Bool) (c : UInt8) : Option (UInt8 → Bool) :=
  if charValue c < 0 then none else some fun d => d = c || set d

/-- The loop of `parse_char_class` over a range. -/
def setRange (set : UInt8 → Bool) (c last : UInt8) : Option (UInt8 → Bool) :=
  if charValue last < charValue c then some set
  else if charValue c < 0 then none
  else some fun d => (charValue c ≤ charValue d ∧ charValue d ≤ charValue last) || set d

/-- The loop of `parse_char_class`. -/
def classLoop (set : UInt8 → Bool) : Text → Option ((UInt8 → Bool) × Text)
  | c :: d :: e :: rest =>
    if c = 93 then some (set, c :: d :: e :: rest)
    else if d = 45 ∧ e ≠ 93 then (setRange set c e).bind fun set => classLoop set rest
    else (setChar set c).bind fun set => classLoop set (d :: e :: rest)
  | c :: rest =>
    if c = 93 then some (set, c :: rest) else (setChar set c).bind fun set => classLoop set rest
  | [] => some (set, [])

/-- `parse_char_class` behind the bracket: the set, whether it is negated, and what is left. -/
def parseCharClass (text : Text) : Option ((UInt8 → Bool) × Bool × Text) :=
  let negated := decide (text.head? = some 94)
  (classLoop (fun _ => false) (if negated then text.tail else text)).map fun (set, rest) =>
    (set, negated, if rest.head? = some 93 then rest.tail else rest)

/-- What is left of a pattern, `node_count` and the next group id. -/
structure Parsing where
  rest : Text
  nodeCount : Nat
  groupId : Nat

/-- The repetition that stands behind an atom: `min_rep`, `max_rep` and what is left. -/
def parseRepetition (rest : Text) : Int × Int × Text :=
  if rest.head? = some 42 then (0, -1, rest.tail)
  else if rest.head? = some 43 then (1, -1, rest.tail)
  else if rest.head? = some 63 then (0, 1, rest.tail)
  else (1, 1, rest)

/-- A new node, with the repetition that stands behind it and `greedy`. -/
def quantify (kind : Kind) (child : Node) (p : Parsing) : Node × Parsing :=
  let (minRep, maxRep, rest) := parseRepetition p.rest
  if rest.head? = some 63 then (.mk kind minRep maxRep false child .null,
    { p with rest := rest.tail })
  else (.mk kind minRep maxRep true child .null, { p with rest := rest })

/-- `parse_atom` for an atom that is no group. -/
def parseSimple (p : Parsing) : Option (Node × Parsing) :=
  let full := decide (p.nodeCount ≥ regexMaxNodes)
  let node (kind : Kind) (rest : Text) : Option (Node × Parsing) :=
    some (if full then (.null, p)
      else quantify kind .null { p with rest := rest, nodeCount := p.nodeCount + 1 })
  match p.rest with
  | [] => some (.null, p)
  | c :: rest =>
    if c = 91 then
      if full then some (.null, p)
      else (parseCharClass rest).bind fun (set, negated, rest) => node (.charClass set negated) rest
    else if c = 46 then node .dot rest
    else if c = 94 then node .anchorStart rest
    else if c = 36 then node .anchorEnd rest
    else if c = 92 then
      match rest with
      | [] => some (.null, { p with rest := [] })
      | d :: rest => node (.literal d) rest
    else if c ≠ 124 ∧ c ≠ 41 then node (.literal c) rest
    else some (.null, p)

mutual

/-- `parse_atom`, with a bound on the nesting of calls. -/
def parseAtom : Nat → Parsing → Option (Node × Parsing)
  | 0, _ => none
  | fuel + 1, p =>
    if p.rest.head? = some 40 then
      if p.nodeCount ≥ regexMaxNodes then some (.null, p)
      else
        (parseExpr fuel ⟨p.rest.tail, p.nodeCount + 1, p.groupId + 1⟩).bind fun (child, q) =>
          some (quantify (.group p.groupId) child
            { q with rest := if q.rest.head? = some 41 then q.rest.tail else q.rest })
    else parseSimple p

/-- The loop of `parse_concat`. -/
def parseNext : Nat → Parsing → Option (Node × Parsing)
  | 0, _ => none
  | fuel + 1, p =>
    if p.rest = [] ∨ p.rest.head? = some 124 ∨ p.rest.head? = some 41 then some (.null, p)
    else
      (parseAtom fuel p).bind fun (node, q) =>
        if node.isNull then some (.null, q)
        else (parseNext fuel q).bind fun (next, r) => some (node.link next, r)

def parseConcat : Nat → Parsing → Option (Node × Parsing)
  | 0, _ => none
  | fuel + 1, p =>
    (parseAtom fuel p).bind fun (first, q) =>
      if first.isNull then some (.null, q)
      else (parseNext fuel q).bind fun (next, r) => some (first.link next, r)

def parseExpr : Nat → Parsing → Option (Node × Parsing)
  | 0, _ => none
  | fuel + 1, p =>
    (parseConcat fuel p).bind fun (first, q) =>
      if first.isNull then some (.null, q)
      else if q.rest.head? = some 124 then
        if q.nodeCount ≥ regexMaxNodes then some (.null, { q with rest := q.rest.tail })
        else
          (parseExpr fuel ⟨q.rest.tail, q.nodeCount + 1, q.groupId⟩).bind fun (second, r) =>
            some (.mk .alt 1 1 true first second, r)
      else some (first, q)

end

/-- `regex_compile`: the result and the root. -/
def regexCompile (pattern : Text) : Option (Int × Node) :=
  (parseExpr (4 * pattern.length + 4) ⟨pattern, 0, 0⟩).map fun (root, _) =>
    (if root.isNull then -1 else 0, root)

/-- `regex_match_t` -/
structure RegexMatch where
  start : Nat
  stop : Nat

/-- The position of a match and `regex_result_t`. -/
structure Matching where
  pos : Nat
  groups : Fin regexMaxGroups → RegexMatch

/-- `result->groups[id].start = pos`, for an id that there is. -/
def Matching.setStart (s : Matching) (id : Nat) : Matching :=
  if inside : id < regexMaxGroups then
    { s with groups := Function.update s.groups ⟨id,
      inside⟩ { s.groups ⟨id, inside⟩ with start := s.pos } }
  else s

/-- `result->groups[id].end = pos` -/
def Matching.setStop (s : Matching) (id : Nat) : Matching :=
  if inside : id < regexMaxGroups then
    { s with groups := Function.update s.groups ⟨id,
      inside⟩ { s.groups ⟨id, inside⟩ with stop := s.pos } }
  else s

/-- What a call of `match_node` returns, and what it leaves. -/
abbrev Matcher := Matching → Option (Bool × Matching)

def takeChar (text : Text) (test : UInt8 → Bool) (next : Matcher) : Matcher := fun s =>
  match text[s.pos]? with
  | none => some (false, s)
  | some c => if test c then next { s with pos := s.pos + 1 } else some (false, s)

/-- The end of `match_node`, for a node that is matched once. -/
def matchOnce (text : Text) (kind : Kind) (child next : Matcher) : Matcher :=
  match kind with
  | .literal ch => takeChar text (fun c => c = ch) next
  | .dot => takeChar text (fun c => c ≠ 10) next
  | .charClass set negated => takeChar text (fun c => if negated then !set c else set c) next
  | .group id => fun s =>
    (child (s.setStart id)).bind fun (matched, t) =>
      if matched then next (t.setStop id) else some (false, { t with pos := s.pos })
  | _ => fun s => some (false, s)

/-- The loop of `match_repetition`: the positions stored, and what the last call left. -/
def repeatLoop (once : Matcher) (maxRep : Int) :
    Nat → List Nat → Matching → Option (List Nat × Matching)
  | slots, positions, s =>
    if maxRep < 0 ∨ positions.length < maxRep then
      (once s).bind fun (matched, t) =>
        if matched then
          match slots with
          | 0 => none
          | slots + 1 =>
            if t.pos = s.pos then some (positions ++ [s.pos], t)
            else repeatLoop once maxRep slots (positions ++ [s.pos]) t
        else some (positions, t)
    else some (positions, s)

def matchRepetition (once : Matcher) (minRep maxRep : Int) (greedy : Bool) : Matcher := fun s =>
  (repeatLoop once maxRep 256 [] s).bind fun (positions, t) =>
    if positions.length < minRep then some (false, { t with pos := s.pos })
    else if greedy then some (true, t)
    else
      positions[(if minRep > 0 then minRep - 1 else 0).toNat]?.map fun p =>
        (true, { t with pos := p })

def matchNode (text : Text) : Node → Matcher
  | .null => fun s => some (true, s)
  | .mk .alt _ _ _ child next => fun s =>
    (matchNode text child s).bind fun (matched, t) =>
      if matched then matchNode text next t
      else
        (matchNode text next { t with pos := s.pos }).map fun (matched, u) =>
          (matched, if matched then u else { u with pos := s.pos })
  | .mk .anchorStart _ _ _ _ next =>
    fun s => if s.pos ≠ 0 then some (false, s) else matchNode text next s
  | .mk .anchorEnd _ _ _ _ next => fun s =>
    if text[s.pos]? ≠ none then some (false, s) else matchNode text next s
  | .mk kind minRep maxRep greedy child next =>
    let once := matchOnce text kind (matchNode text child) (matchNode text next)
    if minRep ≠ 1 ∨ maxRep ≠ 1 then matchRepetition once minRep maxRep greedy else once

/-- The loop of `regex_search` from a position, with so many characters left. -/
def searchFrom (text : Text) (root : Node) : Nat → Nat → (Fin regexMaxGroups → RegexMatch) →
    Option (Int × (Fin regexMaxGroups → RegexMatch))
  | left, p, groups =>
    (matchNode text root ⟨p, groups⟩).bind fun (matched, t) =>
      if matched then some (1, Function.update t.groups ⟨0, by decide⟩ ⟨p, t.pos⟩)
      else
        match left with
        | 0 => some (0, t.groups)
        | left + 1 => searchFrom text root left (p + 1) t.groups

def regexSearch (root : Node) (text : Text) : Option (Int × (Fin regexMaxGroups → RegexMatch)) :=
  searchFrom text root text.length 0 fun _ => ⟨0, 0⟩

end M4KK1.Regex
