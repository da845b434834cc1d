import M4KK1.Terminal.Grid

/-!
# The colours of a control sequence

`sgr_apply` passes over a truecolor group by looking for the next value that may be a code.
-/

namespace M4KK1.Terminal

/-- The codes of one parameter. -/
def IsPlain (v : Int) : Prop :=
  v = 0 ∨ v = 39 ∨ v = 49 ∨ (30 ≤ v ∧ v ≤ 37) ∨ (90 ≤ v ∧ v ≤ 97) ∨ (40 ≤ v ∧ v ≤ 47) ∨
    (100 ≤ v ∧ v ≤ 107)

/-- A documented code with its parameters; `back` is whether it is for the background. -/
inductive Sgr where
  | plain (v : Int) (documented : IsPlain v)
  | indexed (back : Bool) (n : UInt8)
  | truecolor (back : Bool) (r g b : UInt8)

namespace Sgr

def extended (back : Bool) : Int := if back then 48 else 38

def params : Sgr → List Int
  | plain v _ => [v]
  | indexed back n => [extended back, 5, n.toNat]
  | truecolor back r g b => [extended back, 2, r.toNat, g.toNat, b.toNat]

/-- What a code does to the colours of the text and of the background. -/
def effect (colors : BitVec 16 × BitVec 16) : Sgr → BitVec 16 × BitVec 16
  | plain v _ =>
    if v = 0 then (attrText, attrText)
    else if v = 39 then (attrText, colors.2)
    else if v = 49 then (colors.1, attrText)
    else if (30 ≤ v ∧ v ≤ 37) ∨ (90 ≤ v ∧ v ≤ 97) then (sgrBasicAttr v, colors.2)
    else (colors.1, sgrBasicBg v)
  | indexed back n =>
    let color := attr256 ||| BitVec.ofNat 16 n.toNat
    if back then (colors.1, color) else (color, colors.2)
  | truecolor .. => colors

/-- What a control sequence is to do; one without parameters is a reset. -/
def interpret (colors : BitVec 16 × BitVec 16) : List Sgr → BitVec 16 × BitVec 16
  | [] => (attrText, attrText)
  | groups => groups.foldl effect colors

/-- No component of a truecolor group looks like a code, and what comes behind the group does. -/
def SkipsWhole : List Sgr → Prop
  | [] => True
  | truecolor _ r g b :: rest =>
    (∀ c ∈ [r, g, b], endsSubParams c.toNat = false) ∧
      (∀ v ∈ (rest.flatMap params).head?, endsSubParams v = true) ∧ SkipsWhole rest
  | _ :: rest => SkipsWhole rest

end Sgr

/-- From the index on, the `np` parameters are these. -/
def ParamsFrom (p : Nat → Int) (np i : Nat) (rest : List Int) : Prop :=
  np = i + rest.length ∧ ∀ k v, rest[k]? = some v → p (i + k) = v

variable {p : Nat → Int} {np i : Nat} {v : Int} {rest : List Int}

theorem ParamsFrom.cons (here : ParamsFrom p np i (v :: rest)) :
    i < np ∧ p i = v ∧ ParamsFrom p np (i + 1) rest := by
  obtain ⟨len, at_⟩ := here
  rw [List.length_cons] at len
  refine ⟨by omega, at_ 0 v rfl, by omega, fun k w found => ?_⟩
  rw [Nat.add_assoc, Nat.add_comm 1]
  exact at_ (k + 1) w found

theorem sgrLoop_plain (fuel : Nat) (colors : BitVec 16 × BitVec 16) (documented : IsPlain v)
    (inside : i < np) (isV : p i = v) :
    sgrLoop p np (fuel + 1) i colors =
      sgrLoop p np fuel (i + 1) (Sgr.effect colors (.plain v documented)) := by
  obtain ⟨fg, bg⟩ := colors
  rw [sgrLoop, if_pos inside, isV, Sgr.effect]
  rcases id documented with h | h | h | h | h | h | h <;>
    simp (disch := omega) only [if_pos, if_neg]

theorem sgrLoop_indexed (fuel : Nat) (colors : BitVec 16 × BitVec 16) {back : Bool} {n : UInt8}
    (here : ParamsFrom p np i ((Sgr.indexed back n).params ++ rest)) :
    sgrLoop p np (fuel + 1) i colors =
      sgrLoop p np fuel (i + 3) (Sgr.effect colors (.indexed back n)) := by
  obtain ⟨fg, bg⟩ := colors
  obtain ⟨inside, code, here⟩ := here.cons
  obtain ⟨-, isFive, here⟩ := here.cons
  obtain ⟨room, isN, -⟩ := here.cons
  have small := n.toNat_lt
  rw [sgrLoop, if_pos inside, code, isFive, isN, Sgr.effect]
  cases back <;> simp [Sgr.extended, room, show (n.toNat : Int) ≤ 255 by omega]

theorem sgrLoop_truecolor (fuel : Nat) (colors : BitVec 16 × BitVec 16) {back : Bool}
    {r g b : UInt8}
    (here : ParamsFrom p np i ((Sgr.truecolor back r g b).params ++ rest))
    (whole : ∀ c ∈ [r, g, b], endsSubParams c.toNat = false)
    (next : ∀ v ∈ rest.head?, endsSubParams v = true) :
    sgrLoop p np (fuel + 1) i colors = sgrLoop p np fuel (i + 5) colors := by
  obtain ⟨fg, bg⟩ := colors
  obtain ⟨inside, code, here⟩ := here.cons
  obtain ⟨-, isTwo, here⟩ := here.cons
  obtain ⟨-, isR, here⟩ := here.cons
  obtain ⟨-, isG, here⟩ := here.cons
  obtain ⟨-, isB, len, after⟩ := here.cons
  rw [List.append_eq, List.nil_append] at len
  have passed : ∀ j, i < j → j < i + 5 → endsSubParams (p j) = false := by
    intro j low high
    obtain rfl | rfl | rfl | rfl : j = i + 1 ∨ j = i + 1 + 1 ∨ j = i + 1 + 1 + 1 ∨
      j = i + 1 + 1 + 1 + 1 := by omega
    · rw [isTwo]
      rfl
    · exact isR ▸ whole r (by simp)
    · exact isG ▸ whole g (by simp)
    · exact isB ▸ whole b (by simp)
  have found : ((List.range np).find? fun j => decide (i < j) && endsSubParams (p j)).getD np =
      i + 5 := by
    cases rest with
    | nil =>
      rw [List.find?_range_eq_none.mpr, Option.getD_none, len, List.length_nil]
      intro j below
      rw [len, List.length_nil] at below
      by_cases behind : i < j
      · simp [passed j behind (by omega)]
      · simp [behind]
    | cons w rest =>
      have stops := next w rfl
      rw [← after 0 w rfl] at stops
      rw [List.find?_range_eq_some.mpr, Option.getD_some]
      refine ⟨by simpa using stops, by simp [len], fun j below => ?_⟩
      by_cases behind : i < j
      · simp [passed j behind below]
      · simp [behind]
  rw [sgrLoop, if_pos inside, code, isTwo, found]
  cases back <;> simp [Sgr.extended]

theorem sgrLoop_groups (groups : List Sgr) (whole : Sgr.SkipsWhole groups) (fuel : Nat)
    (colors : BitVec 16 × BitVec 16) (here : ParamsFrom p np i (groups.flatMap Sgr.params))
    (enough : np ≤ i + fuel) :
    sgrLoop p np fuel i colors = groups.foldl Sgr.effect colors := by
  induction groups generalizing fuel i colors with
  | nil =>
    cases fuel with
    | zero => rfl
    | succ fuel => rw [sgrLoop, if_neg (by simp [here.1])]; rfl
  | cons group groups ih =>
    rw [List.flatMap_cons] at here
    obtain ⟨fuel, rfl⟩ : ∃ k, fuel = k + 1 := by
      have := here.1
      cases group <;> exact ⟨fuel - 1, by simp [Sgr.params] at this; omega⟩
    rw [List.foldl_cons]
    cases group with
    | plain v documented =>
      obtain ⟨inside, isV, later⟩ := here.cons
      rw [sgrLoop_plain fuel colors documented inside isV]
      exact ih whole fuel _ later (by omega)
    | indexed back n =>
      rw [sgrLoop_indexed fuel colors here]
      exact ih whole fuel _ here.cons.2.2.cons.2.2.cons.2.2 (by omega)
    | truecolor back r g b =>
      obtain ⟨components, next, whole⟩ := whole
      rw [sgrLoop_truecolor fuel colors here components next]
      exact ih whole fuel _ here.cons.2.2.cons.2.2.cons.2.2.cons.2.2.cons.2.2 (by omega)

/-- Each code has its own effect, and a truecolor group that is skipped as a whole has none. -/
theorem sgrApply_folds (t : Grid) (groups : List Sgr)
    (spelled : ParamsFrom t.params t.nparams 0 (groups.flatMap Sgr.params))
    (whole : Sgr.SkipsWhole groups) :
    (t.sgrApply.sgrFg, t.sgrApply.sgrBg) = Sgr.interpret (t.sgrFg, t.sgrBg) groups := by
  rw [Grid.sgrApply]
  cases groups with
  | nil => rw [if_pos (show t.nparams = 0 from spelled.1)]; rfl
  | cons group groups =>
    have some : t.nparams ≠ 0 := by
      rw [spelled.1]
      cases group <;> simp [Sgr.params]
    rw [if_neg some]
    exact sgrLoop_groups _ whole _ _ spelled (by omega)

/-- A terminal with red text that has collected these parameters. -/
def collected (ps : List Int) : Grid :=
  { Grid.start with params := fun k => ps.getD k 0, nparams := ps.length, sgrFg := attrErr }

theorem collected_spelled (ps : List Int) :
    ParamsFrom (collected ps).params (collected ps).nparams 0 ps := by
  refine ⟨(Nat.zero_add _).symm, fun k v found => ?_⟩
  rw [Nat.zero_add]
  exact (List.getD_eq_getElem?_getD).trans (by rw [found]; rfl)

/-- A true colour, whose components hold no 0, followed by red. -/
theorem sgrApply_folds_orange :
    ((collected [38, 2, 255, 128, 1, 31]).sgrApply.sgrFg,
      (collected [38, 2, 255, 128, 1, 31]).sgrApply.sgrBg) = (attrErr, attrText) :=
  sgrApply_folds _ [.truecolor false 255 128 1, .plain 31 (by unfold IsPlain; decide)]
    (collected_spelled _) ⟨by decide +kernel, by simp [Sgr.params, endsSubParams], trivial⟩

/-- The components of black are read as resets. -/
theorem sgrApply_misreads_black : ¬ ∀ (t : Grid) (groups : List Sgr),
    ParamsFrom t.params t.nparams 0 (groups.flatMap Sgr.params) →
      (t.sgrApply.sgrFg, t.sgrApply.sgrBg) = Sgr.interpret (t.sgrFg, t.sgrBg) groups := by
  intro folds
  have wrong := folds (collected [38, 2, 0, 0, 0]) [.truecolor false 0 0 0] (collected_spelled _)
  exact absurd wrong (by decide)

end M4KK1.Terminal
