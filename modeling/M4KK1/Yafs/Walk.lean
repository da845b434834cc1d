import Mathlib.Algebra.Ring.Nat
import M4KK1.Lib.Listing
import M4KK1.Yafs.BtreeCalls

/-!
# The range walk of `btree.c`

The walk visits the listing of the map that the tree holds, until a callback stops it.
-/

namespace M4KK1.Yafs

open Lib

/-- A walk callback: the context after the call, and whether it returned non-zero. -/
abbrev WalkCallback (Ctx : Type) := Nat → Nat → Ctx → Ctx × Bool

/-- What a walk of a subtree leaves behind: the context, `*pDone`, and whether it
returned 0. -/
structure WalkOut (Ctx : Type) where
  ctx : Ctx
  done : Bool
  ok : Bool

variable {Ctx : Type}

def uint64Max : Nat := 2 ^ 64 - 1

/-- The leaf loop of `btree_walk_range_recursive` from entry `i`. -/
def walkLeaf (cb : WalkCallback Ctx) (leaf : LeafPayload) (lo hi : Nat) :
    Nat → Nat → Ctx → Except Fault (WalkOut Ctx)
  | 0, _, ctx => return ⟨ctx, false, true⟩
  | remaining + 1, i, ctx => do
    let key ← leaf.keys.read i
    if key < lo then walkLeaf cb leaf lo hi remaining (i + 1) ctx
    else if key ≥ hi then return ⟨ctx, true, true⟩
    else do
      let value ← leaf.values.read i
      let (ctx, stop) := cb key value ctx
      if stop then return ⟨ctx, true, true⟩
      else walkLeaf cb leaf lo hi remaining (i + 1) ctx

/-- `u64ChildLo` of the child loop. -/
def walkChildLo (internal : InternalPayload) (i : Nat) : Except Fault Nat :=
  if i > 0 then internal.keys.read (i - 1) else .ok 0

/-- `u64ChildHi` of the child loop. -/
def walkChildHi (internal : InternalPayload) (entryCount i : Nat) : Except Fault Nat :=
  if i < entryCount then internal.keys.read i else .ok uint64Max

/-- The child loop of `btree_walk_range_recursive` from child `i`; `walk` is the
recursive call. -/
def walkChildren (walk : Nat → Nat → Nat → Ctx → Except Fault (WalkOut Ctx))
    (internal : InternalPayload) (entryCount lo hi : Nat) :
    Nat → Nat → Ctx → Except Fault (WalkOut Ctx)
  | 0, _, ctx => return ⟨ctx, false, true⟩
  | remaining + 1, i, ctx => do
    let childLo ← walkChildLo internal i
    if childLo > hi then return ⟨ctx, false, true⟩
    else do
      let childHi ← walkChildHi internal entryCount i
      if childHi ≤ lo then walkChildren walk internal entryCount lo hi remaining (i + 1) ctx
      else do
        let child ← internal.children.read i
        let out ← walk child lo (if childHi < hi then childHi else hi) ctx
        if out.ok = false ∨ out.done = true then return out
        else walkChildren walk internal entryCount lo hi remaining (i + 1) out.ctx

/-- `btree_walk_range_recursive`; `*pDone` is false whenever it is entered. -/
def btreeWalkRangeRecursive (device : Device) (cb : WalkCallback Ctx) :
    Nat → Nat → Nat → Nat → Ctx → Except Fault (WalkOut Ctx)
  | 0, _, _, _, _ => .error .outOfFuel
  | fuel + 1, nodeLba, lo, hi, ctx =>
    if nodeLba = 0 then return ⟨ctx, false, true⟩
    else do
      match ← nodeRead device nodeLba with
      | none => return ⟨ctx, false, false⟩
      | some node =>
        match node.payload with
        | .leaf leaf => walkLeaf cb leaf lo hi node.entryCount 0 ctx
        | .internal internal =>
          walkChildren
            (fun child lo hi ctx => btreeWalkRangeRecursive device cb fuel child lo hi ctx)
            internal node.entryCount lo hi (node.entryCount + 1) 0 ctx

/-- `mkrn_yafs_btree_walk_range`: the context at the end, and whether it returned 0. -/
def btreeWalkRange (device : Device) (rootLba lo hi : Nat) (cb : WalkCallback Ctx) (ctx : Ctx) :
    Except Fault (Ctx × Bool) :=
  if rootLba = 0 then return (ctx, true)
  else do
    let out ← btreeWalkRangeRecursive device cb (ramdiskBlocks + 1) rootLba lo hi ctx
    return (out.ctx, out.ok)

theorem slotOf_child {keys : Nat → Nat} {count key low high i : Nat}
    (sorted : Increasing keys count) (inside : i ≤ count)
    (above : childLo low keys i ≤ key) (below : key < childHi high keys count i) :
    slotOf keys count key = i := by
  refine slotOf_eq ⟨inside, fun j before => ?_, fun j after bound => ?_⟩
  · rw [childLo, if_neg (by omega)] at above
    rcases Nat.lt_or_ge j (i - 1) with earlier | last
    · have := sorted j (i - 1) earlier (by omega)
      omega
    · obtain rfl : j = i - 1 := by omega
      exact above
  · rw [childHi, if_pos (by omega)] at below
    rcases Nat.lt_or_ge i j with later | first
    · have := sorted i j later bound
      omega
    · obtain rfl : j = i := by omega
      exact below

theorem childRange_subset {keys : Nat → Nat} {count key low high i : Nat}
    (range : ∀ j, j < count → low < keys j ∧ keys j < high) (inside : i ≤ count)
    (above : childLo low keys i ≤ key) (below : key < childHi high keys count i) :
    low ≤ key ∧ key < high := by
  unfold childLo at above
  unfold childHi at below
  constructor
  · split at above
    · exact above
    · have := (range (i - 1) (by omega)).1
      omega
  · split at below
    next last =>
      have := (range i last).2
      omega
    next => exact below

def visitEntry (cb : WalkCallback Ctx) (entry : Nat × Nat) (ctx : Ctx) : Ctx × Bool :=
  cb entry.1 entry.2 ctx

/-- The range was visited; the walk is done only when it was stopped or its range is before
`top`. -/
structure Visited (get : Nat → Option Nat) (cb : WalkCallback Ctx) (lo hi top : Nat) (ctx : Ctx)
    (out : WalkOut Ctx) : Prop where
  ok : out.ok = true
  ctx_eq : out.ctx = (visit (visitEntry cb) (listing get lo hi) ctx).1
  stopped : (visit (visitEntry cb) (listing get lo hi) ctx).2 = true → out.done = true
  past : out.done = true → (visit (visitEntry cb) (listing get lo hi) ctx).2 = true ∨ hi < top

variable {cb : WalkCallback Ctx}

variable {count : Nat} {device : Device} {height low high : Nat} {get : Nat → Option Nat}
  {lo hi top : Nat}

theorem cellFind_cell {keys values : Nat → Nat} {key value : Nat}
    (found : cellFind keys values count key = some value) :
    ∃ i, i < count ∧ keys i = key ∧ values i = value := by
  induction count with
  | zero => cases found
  | succ count ih =>
    unfold cellFind at found
    split at found
    next here => exact ⟨count, by omega, here, Option.some.inj found⟩
    next =>
      obtain ⟨i, inside, isKey, isValue⟩ := ih found
      exact ⟨i, by omega, isKey, isValue⟩

theorem IsTree.treeGet_range {lba key value : Nat}
    (tree : IsTree device height low high lba)
    (bound : treeGet device height lba key = some value) :
    low ≤ key ∧ key < high := by
  induction tree with
  | leaf image positive allocated bounded sorted range =>
    rw [treeGet_leaf image] at bound
    obtain ⟨i, inside, rfl, -⟩ := cellFind_cell bound
    exact range i inside
  | internal image positive allocated bounded sorted range ordered subtrees ih =>
    rw [treeGet_internal image] at bound
    have inside := (isSlot_slotOf sorted key).le_count
    obtain ⟨above, below⟩ := ih _ inside bound
    exact childRange_subset range inside above below

theorem visited_nil {done : Bool} (ctx : Ctx)
    (none : ∀ key, lo ≤ key → key < hi → get key = none) (past : done = true → hi < top) :
    Visited get cb lo hi top ctx ⟨ctx, done, true⟩ := by
  have empty := listing_nil none
  refine ⟨rfl, ?_, ?_, fun isDone => .inr (past isDone)⟩
  · rw [empty]
    rfl
  · rw [empty]
    exact fun stops => nomatch stops

theorem walkLeaf_visited (leaf : LeafPayload) (lo hi bound : Nat) (fits : count ≤ btreeMaxKeys)
    (sorted : Increasing leaf.keys.cell count) (below : ∀ j, j < count → leaf.keys.cell j < top)
    {remaining i : Nat} (ctx : Ctx) (rest : i + remaining = count)
    (before : ∀ j, j < i → leaf.keys.cell j < bound)
    (behind : ∀ j, i ≤ j → j < count → bound ≤ leaf.keys.cell j) :
    ∃ out, walkLeaf cb leaf lo hi remaining i ctx = .ok out ∧
      Visited (cellFind leaf.keys.cell leaf.values.cell count) cb
        (max lo bound) hi top ctx out := by
  induction remaining generalizing i bound ctx with
  | zero =>
    refine ⟨_, rfl, visited_nil ctx (fun key low _ => ?_) (fun isDone => nomatch isDone)⟩
    refine cellFind_none fun j inside isKey => ?_
    have := before j (by omega)
    omega
  | succ remaining ih =>
    have here := behind i (Nat.le_refl i) (by omega)
    -- The cells before `i` are the only ones with a smaller key.
    have noneBefore : ∀ key, max lo bound ≤ key → key < leaf.keys.cell i →
        cellFind leaf.keys.cell leaf.values.cell count key = none := by
      intro key low less
      refine cellFind_none fun j inside isKey => ?_
      rcases Nat.lt_trichotomy j i with earlier | rfl | later
      · have := before j earlier
        omega
      · omega
      · have := sorted i j later inside
        omega
    have next : ∀ j, j < i + 1 → leaf.keys.cell j < leaf.keys.cell i + 1 := by
      intro j inside
      rcases Nat.lt_succ_iff_lt_or_eq.mp inside with earlier | rfl
      · exact Nat.lt_succ_of_lt (sorted j i earlier (by omega))
      · exact Nat.lt_succ_self _
    have nextBehind : ∀ j, i + 1 ≤ j → j < count → leaf.keys.cell i + 1 ≤ leaf.keys.cell j :=
      fun j after inside => sorted i j after inside
    unfold walkLeaf
    rw [CArray.read_eq (by omega), ok_bind]
    split
    next small =>
      obtain ⟨out, ran, visited⟩ := ih _ ctx (by omega) next nextBehind
      have same : max lo (leaf.keys.cell i + 1) = max lo bound := by omega
      exact ⟨out, ran, same ▸ visited⟩
    next notSmall =>
      split
      next past =>
        refine ⟨_, rfl,
          visited_nil ctx (fun key low high => noneBefore key low (by omega)) fun _ => ?_⟩
        exact Nat.lt_of_le_of_lt past (below i (by omega))
      next inRange =>
        have found := cellFind_some leaf.values.cell sorted (show i < count by omega)
        have entries := listing_cons found (show max lo bound ≤ leaf.keys.cell i by omega)
          (Nat.lt_of_not_le inRange) noneBefore
        rw [CArray.read_eq (by omega), ok_bind]
        cases called : cb (leaf.keys.cell i) (leaf.values.cell i) ctx with
        | mk after stop =>
          have step : visitEntry cb (leaf.keys.cell i, leaf.values.cell i) ctx = (after, stop) :=
            called
          cases stop with
          | true =>
            refine ⟨_, rfl, rfl, ?_, fun _ => rfl, fun _ => .inl ?_⟩ <;> simp [entries, visit, step]
          | false =>
            obtain ⟨out, ran, visited⟩ := ih _ after (by omega) next nextBehind
            have same : max lo (leaf.keys.cell i + 1) = leaf.keys.cell i + 1 := by omega
            rw [same] at visited
            have rest : visit (visitEntry cb)
              (listing (cellFind leaf.keys.cell leaf.values.cell count)
                (max lo bound) hi) ctx =
                visit (visitEntry cb) (listing (cellFind leaf.keys.cell leaf.values.cell count)
                  (leaf.keys.cell i + 1) hi) after := by
              simp [entries, visit, step]
            exact ⟨out, ran, visited.ok, rest ▸ visited.ctx_eq, rest ▸ visited.stopped,
              rest ▸ visited.past⟩

theorem visited_append {lo' mid : Nat} {ctx middle : Ctx} {out : WalkOut Ctx}
    (split : listing get lo hi = listing get lo mid ++ listing get lo' hi)
    (first : visit (visitEntry cb) (listing get lo mid) ctx = (middle, false))
    (rest : Visited get cb lo' hi top middle out) : Visited get cb lo hi top ctx out := by
  have whole : visit (visitEntry cb) (listing get lo hi) ctx =
      visit (visitEntry cb) (listing get lo' hi) middle := by
    rw [split, visit_append, first]
    rfl
  exact ⟨rest.ok, whole ▸ rest.ctx_eq, whole ▸ rest.stopped, whole ▸ rest.past⟩

theorem Visited.congr {get' : Nat → Option Nat} {lo' hi' top' : Nat} {ctx : Ctx}
    {out : WalkOut Ctx} (visited : Visited get cb lo hi top ctx out)
    (same : listing get' lo' hi' = listing get lo hi) (ends : hi < top → hi' < top') :
    Visited get' cb lo' hi' top' ctx out :=
  ⟨visited.ok, same ▸ visited.ctx_eq, same ▸ visited.stopped, fun isDone =>
    (visited.past isDone).imp (same ▸ ·) ends⟩

/-- What child `i` has to do with the keys from `bound` to `next`. -/
structure ChildPart (get childGet : Nat → Option Nat) (bound next top high : Nat) : Prop where
  le : bound ≤ next
  agrees : ∀ key, bound ≤ key → key < next → childGet key = get key
  inside : ∀ key value, childGet key = some value → bound ≤ key ∧ key < next
  top_le : top ≤ next
  top_high : top ≤ high

theorem ChildPart.listing_eq {childGet : Nat → Option Nat} {bound next : Nat}
    (part : ChildPart get childGet bound next top high) {hi' : Nat}
    (clipped : hi' = hi ∨ hi' = min hi next) :
    listing childGet lo hi' = listing get (max lo bound) (min hi next) := by
  have noneBelow : ∀ key, lo ≤ key → key < max lo bound → childGet key = none := by
    intro key above below
    refine Option.eq_none_iff_forall_ne_some.mpr fun value isBound => ?_
    have := (part.inside key value isBound).1
    omega
  have noneAbove : ∀ key, min hi next ≤ key → key < hi' → childGet key = none := by
    intro key above below
    refine Option.eq_none_iff_forall_ne_some.mpr fun value isBound => ?_
    have := (part.inside key value isBound).2
    omega
  calc listing childGet lo hi'
      = listing childGet (max lo bound) hi' := listing_from (Nat.le_max_left _ _) noneBelow
    _ = listing childGet (max lo bound) (min hi next) := listing_upTo (by omega) noneAbove
    _ = listing get (max lo bound) (min hi next) :=
        listing_congr fun key above below => part.agrees key (by omega) (by omega)

/-- The children of a node share out its keys in order. -/
structure SharesKeys (keys : Nat → Nat) (count low high : Nat) (get : Nat → Option Nat)
    (childGet : Nat → Nat → Option Nat) : Prop where
  sorted : Increasing keys count
  range : ∀ i, i < count → low < keys i ∧ keys i < high
  slots : ∀ {key value}, get key = some value →
    ∃ j, j ≤ count ∧ childLo low keys j ≤ key ∧ key < childHi high keys count j
  agrees : ∀ {i key}, i ≤ count → childLo low keys i ≤ key → key < childHi high keys count i →
    childGet i key = get key
  inChild : ∀ {i key value}, i ≤ count → childGet i key = some value →
    childLo low keys i ≤ key ∧ key < childHi high keys count i

namespace SharesKeys

variable {keys : Nat → Nat} {count low high : Nat} {get : Nat → Option Nat}
  {childGet : Nat → Nat → Option Nat}

section

variable (shares : SharesKeys keys count low high get childGet)

include shares

theorem childHi_le_childLo {i j : Nat} (before : j < i) (inside : i ≤ count) :
    childHi high keys count j ≤ childLo low keys i := by
  rw [childHi, if_pos (by omega), childLo, if_neg (by omega)]
  rcases Nat.lt_or_ge j (i - 1) with earlier | last
  · exact Nat.le_of_lt (shares.sorted j (i - 1) earlier (by omega))
  · obtain rfl : j = i - 1 := by omega
    exact Nat.le_refl _

theorem childLo_mono {i j : Nat}
    (le : i ≤ j) (inside : j ≤ count) : childLo low keys i ≤ childLo low keys j := by
  rcases Nat.eq_or_lt_of_le le with rfl | before
  · exact Nat.le_refl _
  · refine Nat.le_trans ?_ (shares.childHi_le_childLo before inside)
    unfold childLo childHi
    rw [if_pos (show i < count by omega)]
    split
    next => exact Nat.le_of_lt (shares.range i (by omega)).1
    next => exact Nat.le_of_lt (shares.sorted (i - 1) i (by omega) (by omega))

theorem childHi_le (i : Nat) : childHi high keys count i ≤ high := by
  unfold childHi
  split
  next inside => exact Nat.le_of_lt (shares.range i inside).2
  next => exact Nat.le_refl _

end

/-- The least key that child `i + 1` may have, and behind the last child a key that none exceeds. -/
def nextLow (keys : Nat → Nat) (count low high i : Nat) : Nat :=
  if i < count then keys i else max high (childLo low keys i)

theorem childPart (shares : SharesKeys keys count low high get childGet) {i : Nat}
    (inside : i ≤ count) :
    ChildPart get (childGet i) (childLo low keys i) (nextLow keys count low high i)
      (childHi high keys count i)
      high := by
  have top : childHi high keys count i ≤ nextLow keys count low high i := by
    unfold childHi nextLow
    split
    next => exact Nat.le_refl _
    next => exact Nat.le_max_left _ _
  refine ⟨?_, fun key above below => shares.agrees inside above ?_, fun key value isBound => ?_,
    top,
    shares.childHi_le i⟩
  · unfold nextLow
    split
    next notLast =>
      have next := shares.childLo_mono (Nat.le_succ i) notLast
      rwa [childLo.eq_def low keys (i + 1), if_neg (Nat.succ_ne_zero i), Nat.add_sub_cancel] at next
    next => exact Nat.le_max_right _ _
  · unfold nextLow at below
    unfold childHi
    split
    next notLast => rwa [if_pos notLast] at below
    next last =>
      rw [if_neg last] at below
      omega
  · have range := shares.inChild inside isBound
    exact ⟨range.1, Nat.lt_of_lt_of_le range.2 top⟩

theorem none_beyond (shares : SharesKeys keys count low high get childGet) {key : Nat}
    (above : high ≤ key) :
    get key = none := by
  refine Option.eq_none_iff_forall_ne_some.mpr fun value isBound => ?_
  obtain ⟨j, inside, _, below⟩ := shares.slots isBound
  have := shares.childHi_le j
  omega

end SharesKeys

theorem walkChildren_visited {walk : Nat → Nat → Nat → Ctx → Except Fault (WalkOut Ctx)}
    {internal : InternalPayload} {childGet : Nat → Nat → Option Nat}
    (bounded : count ≤ btreeMaxKeys) (lowBound : lo ≤ uint64Max)
    (highBound : hi ≤ uint64Max)
    (shares : SharesKeys internal.keys.cell count low high get childGet)
    (children : ∀ i, i ≤ count → ∀ hi ctx, hi ≤ uint64Max →
      ∃ out, walk (internal.children.cell i) lo hi ctx = .ok out ∧
        Visited (childGet i) cb lo hi (childHi high internal.keys.cell count i) ctx out)
    {remaining i : Nat} (bound : Nat) (ctx : Ctx) (rest : i + remaining = count + 1)
    (atChild : i ≤ count → bound = childLo low internal.keys.cell i)
    (atEnd : i = count + 1 → high ≤ bound) :
    ∃ out, walkChildren walk internal count lo hi remaining i ctx = .ok out ∧
      Visited get cb (max lo bound) hi high ctx out := by
  induction remaining generalizing i bound ctx with
  | zero =>
    refine ⟨_, rfl,
      visited_nil ctx (fun key above _ => shares.none_beyond ?_) (fun isDone => nomatch isDone)⟩
    have := atEnd (by omega)
    omega
  | succ remaining ih =>
    have inside : i ≤ count := by omega
    obtain rfl := atChild inside
    have part := shares.childPart inside
    obtain ⟨next, isNext⟩ : ∃ next, next = SharesKeys.nextLow internal.keys.cell count low high i :=
      ⟨_, rfl⟩
    rw [← isNext] at part
    have atNext : i + 1 ≤ count → next = childLo low internal.keys.cell (i + 1) := by
      intro notLast
      rw [isNext, SharesKeys.nextLow, if_pos (Nat.lt_of_succ_le notLast), childLo,
        if_neg (Nat.succ_ne_zero i),
        Nat.add_sub_cancel]
    have atLast : i + 1 = count + 1 → high ≤ next := by
      intro isLast
      rw [isNext, SharesKeys.nextLow, if_neg (by omega)]
      exact Nat.le_max_left _ _
    obtain ⟨lowest, lower, isLowest⟩ : ∃ lowest, walkChildLo internal i = .ok lowest ∧
        lowest ≤ childLo low internal.keys.cell i := by
      unfold walkChildLo childLo
      by_cases isFirst : i = 0
      · exact ⟨0, by rw [if_neg (by omega)], Nat.zero_le _⟩
      · exact ⟨_, by rw [if_pos (by omega), CArray.read_eq (by omega)],
          Nat.le_of_eq (by rw [if_neg isFirst])⟩
    obtain ⟨highest, upper, isHighest⟩ : ∃ highest, walkChildHi internal count i = .ok highest ∧
        (highest = next ∨ highest = uint64Max) := by
      unfold walkChildHi
      rw [isNext, SharesKeys.nextLow]
      by_cases notLast : i < count
      · exact ⟨_, by rw [if_pos notLast, CArray.read_eq (by omega)], .inl (if_pos notLast).symm⟩
      · exact ⟨_, by rw [if_neg notLast], .inr rfl⟩
    have whole := listing_split get part.le lo hi
    unfold walkChildren
    rw [lower, ok_bind]
    split
    next beyond =>
      exact ⟨_, rfl,
        visited_nil ctx (fun key above below => by omega) (fun isDone => nomatch isDone)⟩
    next =>
      rw [upper, ok_bind]
      split
      next skipped =>
        obtain ⟨out, ran, visited⟩ := ih next ctx (by omega) atNext atLast
        refine ⟨out, ran, visited.congr ?_ id⟩
        rw [whole, listing_nil (fun key above below => by omega), List.nil_append]
      next =>
        obtain ⟨hi', isHi⟩ : ∃ hi', hi' = if highest < hi then highest else hi := ⟨_, rfl⟩
        have clipped : hi' = hi ∨ hi' = min hi next := by
          rw [isHi]
          split <;> omega
        obtain ⟨out, walked, visited⟩ := children i inside hi' ctx (by omega)
        have isPart : listing (childGet i) lo hi' = _ := part.listing_eq clipped
        rw [CArray.read_eq (by omega), ok_bind, ← isHi, walked, ok_bind]
        have ends : hi' < childHi high internal.keys.cell count i → hi' = hi := by
          have := part.top_le
          omega
        cases called : visit (visitEntry cb) (listing (childGet i) lo hi') ctx with
        | mk middle stop =>
          have isMiddle : out.ctx = middle := by rw [visited.ctx_eq, called]
          cases stop with
          | true =>
            have isDone : out.done = true := visited.stopped (by rw [called])
            have stops : visit (visitEntry cb)
              (listing get (max lo (childLo low internal.keys.cell i)) hi) ctx =
                (middle, true) := by
              rw [whole, ← isPart, visit_append, called]
              rfl
            rw [if_pos (.inr isDone)]
            exact ⟨out, rfl, visited.ok, by rw [stops, isMiddle], fun _ => isDone,
              fun _ => .inl (by rw [stops])⟩
          | false =>
            by_cases isDone : out.done = true
            · rw [if_pos (.inr isDone)]
              -- The separator behind the child is past the whole walk.
              have past : hi' < childHi high internal.keys.cell count i :=
                (visited.past isDone).resolve_left (by rw [called]; exact Bool.false_ne_true)
              have atHi := ends past
              have toNext := part.top_le
              have toHigh := part.top_high
              refine ⟨out, rfl, visited.congr ?_ fun _ => by omega⟩
              have behind : listing get (max lo next) hi = [] :=
                listing_nil fun key above below => by omega
              rw [whole, behind, List.append_nil, isPart]
            · rw [if_neg (by rw [visited.ok]; simpa using isDone)]
              obtain ⟨last, ran, later⟩ := ih next out.ctx (by omega) atNext atLast
              refine ⟨last, ran, visited_append whole ?_ later⟩
              rw [← isPart, called, isMiddle]

theorem IsTree.sharesKeys {lba level : Nat} {internal : InternalPayload}
    (tree : IsTree device (height + 1) low high lba)
    (image : device.blocks lba = .node ⟨level, count, .internal internal⟩) :
    SharesKeys internal.keys.cell count low high (treeGet device (height + 1) lba)
      fun i => treeGet device height (internal.children.cell i) := by
  have whole := tree
  cases tree with
  | @internal _ _ _ _ _ _ payload image' positive allocated bounded sorted range ordered subtrees =>
    cases image.symm.trans image'
    refine ⟨sorted, range, ?_, ?_, ?_⟩
    · intro key value bound
      obtain ⟨above, below⟩ := whole.treeGet_range bound
      have isSlot := isSlot_slotOf sorted key
      exact ⟨_, isSlot.le_count, isSlot.inRange above below⟩
    · intro i key inside above below
      rw [treeGet_internal image, slotOf_child sorted inside above below]
    · intro i key value inside bound
      exact (subtrees i inside).treeGet_range bound

theorem btreeWalkRangeRecursive_visited (cb : WalkCallback Ctx) {lba : Nat}
    (tree : IsTree device height low high lba) (limit : device.nextFreeBlock ≤ ramdiskBlocks)
    {fuel : Nat}
    (enough : height < fuel) (lowBound : lo ≤ uint64Max) (highBound : hi ≤ uint64Max) (ctx : Ctx) :
    ∃ out, btreeWalkRangeRecursive device cb fuel lba lo hi ctx = .ok out ∧
      Visited (treeGet device height lba) cb lo hi high ctx out := by
  induction tree generalizing fuel hi ctx with
  | @leaf _ high lba level count leaf image positive allocated bounded sorted range =>
    obtain ⟨fuel, rfl⟩ := Nat.exists_eq_succ_of_ne_zero (Nat.ne_zero_of_lt enough)
    unfold btreeWalkRangeRecursive
    rw [if_neg (Nat.ne_of_gt positive), nodeRead_eq (Nat.lt_of_lt_of_le allocated limit) image,
      ok_bind]
    have same : treeGet device 0 lba = cellFind leaf.keys.cell leaf.values.cell count := by
      funext key
      exact treeGet_leaf image key
    obtain ⟨out, ran, visited⟩ := walkLeaf_visited leaf lo hi 0 bounded sorted
      (fun j inside => (range j inside).2) ctx (Nat.zero_add count) (by omega) (by omega)
    rw [Nat.max_zero] at visited
    exact ⟨out, ran, same ▸ visited⟩
  | @internal height low high lba level count internal image positive allocated bounded sorted range
      ordered subtrees ih =>
    obtain ⟨fuel, rfl⟩ := Nat.exists_eq_succ_of_ne_zero (Nat.ne_zero_of_lt enough)
    unfold btreeWalkRangeRecursive
    rw [if_neg (Nat.ne_of_gt positive), nodeRead_eq (Nat.lt_of_lt_of_le allocated limit) image,
      ok_bind]
    have whole := IsTree.internal image positive allocated bounded sorted range ordered subtrees
    have shares := whole.sharesKeys image
    obtain ⟨out, ran, visited⟩ := walkChildren_visited bounded lowBound highBound shares
      (fun i inside hi ctx below => ih i inside (Nat.lt_of_succ_lt_succ enough) below ctx) low ctx
      (Nat.zero_add _) (fun _ => rfl) (by omega)
    refine ⟨out, ran,
      visited.congr (listing_from (Nat.le_max_left _ _) fun key above below => ?_) id⟩
    refine Option.eq_none_iff_forall_ne_some.mpr fun value isBound => ?_
    have := (whole.treeGet_range isBound).1
    omega

/-- The walk visits the entries of the range in order. -/
theorem Represents.walk_range {state : BtreeState} {bindings : Nat → Option Nat}
    (rep : Represents state height bindings) (lowBound : lo ≤ uint64Max)
    (highBound : hi ≤ uint64Max) (cb : WalkCallback Ctx) (ctx : Ctx) :
    btreeWalkRange state.device state.rootLba lo hi cb ctx =
      .ok ((visit (visitEntry cb) (listing bindings lo hi) ctx).1, true) := by
  have shallow := rep.shallow
  unfold btreeWalkRange
  cases rep.holds with
  | empty noRoot =>
    rw [if_pos noRoot, listing_nil fun _ _ _ => rfl]
    rfl
  | tree isTree filled =>
    have enough : height < ramdiskBlocks + 1 := by
      unfold btreeMaxDepth at shallow
      unfold ramdiskBlocks
      omega
    obtain ⟨out, walked, visited⟩ :=
      btreeWalkRangeRecursive_visited cb isTree rep.limit enough lowBound highBound ctx
    rw [if_neg (Nat.ne_of_gt isTree.positive), walked, ok_bind, visited.ok, visited.ctx_eq]
    rfl

variable {Keeps : Ctx → Prop}

theorem visit_keeps {entries : List (Nat × Nat)} {ctx : Ctx}
    (keeps : ∀ entry ∈ entries, ∀ ctx, Keeps ctx → Keeps (cb entry.1 entry.2 ctx).1)
    (start : Keeps ctx) :
    Keeps (visit (visitEntry cb) entries ctx).1 := by
  induction entries generalizing ctx with
  | nil => exact start
  | cons entry entries ih =>
    have after := keeps entry List.mem_cons_self ctx start
    rw [visit]
    split
    next => exact after
    next => exact ih (fun later member => keeps later (List.mem_cons_of_mem _ member)) after

theorem Represents.walk {state : BtreeState} {bindings : Nat → Option Nat}
    (rep : Represents state height bindings) (lowBound : lo ≤ uint64Max)
    (highBound : hi ≤ uint64Max)
    (cb : WalkCallback Ctx)
    (visit : ∀ key value ctx, bindings key = some value → Keeps ctx → Keeps (cb key value ctx).1)
    {ctx : Ctx} (start : Keeps ctx) :
    ∃ out, btreeWalkRange state.device state.rootLba lo hi cb ctx = .ok out ∧ Keeps out.1 :=
  ⟨_, rep.walk_range lowBound highBound cb ctx,
    visit_keeps (fun _ member ctx => visit _ _ ctx (mem_listing.mp member).1) start⟩

end M4KK1.Yafs
