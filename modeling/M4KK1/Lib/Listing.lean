import Mathlib.Data.List.Range

/-!
# Listings of a partial map

Entries with a key in a range, in the order of their keys, and folds that may stop early.
-/

namespace M4KK1.Lib

open List

section Listing

variable {Value : Type} {get get' : Nat → Option Value} {lo mid hi key : Nat} {value : Value}

/-- The entries of a map with a key in `[lo, hi)`, smallest key first. -/
def listing (get : Nat → Option Value) (lo hi : Nat) : List (Nat × Value) :=
  (List.range' lo (hi - lo)).filterMap fun key => (get key).map fun value => (key, value)

/-- The listing has what the map binds in the range. -/
theorem mem_listing : (key, value) ∈ listing get lo hi ↔
    get key = some value ∧ lo ≤ key ∧ key < hi := by
  simp only [listing, mem_filterMap, Option.map_eq_some_iff, Prod.mk.injEq]
  constructor
  · rintro ⟨other, inRange, found, bound, rfl, rfl⟩
    obtain ⟨low, high⟩ := mem_range'_1.mp inRange
    exact ⟨bound, low, by omega⟩
  · rintro ⟨bound, low, high⟩
    exact ⟨key, mem_range'_1.mpr ⟨low, by omega⟩, value, bound, rfl, rfl⟩

theorem listing_sorted (get : Nat → Option Value) (lo hi : Nat) :
    (listing get lo hi).Pairwise fun first second => first.1 < second.1 := by
  refine List.Pairwise.filterMap _ ?_ (pairwise_lt_range' (s := lo) (n := hi - lo))
  intro key key' less entry isEntry entry' isEntry'
  obtain ⟨_, _, rfl⟩ := Option.map_eq_some_iff.mp isEntry
  obtain ⟨_, _, rfl⟩ := Option.map_eq_some_iff.mp isEntry'
  exact less

theorem listing_append (get : Nat → Option Value) (low : lo ≤ mid) (high : mid ≤ hi) :
    listing get lo hi = listing get lo mid ++ listing get mid hi := by
  have split : List.range' lo (hi - lo) = List.range' lo (mid - lo) ++
      List.range' mid (hi - mid) := by
    have start : mid = lo + 1 * (mid - lo) := by omega
    conv_rhs => rw [start]
    rw [Nat.one_mul, Nat.add_sub_cancel_left, range'_append_1]
    congr 1
    omega
  rw [listing, split, filterMap_append]
  rfl

theorem listing_congr (same : ∀ key, lo ≤ key → key < hi → get key = get' key) :
    listing get lo hi = listing get' lo hi := by
  refine filterMap_congr fun key inRange => ?_
  obtain ⟨low, high⟩ := mem_range'_1.mp inRange
  rw [same key low (by omega)]

theorem listing_nil (none : ∀ key, lo ≤ key → key < hi → get key = none) :
    listing get lo hi = [] := by
  refine filterMap_eq_nil_iff.mpr fun key inRange => ?_
  obtain ⟨low, high⟩ := mem_range'_1.mp inRange
  rw [none key low (by omega), Option.map_none]

theorem listing_from (low : lo ≤ mid) (none : ∀ key, lo ≤ key → key < mid → get key = none) :
    listing get lo hi = listing get mid hi := by
  rcases Nat.le_total mid hi with high | past
  · rw [listing_append get low high, listing_nil none, nil_append]
  · rw [listing_nil fun key above below => none key above (Nat.lt_of_lt_of_le below past),
      listing_nil fun key above below => by omega]

theorem listing_upTo (high : mid ≤ hi) (none : ∀ key, mid ≤ key → key < hi → get key = none) :
    listing get lo hi = listing get lo mid := by
  rcases Nat.le_total lo mid with low | past
  · rw [listing_append get low high, listing_nil none, append_nil]
  · rw [listing_nil fun key above below => none key (past.trans above) below,
      listing_nil fun key above below => by omega]

theorem listing_split (get : Nat → Option Value) {bound next : Nat} (le : bound ≤ next)
    (lo hi : Nat) :
    listing get (max lo bound) hi =
      listing get (max lo bound) (min hi next) ++ listing get (max lo next) hi := by
  rcases Nat.lt_or_ge (max lo bound) next with below | past
  · rcases Nat.le_total hi next with ends | goesOn
    · rw [Nat.min_eq_left ends, listing_nil fun key (above : max lo next ≤ key) below => by omega,
        append_nil]
    · rw [Nat.min_eq_right goesOn, listing_append get below.le goesOn,
        show max lo next = next by omega]
  · have none : listing get (max lo bound) (min hi next) = [] :=
      listing_nil fun key above below => by omega
    rw [none, nil_append, show max lo next = max lo bound by omega]

theorem listing_cons (bound : get key = some value) (low : lo ≤ key) (high : key < hi)
    (none : ∀ other, lo ≤ other → other < key → get other = none) :
    listing get lo hi = (key, value) :: listing get (key + 1) hi := by
  have here : listing get key (key + 1) = [(key, value)] := by
    simp [listing, bound]
  rw [listing_from low none, listing_append get (Nat.le_succ key) high, here, singleton_append]

end Listing

section Visit

variable {Item Acc : Type} (step : Item → Acc → Acc × Bool)

/-- A fold that ends with the first item at which the step says so. -/
def visit : List Item → Acc → Acc × Bool
  | [], acc => (acc, false)
  | item :: rest, acc =>
    if (step item acc).2 then ((step item acc).1, true) else visit rest (step item acc).1

/-- A visit goes on with the back unless the front has stopped it. -/
theorem visit_append (front back : List Item) (acc : Acc) :
    visit step (front ++ back) acc =
      if (visit step front acc).2 then visit step front acc
        else visit step back (visit step front acc).1 := by
  induction front generalizing acc with
  | nil => rfl
  | cons item front ih =>
    rw [cons_append, visit, visit]
    split
    · rfl
    · exact ih _

end Visit

end M4KK1.Lib
