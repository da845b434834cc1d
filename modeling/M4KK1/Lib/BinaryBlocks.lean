import Mathlib.Data.Nat.Bitwise
import Mathlib.Algebra.Order.BigOperators.Group.Finset
import Mathlib.Order.Interval.Finset.Nat

/-!
# Aligned blocks of binary sizes

A `Coalesced` map of blocks, without two buddies, is determined by the pages it covers.
-/

namespace M4KK1.Lib

open Function Finset

theorem add_le_of_dvd {unit low high : Nat} (lowDvd : unit ∣ low) (highDvd : unit ∣ high)
    (ordered : low < high) : low + unit ≤ high := by
  have divides : unit ∣ high - low := Nat.dvd_sub highDvd lowDvd
  have := Nat.le_of_dvd (by omega) divides
  omega

theorem two_pow_dvd_two_pow {low high : Nat} (ordered : low ≤ high) : 2 ^ low ∣ 2 ^ high :=
  Nat.pow_dvd_pow 2 ordered

theorem nested_of_meet {small large inner outer : Nat} (ordered : inner ≤ outer)
    (smallAligned : 2 ^ inner ∣ small) (largeAligned : 2 ^ outer ∣ large)
    (below : small < large + 2 ^ outer) (above : large < small + 2 ^ inner) :
    large ≤ small ∧ small + 2 ^ inner ≤ large + 2 ^ outer := by
  have unit : 2 ^ inner ∣ 2 ^ outer := two_pow_dvd_two_pow ordered
  have largeUnit : 2 ^ inner ∣ large := unit.trans largeAligned
  constructor
  · have := add_le_of_dvd largeUnit (Nat.dvd_add smallAligned (Nat.dvd_refl _)) above
    omega
  · exact add_le_of_dvd smallAligned (Nat.dvd_add largeUnit unit) below

/-- The block that differs from this one in the bit of its order. -/
def buddy (start order : Nat) : Nat := start ^^^ 2 ^ order

@[simp] theorem buddy_buddy (start order : Nat) : buddy (buddy start order) order = start := by
  unfold buddy
  exact Nat.xor_xor_cancel_right start (2 ^ order)

variable {start order : Nat}

section

variable (aligned : 2 ^ order ∣ start)

include aligned

theorem buddy_cases : (2 ^ (order + 1) ∣ start ∧ buddy start order = start + 2 ^ order) ∨
    (2 ^ order ≤ start ∧ 2 ^ (order + 1) ∣ start - 2 ^ order ∧
      buddy start order = start - 2 ^ order) := by
  obtain ⟨index, rfl⟩ := aligned
  have shifted : buddy (2 ^ order * index) order = 2 ^ order * (index ^^^ 1) := by
    have distributed := Nat.shiftLeft_xor_distrib (a := index) (b := 1) (i := order)
    rw [Nat.shiftLeft_eq, Nat.shiftLeft_eq, Nat.shiftLeft_eq, Nat.one_mul] at distributed
    rw [buddy, Nat.mul_comm, ← distributed, Nat.mul_comm]
  rcases Nat.even_or_odd' index with ⟨half, rfl | rfl⟩
  · refine Or.inl ⟨⟨half, by rw [Nat.pow_succ, Nat.mul_assoc]⟩, ?_⟩
    rw [shifted, Nat.xor_one_of_even (even_two_mul half), Nat.mul_add, Nat.mul_one]
  · have split : 2 ^ order * (2 * half + 1) - 2 ^ order = 2 ^ order * (2 * half) := by
      rw [Nat.mul_add, Nat.mul_one, Nat.add_sub_cancel]
    refine Or.inr ⟨Nat.le_mul_of_pos_right _ (by omega), ?_, ?_⟩
    · rw [split]
      exact ⟨half, by rw [Nat.pow_succ, Nat.mul_assoc]⟩
    · rw [shifted, split, Nat.xor_one_of_odd (odd_two_mul_add_one half)]
      rfl

theorem buddy_aligned : 2 ^ order ∣ buddy start order := by
  rcases buddy_cases aligned with ⟨-, upper⟩ | ⟨-, -, lower⟩
  · rw [upper]
    exact Nat.dvd_add aligned (Nat.dvd_refl _)
  · rw [lower]
    exact Nat.dvd_sub aligned (Nat.dvd_refl _)

theorem buddy_ne : buddy start order ≠ start := by
  have positive : 0 < 2 ^ order := Nat.two_pow_pos order
  rcases buddy_cases aligned with ⟨-, upper⟩ | ⟨room, -, lower⟩ <;> omega

theorem parent_aligned : 2 ^ (order + 1) ∣ min start (buddy start order) := by
  rcases buddy_cases aligned with ⟨even, upper⟩ | ⟨-, even, lower⟩
  · rwa [upper, Nat.min_eq_left (Nat.le_add_right _ _)]
  · rwa [lower, Nat.min_eq_right (Nat.sub_le _ _)]

theorem parent_split {page : Nat} : (min start (buddy start order) ≤ page ∧
        page < min start (buddy start order) + 2 ^ (order + 1)) ↔
      (start ≤ page ∧ page < start + 2 ^ order) ∨
      (buddy start order ≤ page ∧ page < buddy start order + 2 ^ order) := by
  have double : 2 ^ (order + 1) = 2 ^ order + 2 ^ order := by
    rw [Nat.pow_succ]
    omega
  rcases buddy_cases aligned with ⟨-, upper⟩ | ⟨room, -, lower⟩
  · rw [upper, Nat.min_eq_left (Nat.le_add_right _ _)]
    omega
  · rw [lower, Nat.min_eq_right (Nat.sub_le _ _)]
    omega

end

/-- Disjoint blocks of orders up to `top`; `head page` is the order of one that starts there. -/
@[ext] structure BlockMap (top base count : Nat) where
  head : Nat → Option Nat
  aligned : ∀ {start order}, head start = some order → 2 ^ order ∣ start
  bounded : ∀ {start order}, head start = some order → order ≤ top
  inside : ∀ {start order}, head start = some order →
    base ≤ start ∧ start + 2 ^ order ≤ base + count
  apart : ∀ {low high inner outer}, head low = some inner → head high = some outer → low < high →
    low + 2 ^ inner ≤ high

namespace BlockMap

variable {top base count : Nat}

def empty : BlockMap top base count where
  head _ := none
  aligned := nofun
  bounded := nofun
  inside := nofun
  apart := nofun

/-- The page is in a block. -/
def Covers (blocks : BlockMap top base count) (page : Nat) : Prop :=
  ∃ start order, blocks.head start = some order ∧ start ≤ page ∧ page < start + 2 ^ order

/-- No page of the block at `start` is inside a block of the map. -/
def Clear (blocks : BlockMap top base count) (start order : Nat) : Prop :=
  ∀ page, start ≤ page → page < start + 2 ^ order → ¬ blocks.Covers page

/-- No two buddies are both blocks. -/
def Coalesced (blocks : BlockMap top base count) : Prop :=
  ∀ {start order}, blocks.head start = some order → order < top →
    blocks.head (buddy start order) ≠ some order

variable {blocks other : BlockMap top base count} {start order page : Nat}

theorem not_covers_empty : ¬ (empty : BlockMap top base count).Covers page := by
  rintro ⟨start, order, isHead, -⟩
  exact absurd isHead (by simp [empty])

theorem coalesced_empty : (empty : BlockMap top base count).Coalesced := by
  intro start order isHead
  exact absurd isHead (by simp [empty])

theorem covers_head (isHead : blocks.head start = some order) : blocks.Covers start :=
  ⟨start, order, isHead, Nat.le_refl _, Nat.lt_add_of_pos_right (Nat.two_pow_pos order)⟩

theorem Covers.inside (covers : blocks.Covers page) : base ≤ page ∧ page < base + count := by
  obtain ⟨start, order, isHead, low, high⟩ := covers
  have := blocks.inside isHead
  omega

theorem eq_of_covers (page : Nat) {start' order' : Nat} (first : blocks.head start = some order)
    (second : blocks.head start' = some order') (low : start ≤ page)
    (high : page < start + 2 ^ order)
    (low' : start' ≤ page) (high' : page < start' + 2 ^ order') :
    start = start' ∧ order = order' := by
  rcases Nat.lt_trichotomy start start' with less | rfl | more
  · have := blocks.apart first second less
    omega
  · exact ⟨rfl, Option.some.inj (first.symm.trans second)⟩
  · have := blocks.apart second first more
    omega

private theorem update_none_eq_some {head : Nat → Option Nat} :
    update head start none page = some order ↔ page ≠ start ∧ head page = some order := by
  by_cases same : page = start
  · simp [same]
  · simp [same]

private theorem update_some_eq_some {head : Nat → Option Nat} {size : Nat} :
    update head start (some order) page = some size ↔
      (page = start ∧ size = order) ∨ (page ≠ start ∧ head page = some size) := by
  by_cases same : page = start
  · simp [same, eq_comm]
  · simp [same]

/-- The map without the block at `start`. -/
def erase (blocks : BlockMap top base count) (start : Nat) : BlockMap top base count where
  head := update blocks.head start none
  aligned := fun isHead => blocks.aligned (update_none_eq_some.mp isHead).2
  bounded := fun isHead => blocks.bounded (update_none_eq_some.mp isHead).2
  inside := fun isHead => blocks.inside (update_none_eq_some.mp isHead).2
  apart := fun lowHead highHead ordered => blocks.apart (update_none_eq_some.mp lowHead).2
    (update_none_eq_some.mp highHead).2 ordered

theorem head_erase :
    (blocks.erase start).head page = some order ↔ page ≠ start ∧ blocks.head page = some order :=
  update_none_eq_some

theorem covers_erase (isHead : blocks.head start = some order) : (blocks.erase start).Covers page ↔
      blocks.Covers page ∧ ¬ (start ≤ page ∧ page < start + 2 ^ order) := by
  constructor
  · rintro ⟨other, size, otherHead, low, high⟩
    obtain ⟨different, otherHead⟩ := head_erase.mp otherHead
    refine ⟨⟨other, size, otherHead, low, high⟩, ?_⟩
    rintro ⟨low', high'⟩
    exact different (eq_of_covers page otherHead isHead low high low' high').1
  · rintro ⟨⟨other, size, otherHead, low, high⟩, outside⟩
    refine ⟨other, size, head_erase.mpr ⟨?_, otherHead⟩, low, high⟩
    rintro rfl
    obtain rfl := Option.some.inj (isHead.symm.trans otherHead)
    exact outside ⟨low, high⟩

theorem Coalesced.erase (coalesced : blocks.Coalesced) : (blocks.erase start).Coalesced := by
  intro other order isHead below twin
  exact coalesced (head_erase.mp isHead).2 below (head_erase.mp twin).2

/-- Where a block may be added. -/
structure Room (blocks : BlockMap top base count) (start order : Nat) : Prop where
  aligned : 2 ^ order ∣ start
  bounded : order ≤ top
  inside : base ≤ start ∧ start + 2 ^ order ≤ base + count
  clear : blocks.Clear start order

theorem Room.head_eq_none (room : blocks.Room start order) : blocks.head start = none := by
  cases isHead : blocks.head start with
  | none => rfl
  | some size =>
    exact absurd (covers_head isHead)
      (room.clear start (Nat.le_refl _) (Nat.lt_add_of_pos_right (Nat.two_pow_pos order)))

/-- A block lies in front of the room or behind it. -/
theorem Room.apart {low size : Nat} (room : blocks.Room start order)
    (isHead : blocks.head low = some size) :
    low + 2 ^ size ≤ start ∨ start + 2 ^ order ≤ low := by
  by_contra meets
  have positive : 0 < 2 ^ size := Nat.two_pow_pos size
  have positive' : 0 < 2 ^ order := Nat.two_pow_pos order
  rcases Nat.le_total low start with below | above
  · exact room.clear start (Nat.le_refl _) (by omega) ⟨low, size, isHead, below, by omega⟩
  · exact room.clear low above (by omega) (covers_head isHead)

def insert (blocks : BlockMap top base count) (start order : Nat)
    (room : blocks.Room start order) : BlockMap top base count where
  head := update blocks.head start (some order)
  aligned := by
    intro other size isHead
    rcases update_some_eq_some.mp isHead with ⟨rfl, rfl⟩ | ⟨-, isHead⟩
    · exact room.aligned
    · exact blocks.aligned isHead
  bounded := by
    intro other size isHead
    rcases update_some_eq_some.mp isHead with ⟨rfl, rfl⟩ | ⟨-, isHead⟩
    · exact room.bounded
    · exact blocks.bounded isHead
  inside := by
    intro other size isHead
    rcases update_some_eq_some.mp isHead with ⟨rfl, rfl⟩ | ⟨-, isHead⟩
    · exact room.inside
    · exact blocks.inside isHead
  apart := by
    intro low high inner outer lowHead highHead ordered
    have positiveInner : 0 < 2 ^ inner := Nat.two_pow_pos inner
    have positiveOuter : 0 < 2 ^ outer := Nat.two_pow_pos outer
    rcases update_some_eq_some.mp lowHead with ⟨rfl, rfl⟩ | ⟨-, lowBlock⟩
    · rcases update_some_eq_some.mp highHead with ⟨rfl, rfl⟩ | ⟨-, highBlock⟩
      · omega
      · rcases room.apart highBlock with below | above <;> omega
    · rcases update_some_eq_some.mp highHead with ⟨rfl, rfl⟩ | ⟨-, highBlock⟩
      · rcases room.apart lowBlock with below | above <;> omega
      · exact blocks.apart lowBlock highBlock ordered

variable {room : blocks.Room start order}

theorem head_insert {size : Nat} : (blocks.insert start order room).head page = some size ↔
      (page = start ∧ size = order) ∨ blocks.head page = some size := by
  refine update_some_eq_some.trans (or_congr_right ⟨And.right, fun isHead => ⟨?_, isHead⟩⟩)
  rintro rfl
  exact absurd (room.head_eq_none.symm.trans isHead) (by simp)

theorem covers_insert : (blocks.insert start order room).Covers page ↔
      blocks.Covers page ∨ (start ≤ page ∧ page < start + 2 ^ order) := by
  constructor
  · rintro ⟨other, size, otherHead, low, high⟩
    rcases head_insert.mp otherHead with ⟨rfl, rfl⟩ | otherHead
    · exact Or.inr ⟨low, high⟩
    · exact Or.inl ⟨other, size, otherHead, low, high⟩
  · rintro (⟨other, size, otherHead, low, high⟩ | ⟨low, high⟩)
    · exact ⟨other, size, head_insert.mpr (Or.inr otherHead), low, high⟩
    · exact ⟨start, order, head_insert.mpr (Or.inl ⟨rfl, rfl⟩), low, high⟩

theorem Coalesced.insert (coalesced : blocks.Coalesced)
    (alone : order < top → blocks.head (buddy start order) ≠ some order) :
    (blocks.insert start order room).Coalesced := by
  intro other size isHead below twin
  rcases head_insert.mp isHead with ⟨rfl, rfl⟩ | otherHead
  · rcases head_insert.mp twin with ⟨same, -⟩ | twinHead
    · exact buddy_ne room.aligned same
    · exact alone below twinHead
  · rcases head_insert.mp twin with ⟨same, rfl⟩ | twinHead
    · rw [← same, buddy_buddy] at alone
      exact alone below otherHead
    · exact coalesced otherHead below twinHead

theorem Room.merge (room : blocks.Room start order) (below : order < top)
    (twin : blocks.head (buddy start order) = some order) :
    (blocks.erase (buddy start order)).Room (min start (buddy start order)) (order + 1) := by
  have double : 2 ^ (order + 1) = 2 ^ order + 2 ^ order := by
    rw [Nat.pow_succ]
    omega
  refine ⟨parent_aligned room.aligned, below, ?_, ?_⟩
  · have twinInside := blocks.inside twin
    have inside := room.inside
    rcases buddy_cases room.aligned with ⟨-, upper⟩ | ⟨space, -, lower⟩ <;> omega
  · intro page low high covers
    obtain ⟨covered, outside⟩ := (covers_erase twin).mp covers
    rcases (parent_split room.aligned).mp ⟨low, high⟩ with ⟨inLow, inHigh⟩ | inTwin
    · exact room.clear page inLow inHigh covered
    · exact outside inTwin

theorem Coalesced.covered_head (coalesced : blocks.Coalesced) :
    ∀ {order start : Nat}, order ≤ top → 2 ^ order ∣ start →
      (∀ page, start ≤ page → page < start + 2 ^ order → blocks.Covers page) →
      (∃ outer size, blocks.head outer = some size ∧ order ≤ size ∧ outer ≤ start ∧
        start + 2 ^ order ≤ outer + 2 ^ size) := by
  intro order
  induction order with
  | zero =>
    intro start _ _ covered
    obtain ⟨outer, size, isHead, low, high⟩ := covered start (Nat.le_refl _) (by simp)
    refine ⟨outer, size, isHead, Nat.zero_le _, low, ?_⟩
    rw [Nat.pow_zero]
    exact high
  | succ order ih =>
    intro start bounded aligned covered
    have double : 2 ^ (order + 1) = 2 ^ order + 2 ^ order := by
      rw [Nat.pow_succ]
      omega
    have positive : 0 < 2 ^ order := Nat.two_pow_pos order
    have lowerAligned : 2 ^ order ∣ start := (two_pow_dvd_two_pow (Nat.le_succ _)).trans aligned
    have upperAligned : 2 ^ order ∣ start + 2 ^ order := Nat.dvd_add lowerAligned (Nat.dvd_refl _)
    obtain ⟨lower, lowerSize, lowerHead, lowerLe, lowerLow, lowerHigh⟩ :=
      ih (by omega) lowerAligned fun page low high => covered page low (by omega)
    -- A block that holds one half and is larger than it holds both.
    by_cases larger : order + 1 ≤ lowerSize
    · have := nested_of_meet larger aligned (blocks.aligned lowerHead) (by omega) (by omega)
      exact ⟨lower, lowerSize, lowerHead, larger, this.1, this.2⟩
    · obtain rfl : lowerSize = order := by omega
      obtain rfl : lower = start := by omega
      obtain ⟨upper, upperSize, upperHead, upperLe, upperLow, upperHigh⟩ :=
        ih (by omega) upperAligned fun page low high => covered page (by omega) (by omega)
      by_cases upperLarger : lowerSize + 1 ≤ upperSize
      · have := nested_of_meet upperLarger aligned (blocks.aligned upperHead) (by omega) (by omega)
        exact ⟨upper, upperSize, upperHead, upperLarger, this.1, this.2⟩
      · obtain rfl : upperSize = lowerSize := by omega
        obtain rfl : upper = lower + 2 ^ upperSize := by omega
        have isBuddy : buddy lower upperSize = lower + 2 ^ upperSize := by
          rcases buddy_cases lowerAligned with ⟨-, upper⟩ | ⟨room, even, -⟩
          · exact upper
          · have := add_le_of_dvd even aligned (by omega)
            omega
        exact absurd (isBuddy ▸ upperHead) (coalesced lowerHead (by omega))

theorem head_eq_of_covers (coalesced : blocks.Coalesced) (coalesced' : other.Coalesced)
    (same : ∀ page, blocks.Covers page ↔ other.Covers page) : blocks.head = other.head := by
  have contained : ∀ {first second : BlockMap top base count}, first.Coalesced →
      second.Coalesced → (∀ page, first.Covers page ↔ second.Covers page) →
      ∀ {start order}, first.head start = some order → second.head start = some order := by
    intro first second firstCoalesced secondCoalesced same start order isHead
    have aligned := first.aligned isHead
    obtain ⟨outer, size, outerHead, larger, low, high⟩ :=
      secondCoalesced.covered_head (first.bounded isHead) aligned
        fun page low high => (same page).mp ⟨start, order, isHead, low, high⟩
    have positive : 0 < 2 ^ order := Nat.two_pow_pos order
    -- The same argument the other way round: the outer block lies in a block of `first`.
    obtain ⟨hull, hullSize, hullHead, hullLarger, hullLow, hullHigh⟩ :=
      firstCoalesced.covered_head (second.bounded outerHead) (second.aligned outerHead)
        fun page low high => (same page).mpr ⟨outer, size, outerHead, low, high⟩
    obtain ⟨rfl, rfl⟩ := eq_of_covers start isHead hullHead (Nat.le_refl _) (by omega)
      (by omega) (by omega)
    obtain rfl : size = order := by omega
    obtain rfl : outer = start := by omega
    exact outerHead
  funext start
  cases firstHead : blocks.head start with
  | some order => exact (contained coalesced coalesced' same firstHead).symm
  | none =>
    cases secondHead : other.head start with
    | none => rfl
    | some order =>
      have := contained coalesced' coalesced (fun page => (same page).symm) secondHead
      exact absurd (firstHead.symm.trans this) (by simp)

/-- The pages of all the free lists are at most those of the zone. -/
theorem sum_length_le (blocks : BlockMap top base count) (lists : Nat → List Nat)
    (nodup : ∀ order, order ≤ top → (lists order).Nodup)
    (member : ∀ order, order ≤ top → ∀ start, start ∈ lists order ↔
      blocks.head start = some order) :
    ∑ order ∈ Finset.range (top + 1), (lists order).length * 2 ^ order ≤ count := by
  let pages (order : Nat) : Finset Nat :=
    (lists order).toFinset.biUnion fun start => Finset.Ico start (start + 2 ^ order)
  have mem_pages : ∀ order, order ≤ top → ∀ page, page ∈ pages order ↔
      ∃ start, blocks.head start = some order ∧ start ≤ page ∧ page < start + 2 ^ order := by
    intro order bounded page
    simp [pages, member order bounded]
  have card_pages : ∀ order ∈ Finset.range (top + 1),
      (pages order).card = (lists order).length * 2 ^ order := by
    intro order inRange
    have bounded : order ≤ top := Nat.lt_succ_iff.mp (mem_range.mp inRange)
    rw [card_biUnion]
    · simp [List.toFinset_card_of_nodup (nodup order bounded)]
    · intro first firstIn second secondIn different
      refine disjoint_left.mpr ?_
      intro page inFirst inSecond
      rw [mem_coe, List.mem_toFinset, member order bounded] at firstIn secondIn
      rw [mem_Ico] at inFirst inSecond
      exact different
        (eq_of_covers page firstIn secondIn inFirst.1 inFirst.2 inSecond.1 inSecond.2).1
  calc ∑ order ∈ Finset.range (top + 1), (lists order).length * 2 ^ order
      = ∑ order ∈ Finset.range (top + 1), (pages order).card :=
        (sum_congr rfl card_pages).symm
    _ = ((Finset.range (top + 1)).biUnion pages).card := by
        refine (card_biUnion ?_).symm
        intro first firstIn second secondIn different
        have firstLe : first ≤ top := Nat.lt_succ_iff.mp (mem_range.mp firstIn)
        have secondLe : second ≤ top := Nat.lt_succ_iff.mp (mem_range.mp secondIn)
        refine disjoint_left.mpr ?_
        intro page inFirst inSecond
        obtain ⟨start, startHead, low, high⟩ := (mem_pages first firstLe page).mp inFirst
        obtain ⟨start', startHead', low', high'⟩ := (mem_pages second secondLe page).mp inSecond
        exact different (eq_of_covers page startHead startHead' low high low' high').2
    _ ≤ (Finset.Ico base (base + count)).card := by
        refine card_le_card fun page inPages => ?_
        obtain ⟨order, inRange, inOrder⟩ := mem_biUnion.mp inPages
        have bounded : order ≤ top := Nat.lt_succ_iff.mp (mem_range.mp inRange)
        obtain ⟨start, isHead, low, high⟩ := (mem_pages order bounded page).mp inOrder
        have := blocks.inside isHead
        rw [mem_Ico]
        omega
    _ = count := by simp

end BlockMap

end M4KK1.Lib
