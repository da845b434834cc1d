import M4KK1.Lib.BinaryBlocks
import M4KK1.Lib.LinkedList
import M4KK1.Mm.Buddy

/-!
# What the buddy zone represents

`Lists z blocks lists`: list, length, order map and page count describe one set of blocks.
-/

namespace M4KK1.Mm

open M4KK1.Lib Function List

/-- A zone above the kernel, with every page address below `2 ^ 32`. -/
structure Geometry (base nr : Nat) : Prop where
  positive : 0 < base
  limit : base + nr ≤ 1048576

variable {base nr : Nat}

/-- The zone represents `blocks`, with `lists order` its free list of that order. -/
structure Lists (z : Zone) (blocks : BlockMap 10 base nr) (lists : Nat → List Nat) : Prop where
  basePfn : z.basePfn = base
  nrPages : z.nrPages = nr
  linked : ∀ order, order ≤ 10 →
    Linked z.next z.prev pfnNone pfnNone (z.freeHead order) (lists order)
  nodup : ∀ order, order ≤ 10 → (lists order).Nodup
  member : ∀ order, order ≤ 10 → ∀ pfn, pfn ∈ lists order ↔ blocks.head pfn = some order
  count : ∀ order, order ≤ 10 → z.freeCount order = (lists order).length
  map : ∀ pfn, base ≤ pfn → pfn < base + nr →
    z.orderMap (pfn - base) = (blocks.head pfn).getD notHead
  nrFree : z.nrFree = ∑ order ∈ Finset.range 11, (lists order).length * 2 ^ order

/-- A zone that represents `blocks`. -/
def Represents (z : Zone) (blocks : BlockMap 10 base nr) : Prop := ∃ lists, Lists z blocks lists

variable {order : Nat} {blocks : BlockMap 10 base nr}

theorem sum_update (lists : Nat → List Nat) (bounded : order ≤ 10) (nodes : List Nat) :
    (∑ other ∈ Finset.range 11, (update lists order nodes other).length * 2 ^ other) +
        (lists order).length * 2 ^ order =
      (∑ other ∈ Finset.range 11, (lists other).length * 2 ^ other) + nodes.length * 2 ^ order := by
  have inRange : order ∈ Finset.range 11 := Finset.mem_range.mpr (by omega)
  have others : ∀ other ∈ (Finset.range 11).erase order,
      (update lists order nodes other).length * 2 ^ other =
        (lists other).length * 2 ^ other := by
    intro other member
    rw [update_of_ne (Finset.ne_of_mem_erase member)]
  rw [← Finset.add_sum_erase _ _ inRange, ← Finset.add_sum_erase _ (fun other =>
    (lists other).length * 2 ^ other) inRange, Finset.sum_congr rfl others,
    update_self]
  omega

namespace Lists

variable {z : Zone} {blocks : BlockMap 10 base nr} {lists : Nat → List Nat} {order pfn : Nat}

section

variable (represents : Lists z blocks lists)

include represents

theorem sum_le : ∑ order ∈ Finset.range 11, (lists order).length * 2 ^ order ≤ nr :=
  blocks.sum_length_le lists represents.nodup represents.member

theorem length_le (bounded : order ≤ 10) : (lists order).length ≤ nr := by
  have inRange : order ∈ Finset.range 11 := Finset.mem_range.mpr (by omega)
  calc (lists order).length
      ≤ (lists order).length * 2 ^ order := Nat.le_mul_of_pos_right _ (Nat.two_pow_pos _)
    _ ≤ ∑ other ∈ Finset.range 11, (lists other).length * 2 ^ other :=
        Finset.single_le_sum (f := fun other => (lists other).length * 2 ^ other)
          (fun _ _ => Nat.zero_le _) inRange
    _ ≤ nr := represents.sum_le

theorem apart {other : Nat} (bounded : order ≤ 10)
    (otherBounded : other ≤ 10) (different : other ≠ order) (member : pfn ∈ lists other) :
    pfn ∉ lists order := by
  intro again
  rw [represents.member other otherBounded] at member
  rw [represents.member order bounded, member] at again
  exact different (Option.some.inj again)

theorem ne_freeHead {other : Nat} (bounded : order ≤ 10)
    (otherBounded : other ≤ 10) (different : other ≠ order) (member : pfn ∈ lists other) :
    pfn ≠ z.freeHead order := by
  rintro rfl
  have notNone := (represents.linked other otherBounded).ne_none member
  obtain ⟨rest, isCons⟩ := (represents.linked order bounded).eq_cons notNone
  exact represents.apart bounded otherBounded different member (isCons ▸ mem_cons_self)

theorem inside (bounded : order ≤ 10) (member : pfn ∈ lists order) :
    base ≤ pfn ∧ pfn < base + nr := by
  rw [represents.member order bounded] at member
  exact (BlockMap.covers_head member).inside

end

theorem add (geometry : Geometry base nr) (represents : Lists z blocks lists)
    (room : blocks.Room pfn order) :
    Lists (buddyListAdd { z with nrFree := add32 z.nrFree (1 <<< order) } order pfn)
      (blocks.insert pfn order room) (update lists order (pfn :: lists order)) := by
  have bounded : order ≤ 10 := room.bounded
  obtain ⟨low, high⟩ := room.inside
  have positive : 0 < 2 ^ order := Nat.two_pow_pos order
  have limit := geometry.limit
  have notNone : pfn ≠ pfnNone := by
    unfold pfnNone
    omega
  have fresh : ∀ other, other ≤ 10 → pfn ∉ lists other := by
    intro other otherBounded member
    rw [represents.member other otherBounded, room.head_eq_none] at member
    exact absurd member (by simp)
  have nodup' : ∀ other, other ≤ 10 →
      (update lists order (pfn :: lists order) other).Nodup := by
    intro other otherBounded
    by_cases same : other = order
    · subst same
      rw [update_self]
      exact nodup_cons.mpr ⟨fresh other otherBounded, represents.nodup other otherBounded⟩
    · rw [update_of_ne same]
      exact represents.nodup other otherBounded
  have member' : ∀ other, other ≤ 10 → ∀ page,
    page ∈ update lists order (pfn :: lists order) other ↔
        (blocks.insert pfn order room).head page = some other := by
    intro other otherBounded page
    rw [BlockMap.head_insert, ← represents.member other otherBounded]
    by_cases same : other = order
    · subst same
      simp
    · simp [same]
  have total : ∑ other ∈ Finset.range 11,
      (update lists order (pfn :: lists order) other).length * 2 ^ other ≤ nr :=
    (blocks.insert pfn order room).sum_length_le _ nodup' member'
  have grown := sum_update lists bounded (pfn :: lists order)
  rw [length_cons, Nat.add_mul, Nat.one_mul] at grown
  have index : sub32 pfn base = pfn - base := sub32_eq low (by omega)
  refine ⟨represents.basePfn, represents.nrPages, ?_, nodup', member', ?_, ?_, ?_⟩
  · intro other otherBounded
    by_cases same : other = order
    · subst same
      simp only [buddyListAdd, update_self]
      exact (represents.linked other otherBounded).push (represents.nodup other otherBounded)
        (fresh other otherBounded) notNone
    · have notPfn : ∀ page ∈ lists other, page ≠ pfn := by
        rintro page member rfl
        exact fresh other otherBounded member
      simp only [buddyListAdd, update_of_ne same]
      refine (represents.linked other otherBounded).congr ?_ ?_
      · intro page member
        exact update_of_ne (notPfn page member) _ _
      · intro page member
        exact Linked.pushPrev_of_ne (notPfn page member)
          (represents.ne_freeHead bounded otherBounded same member)
  · intro other otherBounded
    by_cases same : other = order
    · subst same
      have short := represents.length_le otherBounded
      simp only [buddyListAdd, update_self, represents.count other otherBounded]
      exact add32_eq (by omega)
    · simp only [buddyListAdd, update_of_ne same]
      exact represents.count other otherBounded
  · intro page pageLow pageHigh
    simp only [buddyListAdd, represents.basePfn, index]
    by_cases same : page = pfn
    · subst same
      simp [BlockMap.insert]
    · have different : page - base ≠ pfn - base := by omega
      rw [update_of_ne different, represents.map page pageLow pageHigh]
      simp [BlockMap.insert, same]
  · simp only [buddyListAdd, Nat.one_shiftLeft, represents.nrFree]
    rw [add32_eq (by omega)]
    omega

theorem linked_del {front back : List Nat} (represents : Lists z blocks lists)
    (bounded : order ≤ 10) (split : lists order = front ++ pfn :: back) :
    ∀ other, other ≤ 10 →
      Linked (buddyListDel z order pfn).next (buddyListDel z order pfn).prev pfnNone pfnNone
        ((buddyListDel z order pfn).freeHead other)
        (update lists order (front ++ back) other) := by
  have linked := represents.linked order bounded
  have nodup := represents.nodup order bounded
  rw [split] at linked nodup
  obtain ⟨notSelf, -⟩ := nodup_cons.mp (nodup_middle.mp nodup)
  have notPrev : pfn ≠ z.prev pfn := by
    intro same
    rcases linked.prev_mem with ⟨-, isNone⟩ | inFront
    · exact linked.ne_none (mem_append_right _ mem_cons_self) (same.trans isNone)
    · exact notSelf (mem_append_left _ (same ▸ inFront))
  -- The second test of the source reads `next` after the first has written it.
  have nextRead : Linked.unlinkNext z.next z.prev pfnNone pfn pfn = z.next pfn :=
    Linked.unlinkNext_of_ne notPrev
  intro other otherBounded
  show Linked (Linked.unlinkNext z.next z.prev pfnNone pfn)
    (if Linked.unlinkNext z.next z.prev pfnNone pfn pfn ≠ pfnNone then
      update z.prev (Linked.unlinkNext z.next z.prev pfnNone pfn pfn) (z.prev pfn)
      else z.prev) pfnNone pfnNone
    ((if z.prev pfn ≠ pfnNone then z.freeHead
      else update z.freeHead order (z.next pfn)) other) _
  rw [nextRead]
  by_cases same : other = order
  · subst same
    rw [update_self]
    have unlinked := linked.unlink nodup
    split at unlinked
    · rename_i hung
      rw [if_pos hung]
      exact unlinked
    · rename_i hung
      rw [if_neg hung, update_self]
      exact unlinked
  · rw [update_of_ne same]
    have headKept : (if z.prev pfn ≠ pfnNone then z.freeHead
        else update z.freeHead order (z.next pfn)) other = z.freeHead other := by
      split
      · rfl
      · exact update_of_ne same _ _
    rw [headKept]
    refine (represents.linked other otherBounded).congr ?_ ?_
    · intro page member
      apply Linked.unlinkNext_of_ne
      rintro rfl
      rcases linked.prev_mem with ⟨-, isNone⟩ | inFront
      · exact (represents.linked other otherBounded).ne_none member isNone
      · exact represents.apart bounded otherBounded same member
          (split ▸ mem_append_left _ inFront)
    · intro page member
      apply Linked.unlinkPrev_of_ne
      rintro rfl
      rcases linked.next_mem with isNone | inBack
      · exact (represents.linked other otherBounded).ne_none member isNone
      · exact represents.apart bounded otherBounded same member
          (split ▸ mem_append_right _ (mem_cons_of_mem _ inBack))

theorem member_del {front back : List Nat} (represents : Lists z blocks lists)
    (bounded : order ≤ 10) (split : lists order = front ++ pfn :: back) :
    ∀ other, other ≤ 10 → ∀ page, page ∈ update lists order (front ++ back) other ↔
        (blocks.erase pfn).head page = some other := by
  have listed : pfn ∈ lists order := by
    rw [split]
    exact mem_append_right _ mem_cons_self
  have nodup := represents.nodup order bounded
  rw [split] at nodup
  obtain ⟨notSelf, -⟩ := nodup_cons.mp (nodup_middle.mp nodup)
  intro other otherBounded page
  rw [BlockMap.head_erase, ← represents.member other otherBounded]
  by_cases same : other = order
  · subst same
    rw [update_self, split]
    constructor
    · intro member
      refine ⟨fun isPfn => notSelf (isPfn ▸ member), ?_⟩
      simp only [mem_append, mem_cons] at member ⊢
      tauto
    · rintro ⟨different, member⟩
      simp only [mem_append, mem_cons] at member ⊢
      tauto
  · rw [update_of_ne same]
    refine ⟨fun member => ⟨?_, member⟩, And.right⟩
    rintro rfl
    exact represents.apart bounded otherBounded same member listed

theorem del (geometry : Geometry base nr) (represents : Lists z blocks lists)
    (isHead : blocks.head pfn = some order) :
    ∃ lists', Lists { buddyListDel z order pfn with
      nrFree :=
        sub32 (buddyListDel z order pfn).nrFree (1 <<< order) } (blocks.erase pfn) lists' := by
  have bounded : order ≤ 10 := blocks.bounded isHead
  obtain ⟨low, high⟩ := blocks.inside isHead
  have limit := geometry.limit
  have positive : 0 < 2 ^ order := Nat.two_pow_pos order
  have index : sub32 pfn base = pfn - base := sub32_eq low (by omega)
  obtain ⟨front, back, split⟩ :=
    append_of_mem ((represents.member order bounded pfn).mpr isHead)
  have shrunk := sum_update lists bounded (front ++ back)
  have counted : (lists order).length = (front ++ back).length + 1 := by
    rw [split]
    simp
    omega
  rw [counted, Nat.add_mul, Nat.one_mul] at shrunk
  refine ⟨update lists order (front ++ back), represents.basePfn, represents.nrPages,
    represents.linked_del bounded split, ?_, represents.member_del bounded split, ?_, ?_, ?_⟩
  · intro other otherBounded
    by_cases same : other = order
    · subst same
      have nodup := represents.nodup other otherBounded
      rw [split] at nodup
      rw [update_self]
      exact (nodup_cons.mp (nodup_middle.mp nodup)).2
    · rw [update_of_ne same]
      exact represents.nodup other otherBounded
  · intro other otherBounded
    by_cases same : other = order
    · subst same
      have short := represents.length_le otherBounded
      simp only [buddyListDel, update_self, represents.count other otherBounded]
      rw [sub32_eq (by omega) (by omega)]
      omega
    · simp only [buddyListDel, update_of_ne same]
      exact represents.count other otherBounded
  · intro page pageLow pageHigh
    simp only [buddyListDel, represents.basePfn, index]
    by_cases same : page = pfn
    · subst same
      simp [BlockMap.erase]
    · have different : page - base ≠ pfn - base := by omega
      rw [update_of_ne different, represents.map page pageLow pageHigh]
      simp [BlockMap.erase, same]
  · have total := represents.sum_le
    simp only [buddyListDel, Nat.one_shiftLeft, represents.nrFree]
    rw [sub32_eq (by omega) (by omega)]
    omega

end Lists

theorem emptyZone_represents (base nr : Nat) (next prev : Nat → Nat) :
    Represents (emptyZone base nr next prev) (BlockMap.empty : BlockMap 10 base nr) := by
  refine ⟨fun _ => [], rfl, rfl, fun _ _ => rfl, fun _ _ => nodup_nil, ?_, fun _ _ => rfl,
    fun _ _ _ => rfl, ?_⟩
  · intro order _ pfn
    simp [BlockMap.empty]
  · simp [emptyZone]

theorem Represents.orderMap_eq_iff {z : Zone} (represents : Represents z blocks) (pfn : Nat)
    (bounded : order ≤ 10) (low : base ≤ pfn)
    (high : pfn < base + nr) :
    z.orderMap (pfn - base) = order ↔ blocks.head pfn = some order := by
  obtain ⟨lists, represents⟩ := represents
  rw [represents.map pfn low high]
  cases isHead : blocks.head pfn with
  | some size => simp
  | none =>
    simp [notHead]
    omega

theorem buddyOf_eq (pfn order : Nat) : buddyOf pfn order = buddy pfn order := by
  rw [buddyOf, buddy, Nat.one_shiftLeft]

/-- A zone without the buddies taken, and a block of them and its own pages with no free buddy. -/
def Merged (blocks : BlockMap 10 base nr) (order pfn : Nat) (result : Zone × Nat × Nat) : Prop :=
  ∃ blocks' : BlockMap 10 base nr, Represents result.1 blocks' ∧ blocks'.Coalesced ∧
    blocks'.Room result.2.2 result.2.1 ∧
    (result.2.1 < 10 → blocks'.head (buddy result.2.2 result.2.1) ≠ some result.2.1) ∧
    ∀ page, (blocks'.Covers page ∨ (result.2.2 ≤ page ∧ page < result.2.2 + 2 ^ result.2.1)) ↔
      (blocks.Covers page ∨ (pfn ≤ page ∧ page < pfn + 2 ^ order))

theorem mergeLoop_spec (geometry : Geometry base nr) (fuel : Nat) :
    ∀ (z : Zone) (blocks : BlockMap 10 base nr) (order pfn : Nat), Represents z blocks →
      blocks.Coalesced → blocks.Room pfn order → 10 ≤ order + fuel →
      Merged blocks order pfn (mergeLoop fuel z order pfn) := by
  induction fuel with
  | zero =>
    intro z blocks order pfn represents coalesced room enough
    refine ⟨blocks, represents, coalesced, room, ?_, fun _ => Iff.rfl⟩
    intro below
    exact absurd below (Nat.not_lt.mpr enough)
  | succ fuel ih =>
    intro z blocks order pfn represents coalesced room enough
    have stop : (order < 10 → blocks.head (buddy pfn order) ≠ some order) →
        Merged blocks order pfn (z, order, pfn) := fun alone =>
      ⟨blocks, represents, coalesced, room, alone, fun _ => Iff.rfl⟩
    obtain ⟨isBase, isNr⟩ : z.basePfn = base ∧ z.nrPages = nr := by
      obtain ⟨lists, listed⟩ := represents
      exact ⟨listed.basePfn, listed.nrPages⟩
    have limit := geometry.limit
    have zoneEnd : add32 base nr = base + nr := add32_eq (by omega)
    simp only [mergeLoop, buddyOf_eq, isBase, isNr, zoneEnd]
    split
    · rename_i below
      split
      · rename_i outside
        refine stop fun _ twin => ?_
        have := (BlockMap.covers_head twin).inside
        omega
      · rename_i inZone
        have index : sub32 (buddy pfn order) base = buddy pfn order - base :=
          sub32_eq (by omega) (by omega)
        have marks := represents.orderMap_eq_iff (buddy pfn order) room.bounded (by omega)
          (by omega)
        rw [index]
        split
        · rename_i unmarked
          exact stop fun _ twin => unmarked (marks.mpr twin)
        · rename_i marked
          have twin := marks.mp (not_not.mp marked)
          obtain ⟨lists, listed⟩ := represents
          have taken := listed.del geometry twin
          have lowest : (if buddy pfn order < pfn then buddy pfn order else pfn) =
              min pfn (buddy pfn order) := by
            split <;> omega
          rw [lowest]
          obtain ⟨blocks', represents', coalesced', room', alone, same⟩ :=
            ih _ _ (order + 1) (min pfn (buddy pfn order)) taken coalesced.erase
              (room.merge below twin) (by omega)
          refine ⟨blocks', represents', coalesced', room', alone, fun page => ?_⟩
          rw [same page, BlockMap.covers_erase twin, parent_split room.aligned]
          constructor
          · rintro (⟨covers, -⟩ | inBlock | inTwin)
            · exact Or.inl covers
            · exact Or.inr inBlock
            · exact Or.inl ⟨_, _, twin, inTwin⟩
          · rintro (covers | inBlock)
            · by_cases inTwin : buddy pfn order ≤ page ∧ page < buddy pfn order + 2 ^ order
              · exact Or.inr (Or.inr inTwin)
              · exact Or.inl ⟨covers, inTwin⟩
            · exact Or.inr (Or.inl inBlock)
    · rename_i top
      exact stop fun below => absurd below top

theorem buddyFreeBlock_spec (geometry : Geometry base nr) {z : Zone}
    {pfn : Nat} (represents : Represents z blocks)
    (coalesced : blocks.Coalesced) (room : blocks.Room pfn order) :
    ∃ blocks' : BlockMap 10 base nr, Represents (buddyFreeBlock z order pfn) blocks' ∧
      blocks'.Coalesced ∧
      ∀ page, blocks'.Covers page ↔ blocks.Covers page ∨ (pfn ≤ page ∧ page < pfn + 2 ^ order) := by
  obtain ⟨blocks', ⟨lists, listed⟩, coalesced', room', alone, same⟩ :=
    mergeLoop_spec geometry buddyMaxOrder z blocks order pfn represents coalesced room
      (show 10 ≤ order + 11 by omega)
  refine ⟨blocks'.insert _ _ room', ⟨_, listed.add geometry room'⟩, coalesced'.insert alone, ?_⟩
  intro page
  rw [BlockMap.covers_insert, same page]

/-- The zone frees, besides what `blocks` covers, the pages from `first` to `last`,
and is coalesced. -/
def Freed (blocks : BlockMap 10 base nr) (first last : Nat) (z : Zone) : Prop :=
  ∃ blocks' : BlockMap 10 base nr, Represents z blocks' ∧ blocks'.Coalesced ∧
    ∀ page, blocks'.Covers page ↔ blocks.Covers page ∨ (first ≤ page ∧ page < last)

theorem Freed.trans {blocks' : BlockMap 10 base nr} {first middle last : Nat} {z : Zone}
    (left : first ≤ middle) (right : middle ≤ last)
    (same : ∀ page, blocks'.Covers page ↔ blocks.Covers page ∨ (first ≤ page ∧ page < middle))
    (freed : Freed blocks' middle last z) : Freed blocks first last z := by
  obtain ⟨blocks'', represents, coalesced, same'⟩ := freed
  refine ⟨blocks'', represents, coalesced, fun page => ?_⟩
  rw [same' page, same page, or_assoc]
  apply or_congr_right
  omega

theorem aligned_iff (first : Nat) (bounded : order ≤ 10) :
    first &&& sub32 (1 <<< order) 1 = 0 ↔ 2 ^ order ∣ first := by
  have size : 2 ^ order ≤ 2 ^ 10 := Nat.pow_le_pow_right (by decide) bounded
  rw [Nat.one_shiftLeft, sub32_eq (Nat.two_pow_pos order) (by omega),
    Nat.and_two_pow_sub_one_eq_mod]
  exact (Nat.dvd_iff_mod_eq_zero).symm

theorem freeRunLoop_spec (geometry : Geometry base nr) {endPfn : Nat} (bounded : order ≤ 10)
    (inZone : endPfn ≤ base + nr) (fuel : Nat) :
    ∀ (z : Zone) (blocks : BlockMap 10 base nr) (first : Nat), Represents z blocks →
      blocks.Coalesced → base ≤ first → first ≤ endPfn → endPfn - first ≤ fuel →
      (∀ page, first ≤ page → page < endPfn → ¬ blocks.Covers page) →
      ∃ z' first', freeRunLoop order endPfn fuel z first = (z', first') ∧ first ≤ first' ∧
        first' ≤ endPfn ∧ (order = 0 → first' = endPfn) ∧ Freed blocks first first' z' := by
  have limit := geometry.limit
  have positive : 0 < 2 ^ order := Nat.two_pow_pos order
  have nothing : ∀ {z : Zone} {blocks : BlockMap 10 base nr} {first : Nat}, Represents z blocks →
      blocks.Coalesced → Freed blocks first first z := by
    intro z blocks first represents coalesced
    refine ⟨blocks, represents, coalesced, fun page => ?_⟩
    have noPage : ¬ (first ≤ page ∧ page < first) := by omega
    simp [noPage]
  induction fuel with
  | zero =>
    intro z blocks first represents coalesced low high enough free
    exact ⟨z, first, rfl, Nat.le_refl _, high, fun _ => by omega, nothing represents coalesced⟩
  | succ fuel ih =>
    intro z blocks first represents coalesced low high enough free
    have left : sub32 endPfn first = endPfn - first := sub32_eq high (by omega)
    rw [freeRunLoop, left]
    split
    · rename_i fits
      obtain ⟨long, start⟩ := fits
      rw [Nat.one_shiftLeft] at long ⊢
      have room : blocks.Room first order := by
        refine ⟨(aligned_iff first bounded).mp start, bounded, ⟨low, by omega⟩, ?_⟩
        intro page inLow inHigh
        exact free page inLow (by omega)
      obtain ⟨blocks', represents', coalesced', same⟩ :=
        buddyFreeBlock_spec geometry represents coalesced room
      have advanced : add32 first (2 ^ order) = first + 2 ^ order := add32_eq (by omega)
      rw [advanced]
      obtain ⟨z', first', run, forward, inside, last, freed⟩ :=
        ih (buddyFreeBlock z order first) blocks' (first + 2 ^ order) represents' coalesced'
          (by omega) (by omega) (by omega) (fun page inLow inHigh covers => by
            rcases (same page).mp covers with old | new
            · exact free page (by omega) inHigh old
            · omega)
      exact ⟨z', first', run, by omega, inside, last, freed.trans (by omega) forward same⟩
    · rename_i stops
      refine ⟨z, first, rfl, Nat.le_refl _, high, ?_, nothing represents coalesced⟩
      rintro rfl
      by_contra notEnd
      exact stops ⟨show 1 ≤ endPfn - first by omega,
        (aligned_iff first bounded).mpr (one_dvd first)⟩

theorem freeOrdersLoop_spec (geometry : Geometry base nr) {endPfn : Nat}
    (inZone : endPfn ≤ base + nr) (count : Nat) :
    ∀ (z : Zone) (blocks : BlockMap 10 base nr) (first : Nat), count ≤ 10 → Represents z blocks →
      blocks.Coalesced → base ≤ first → first ≤ endPfn →
      (∀ page, first ≤ page → page < endPfn → ¬ blocks.Covers page) →
      Freed blocks first endPfn (freeOrdersLoop endPfn (count + 1) z first).1 := by
  induction count with
  | zero =>
    intro z blocks first _ represents coalesced low high free
    have limit := geometry.limit
    have left : sub32 endPfn first = endPfn - first := sub32_eq high (by omega)
    obtain ⟨z', first', run, -, -, last, freed⟩ :=
      freeRunLoop_spec geometry (Nat.zero_le 10) inZone (sub32 endPfn first) z blocks first
        represents coalesced low high (by omega) free
    obtain rfl := last rfl
    simp only [freeOrdersLoop, run]
    exact freed
  | succ count ih =>
    intro z blocks first few represents coalesced low high free
    have limit := geometry.limit
    have left : sub32 endPfn first = endPfn - first := sub32_eq high (by omega)
    obtain ⟨z', first', run, forward, inside, -, blocks', represents', coalesced', same⟩ :=
      freeRunLoop_spec geometry few inZone (sub32 endPfn first) z blocks first
        represents coalesced low high (by omega) free
    have rest := ih z' blocks' first' (by omega) represents' coalesced' (by omega) inside
      (fun page inLow inHigh covers => by
        rcases (same page).mp covers with old | new
        · exact free page (by omega) inHigh old
        · omega)
    rw [freeOrdersLoop, run]
    exact rest.trans forward inside same

/-- A freed range is covered afterwards, and nothing else is. -/
theorem buddyFreeRange_spec (geometry : Geometry base nr) {z : Zone}
    {first count : Nat} (represents : Represents z blocks)
    (coalesced : blocks.Coalesced) (low : base ≤ first) (high : first + count ≤ base + nr)
    (free : ∀ page, first ≤ page → page < first + count → ¬ blocks.Covers page) :
    Freed blocks first (first + count) (buddyFreeRange z first count) := by
  have limit := geometry.limit
  obtain ⟨isBase, isNr⟩ : z.basePfn = base ∧ z.nrPages = nr := by
    obtain ⟨lists, listed⟩ := represents
    exact ⟨listed.basePfn, listed.nrPages⟩
  have rangeEnd : add32 first count = first + count := add32_eq (by omega)
  have zoneEnd : add32 base nr = base + nr := add32_eq (by omega)
  simp only [buddyFreeRange, isBase, isNr, rangeEnd, zoneEnd]
  rw [if_neg (Nat.not_lt.mpr low), if_neg (Nat.not_lt.mpr high)]
  exact freeOrdersLoop_spec geometry high 10 z blocks first (Nat.le_refl _) represents coalesced low
    (Nat.le_add_right _ _) free

end M4KK1.Mm
