import Mathlib.Logic.Function.Iterate
import Mathlib.Tactic.Common

/-!
# Doubly linked lists threaded through memory

`Linked next prev none before first nodes` visits `nodes`; `Linked.congr` is the frame rule.
-/

namespace M4KK1.Lib

open Function List

variable {Addr : Type}

/-- The list of `nodes` that starts at `first`. -/
def Linked (next prev : Addr → Addr) (none : Addr) : Addr → Addr → List Addr → Prop
  | _, first, [] => first = none
  | before, first, node :: rest =>
    first = node ∧ node ≠ none ∧ prev node = before ∧ Linked next prev none node (next node) rest

namespace Linked

variable {next prev next' prev' : Addr → Addr} {none before first node : Addr}
variable {nodes front back : List Addr}

section

variable (linked : Linked next prev none before first nodes)

include linked

theorem congr (sameNext : ∀ node ∈ nodes, next' node = next node)
    (samePrev : ∀ node ∈ nodes, prev' node = prev node) :
    Linked next' prev' none before first nodes := by
  induction nodes generalizing before first with
  | nil => exact linked
  | cons node rest ih =>
    obtain ⟨start, notNone, back, tail⟩ := linked
    refine ⟨start, notNone, ?_, ?_⟩
    · rw [samePrev node mem_cons_self, back]
    · rw [sameNext node mem_cons_self]
      exact ih tail (fun other member => sameNext other (mem_cons_of_mem _ member))
        (fun other member => samePrev other (mem_cons_of_mem _ member))

theorem ne_none (member : node ∈ nodes) : node ≠ none := by
  induction nodes generalizing before first with
  | nil => exact absurd member not_mem_nil
  | cons head rest ih =>
    obtain ⟨-, notNone, -, tail⟩ := linked
    rcases mem_cons.mp member with rfl | inRest
    · exact notNone
    · exact ih tail inRest

theorem eq_cons (notNone : first ≠ none) : ∃ rest, nodes = first :: rest := by
  cases nodes with
  | nil => exact absurd linked notNone
  | cons head rest =>
    obtain ⟨rfl, -⟩ := linked
    exact ⟨rest, rfl⟩

theorem mem_iff_reached : node ∈ nodes ↔
      ∃ steps, (∀ k ≤ steps, next^[k] first ≠ none) ∧ next^[steps] first = node := by
  induction nodes generalizing before first with
  | nil =>
    refine ⟨fun member => absurd member not_mem_nil, ?_⟩
    rintro ⟨steps, notNone, -⟩
    exact absurd linked (notNone 0 (Nat.zero_le _))
  | cons head rest ih =>
    obtain ⟨rfl, notNone, -, tail⟩ := linked
    rw [mem_cons, ih tail]
    constructor
    · rintro (rfl | ⟨steps, before, rfl⟩)
      · refine ⟨0, ?_, rfl⟩
        rintro k below
        rw [Nat.le_zero.mp below]
        exact notNone
      · refine ⟨steps + 1, ?_, rfl⟩
        rintro (_ | k) below
        · exact notNone
        · exact before k (Nat.le_of_succ_le_succ below)
    · rintro ⟨_ | steps, before, rfl⟩
      · exact Or.inl rfl
      · exact Or.inr ⟨steps, fun k below => before (k + 1) (Nat.succ_le_succ below), rfl⟩

end

section

variable (linked : Linked next prev none before first (front ++ node :: back))

include linked

theorem prev_eq : (front = [] ∧ prev node = before) ∨ ∃ rest, front = rest ++ [prev node] := by
  induction front generalizing before first with
  | nil =>
    obtain ⟨-, -, back, -⟩ := linked
    exact Or.inl ⟨rfl, back⟩
  | cons head rest ih =>
    obtain ⟨-, -, -, tail⟩ := linked
    rcases ih tail with ⟨rfl, isHead⟩ | ⟨more, rfl⟩
    · exact Or.inr ⟨[], by rw [isHead]; rfl⟩
    · exact Or.inr ⟨head :: more, rfl⟩

theorem prev_mem : (front = [] ∧ prev node = before) ∨ prev node ∈ front := by
  rcases linked.prev_eq with start | ⟨rest, isFront⟩
  · exact Or.inl start
  · rw [isFront]
    exact Or.inr (mem_append_right _ mem_cons_self)

theorem tail : Linked next prev none node (next node) back := by
  induction front generalizing before first with
  | nil => exact linked.2.2.2
  | cons head rest ih => exact ih linked.2.2.2

theorem next_mem : next node = none ∨ next node ∈ back := by
  by_cases isNone : next node = none
  · exact Or.inl isNone
  · obtain ⟨rest, rfl⟩ := linked.tail.eq_cons isNone
    exact Or.inr mem_cons_self

end

variable [DecidableEq Addr]

/-- The `prev` links after a node that follows `before` is put in front of the
list at `first`. -/
def pushPrev (prev : Addr → Addr) (none before first node : Addr) : Addr → Addr :=
  if first ≠ none then update (update prev node before) first node
  else update prev node before

theorem pushPrev_of_ne {other : Addr} (notNode : other ≠ node) (notFirst : other ≠ first) :
    pushPrev prev none before first node other = prev other := by
  unfold pushPrev
  split
  · rw [update_of_ne notFirst, update_of_ne notNode]
  · rw [update_of_ne notNode]

theorem push (linked : Linked next prev none before first nodes) (nodup : nodes.Nodup)
    (fresh : node ∉ nodes) (notNone : node ≠ none) :
    Linked (update next node first) (pushPrev prev none before first node) none before
      node (node :: nodes) := by
  have newBack : pushPrev prev none before first node node = before := by
    unfold pushPrev
    split
    · rename_i someFirst
      obtain ⟨rest, rfl⟩ := linked.eq_cons someFirst
      have other : node ≠ first := fun same => fresh (same ▸ mem_cons_self)
      rw [update_of_ne other, update_self]
    · rw [update_self]
  refine ⟨rfl, notNone, newBack, ?_⟩
  rw [update_self]
  cases nodes with
  | nil => exact linked
  | cons head rest =>
    obtain ⟨rfl, headNotNone, -, tail⟩ := linked
    have notHead : first ≠ node := fun same => fresh (same ▸ mem_cons_self)
    refine ⟨rfl, headNotNone, ?_, ?_⟩
    · rw [pushPrev, if_pos headNotNone, update_self]
    · rw [update_of_ne notHead]
      refine tail.congr ?_ ?_
      · intro other member
        have notNode : other ≠ node := by
          rintro rfl
          exact fresh (mem_cons_of_mem _ member)
        exact update_of_ne notNode _ _
      · intro other member
        apply pushPrev_of_ne
        · rintro rfl
          exact fresh (mem_cons_of_mem _ member)
        · rintro rfl
          exact (nodup_cons.mp nodup).1 member

/-- A node put behind another takes its place in the list. -/
theorem insert {new : Addr} (linked : Linked next prev none before first (front ++ node :: back))
    (nodup : (front ++ node :: back).Nodup) (fresh : new ∉ front ++ node :: back)
    (notNone : new ≠ none) :
    Linked (update (update next new (next node)) node new)
      (pushPrev prev none node (next node) new) none before first
      (front ++ node :: new :: back) := by
  induction front generalizing before first with
  | nil =>
    have nextBehind := linked.next_mem
    obtain ⟨rfl, nodeNotNone, isBefore, tail⟩ := linked
    obtain ⟨notNode, notBack⟩ : new ≠ first ∧ new ∉ back := by
      simpa using fresh
    obtain ⟨nodeFresh, backNodup⟩ := nodup_cons.mp nodup
    have notNext : first ≠ next first := by
      intro same
      rcases nextBehind with isNone | inBack
      · exact nodeNotNone (same.trans isNone)
      · exact nodeFresh (same ▸ inBack)
    refine ⟨rfl, nodeNotNone, ?_, ?_⟩
    · rw [pushPrev_of_ne (Ne.symm notNode) notNext, isBefore]
    · rw [update_self]
      refine (tail.push backNodup notBack notNone).congr ?_ fun _ _ => rfl
      intro other member
      have notFirst : other ≠ first := by
        rintro rfl
        rcases mem_cons.mp member with same | inBack
        · exact notNode same.symm
        · exact nodeFresh inBack
      exact update_of_ne notFirst _ _
  | cons head rest ih =>
    obtain ⟨rfl, headNotNone, isBefore, tail⟩ := linked
    obtain ⟨headFresh, restNodup⟩ := nodup_cons.mp nodup
    obtain ⟨notHead, notRest⟩ : new ≠ first ∧ new ∉ rest ++ node :: back := by
      simpa [not_or] using fresh
    have notNode : first ≠ node := by
      rintro rfl
      exact headFresh (mem_append_right _ mem_cons_self)
    have notNext : first ≠ next node := by
      intro same
      rcases tail.next_mem with isNone | inBack
      · exact headNotNone (same.trans isNone)
      · exact headFresh (mem_append_right _ (mem_cons_of_mem _ (same ▸ inBack)))
    refine ⟨rfl, headNotNone, ?_, ?_⟩
    · rw [pushPrev_of_ne (Ne.symm notHead) notNext, isBefore]
    · rw [update_of_ne notNode, update_of_ne (Ne.symm notHead)]
      exact ih tail restNodup notRest

/-- The `next` links after `node` is taken out of its list. -/
def unlinkNext (next prev : Addr → Addr) (none node : Addr) : Addr → Addr :=
  if prev node ≠ none then update next (prev node) (next node) else next

/-- The `prev` links after `node` is taken out of its list. -/
def unlinkPrev (next prev : Addr → Addr) (none node : Addr) : Addr → Addr :=
  if next node ≠ none then update prev (next node) (prev node) else prev

theorem unlinkNext_of_ne {other : Addr} (notPrev : other ≠ prev node) :
    unlinkNext next prev none node other = next other := by
  unfold unlinkNext
  split
  · exact update_of_ne notPrev _ _
  · rfl

theorem unlinkPrev_of_ne {other : Addr} (notNext : other ≠ next node) :
    unlinkPrev next prev none node other = prev other := by
  unfold unlinkPrev
  split
  · exact update_of_ne notNext _ _
  · rfl

theorem unlink_back (linked : Linked next prev none node (next node) back)
    (nodup : back.Nodup) (apart : prev node ∉ back) :
    Linked (unlinkNext next prev none node) (unlinkPrev next prev none node) none (prev node)
      (next node) back := by
  cases back with
  | nil => exact linked
  | cons head rest =>
    obtain ⟨isHead, notNone, -, tail⟩ := linked
    have headKept : head ≠ prev node := fun same => apart (same ▸ mem_cons_self)
    refine ⟨isHead, notNone, ?_, ?_⟩
    · rw [unlinkPrev, if_pos (isHead ▸ notNone), isHead, update_self]
    · rw [unlinkNext_of_ne headKept]
      refine tail.congr ?_ ?_
      · intro other member
        apply unlinkNext_of_ne
        rintro rfl
        exact apart (mem_cons_of_mem _ member)
      · intro other member
        apply unlinkPrev_of_ne
        rw [isHead]
        rintro rfl
        exact (nodup_cons.mp nodup).1 member

private theorem unlink_middle (linked : Linked next prev none before first (front ++ node :: back))
    (nodup : (front ++ node :: back).Nodup) (outside : before ∉ back) (nonempty : front ≠ []) :
    Linked (unlinkNext next prev none node) (unlinkPrev next prev none node) none before first
      (front ++ back) := by
  induction front generalizing before first with
  | nil => exact absurd rfl nonempty
  | cons head rest ih =>
    obtain ⟨rfl, notNone, isBefore, tail⟩ := linked
    obtain ⟨fresh, restNodup⟩ := nodup_cons.mp nodup
    have backNodup : back.Nodup := (nodup_cons.mp (nodup_append.mp restNodup).2.1).2
    have notBack : first ∉ back := fun member =>
      fresh (mem_append_right _ (mem_cons_of_mem _ member))
    have notNext : first ≠ next node := by
      intro same
      rcases tail.next_mem with isNone | inBack
      · exact notNone (same.trans isNone)
      · exact notBack (same ▸ inBack)
    refine ⟨rfl, notNone, ?_, ?_⟩
    · rw [unlinkPrev_of_ne notNext, isBefore]
    · cases rest with
      | nil =>
        obtain ⟨isNode, -, isFirst, behind⟩ := tail
        have hung : prev node ≠ none := isFirst ▸ notNone
        rw [unlinkNext, if_pos hung, isFirst, update_self]
        have moved := unlink_back behind backNodup (isFirst ▸ notBack)
        rw [unlinkNext, if_pos hung, isFirst] at moved
        exact moved
      | cons second more =>
        have notPrev : first ≠ prev node := by
          rintro rfl
          rcases tail.prev_mem with ⟨empty, -⟩ | inFront
          · exact absurd empty (cons_ne_nil _ _)
          · exact fresh (mem_append_left _ inFront)
        rw [unlinkNext_of_ne notPrev]
        exact ih tail restNodup notBack (cons_ne_nil _ _)

/-- A node that is unlinked leaves the others as they were. -/
theorem unlink (linked : Linked next prev none none first (front ++ node :: back))
    (nodup : (front ++ node :: back).Nodup) :
    Linked (unlinkNext next prev none node) (unlinkPrev next prev none node) none none
      (if prev node ≠ none then first else next node) (front ++ back) := by
  have outside : none ∉ back := fun member =>
    linked.ne_none (mem_append_right _ (mem_cons_of_mem _ member)) rfl
  cases front with
  | nil =>
    obtain ⟨-, -, isNone, tail⟩ := linked
    have backNodup : back.Nodup := (nodup_cons.mp nodup).2
    have moved := unlink_back tail backNodup (isNone ▸ outside)
    rw [if_neg (not_not.mpr isNone)]
    rwa [isNone] at moved
  | cons head rest =>
    have hung : prev node ≠ none := by
      rcases linked.prev_mem with ⟨empty, -⟩ | inFront
      · exact absurd empty (cons_ne_nil _ _)
      · exact linked.ne_none (mem_append_left _ inFront)
    rw [if_pos hung]
    exact unlink_middle linked nodup outside (cons_ne_nil _ _)

end Linked

end M4KK1.Lib
