import M4KK1.Lib.Run
import M4KK1.Mm.KernelHeap

/-!
# Runs of the kernel heap

`HeapCondition`: a size that does not wrap, and neighbours in memory when blocks are merged.
-/

namespace M4KK1.Mm

open M4KK1.Lib Function List

variable {base limit : Nat} {h : Heap} {blocks : List Nat} {live : List (Nat × Nat)}

theorem le_roundedSize {size : Nat} (noWrap : size + 7 < 4294967296) : size ≤ roundedSize size := by
  rw [roundedSize, add32_eq noWrap]
  omega

theorem HeapInv.counted (inv : HeapInv base limit h blocks live) (size : Nat) :
    HeapInv base limit (countUsed h size) blocks live := { inv with }

theorem mkrnAlloc_spec {size : Nat} (inv : HeapInv base limit h blocks live)
    (noWrap : size + 7 < 4294967296)
    (carveFits : findFit h (roundedSize size) walkLimit h.kernelHeapBlocks = .ok none →
      h.kernelHeapStart + 20 + roundedSize size < 4294967296) :
    mkrnAlloc h size = .ok (h, 0) ∨
    ∃ h' ptr blocks', mkrnAlloc h size = .ok (h', ptr) ∧ ptr ≠ 0 ∧
      HeapInv base limit h' blocks' ((ptr, size) :: live) := by
  by_cases nothing : size = 0
  · exact Or.inl (by rw [mkrnAlloc, if_pos nothing])
  · have enough := le_roundedSize noWrap
    simp only [mkrnAlloc, if_neg nothing]
    rcases findFit_spec blocks inv.linked inv.length_lt with
      missing | ⟨block, listed, found, unused, fits⟩
    · rcases inv.carve (carveFits missing) enough with full | ⟨h', done, inv'⟩
      · exact Or.inl (by simp only [missing, ok_bind, full])
      · refine Or.inr ⟨h', _, _, ?_, Nat.succ_ne_zero _, inv'⟩
        simp only [missing, ok_bind, done]
    · obtain ⟨front, back, rfl⟩ := append_of_mem listed
      have inside := inv.laid.inside block listed
      have small := inv.small
      have ended := inv.ended
      have payload : add32 block headerSize = block + 20 := add32_eq (by rw [headerSize]; omega)
      obtain ⟨blocks', split, listed', unused', fits'⟩ := inv.split unused fits
      have handed := (split.markUsed listed' unused' (enough.trans fits')).counted
        (roundedSize size)
      refine Or.inr ⟨_, block + 20, blocks', ?_, Nat.succ_ne_zero _, handed⟩
      simp only [found, ok_bind, payload]

/-- The merges of `mkrn_free` at `block` join blocks that touch. -/
def MergesAdjacent (h : Heap) (block : Nat) : Prop :=
  ∀ front back, Linked h.next h.prev 0 0 h.kernelHeapBlocks (front ++ block :: back) →
    RunAdjacent h (block + 20 + h.size block) back ∧
    ∀ before, front.getLast? = some before → h.used before = false →
      before + 20 + h.size before = block

/-- Between blocks in use nothing is merged. -/
theorem mergesAdjacent_between {block : Nat}
    (after : h.next block ≠ 0 → h.used (h.next block) = true)
    (before : h.prev block ≠ 0 → h.used (h.prev block) = true) : MergesAdjacent h block := by
  intro front back linked
  constructor
  · cases back with
    | nil => exact trivial
    | cons node rest =>
      obtain ⟨isNext, notNull, -⟩ := linked.tail
      intro unused
      rw [← isNext, after (isNext ▸ notNull)] at unused
      cases unused
  · intro last isLast unused
    have notNull : last ≠ 0 :=
      linked.ne_none (mem_append_left _ (mem_of_getLast? isLast))
    rcases linked.prev_eq with ⟨rfl, -⟩ | ⟨rest, isFront⟩
    · cases isLast
    · rw [isFront, getLast?_concat] at isLast
      obtain rfl := Option.some.inj isLast
      rw [before notNull] at unused
      cases unused

theorem mergeLeft_spec {block : Nat} {front back : List Nat}
    (inv : HeapInv base limit h (front ++ block :: back) live) (unused : h.used block = false)
    (adjacent : ∀ before, front.getLast? = some before → h.used before = false →
      before + 20 + h.size before = block) :
    ∃ blocks', HeapInv base limit (mergeLeft h block) blocks' live := by
  rw [mergeLeft]
  split
  · rename_i merges
    rcases inv.linked.prev_eq with ⟨-, isNull⟩ | ⟨rest, isFront⟩
    · exact absurd isNull merges.1
    · generalize h.prev block = before at merges isFront ⊢
      subst isFront
      have touches := adjacent before (by simp) merges.2
      rw [append_assoc, singleton_append] at inv
      exact ⟨_, inv.absorb merges.2 unused touches.symm⟩
  · exact ⟨_, inv⟩

theorem mkrnFree_spec {entry : Nat × Nat} (inv : HeapInv base limit h blocks live)
    (isLive : entry ∈ live) (adjacent : MergesAdjacent h (entry.1 - 20)) :
    ∃ h' blocks', mkrnFree h entry.1 = .ok h' ∧
      HeapInv base limit h' blocks' (live.erase entry) := by
  obtain ⟨block, listed, isBlock, used, -⟩ := inv.owned entry isLive
  have inside := inv.laid.inside block listed
  have small := inv.small
  have ended := inv.ended
  have notNull : block ≠ 0 := inv.linked.ne_none listed
  have owner : entry.1 - 20 = block := by omega
  have header : sub32 (block + 20) headerSize = block := by
    rw [headerSize, sub32_eq (by omega) (by omega)]
    omega
  have starts := inv.starts block listed
  rw [owner] at adjacent
  -- The header below a live pointer is its own, so the list is not searched.
  have found : findOwner h (block + 20) walkLimit block = .ok (some block) := by
    rw [show walkLimit = 4294967295 + 1 from rfl, findOwner, if_neg notNull, if_pos ⟨starts, used⟩]
  have direct : ¬ (h.start block ≠ block + 20 ∨ h.used block = false) := by
    rw [starts, used]
    simp
  obtain ⟨front, back, rfl⟩ := append_of_mem listed
  obtain ⟨run, touches⟩ := adjacent front back inv.linked
  obtain ⟨-, tailNodup, frontApart⟩ := nodup_append.mp inv.nodup
  have notBack : block ∉ back := (nodup_cons.mp tailNodup).1
  have returned := inv.markUnused isLive isBlock (sub32 h.usedMemory (h.size block))
    (add32 h.freeMemory (h.size block))
  have keptUsed : ∀ other, other ≠ block → update h.used block false other = h.used other :=
    fun other different => update_of_ne different _ _
  have run' : RunAdjacent { h with
      used := update h.used block false
      usedMemory := sub32 h.usedMemory (h.size block)
      freeMemory := add32 h.freeMemory (h.size block) } (block + 20 + h.size block) back :=
    run.congr (fun other member => keptUsed other (fun same => notBack (same ▸ member)))
      fun _ _ => rfl
  have short : back.length < walkLimit := by
    have := inv.length_lt
    simp only [length_append, length_cons] at this
    omega
  obtain ⟨merged, back', done, inv', sameUsed, -, sameSize⟩ :=
    mergeRight_spec back returned (update_self _ _ _) run' short
  have unused' : merged.used block = false := by
    rw [sameUsed]
    exact update_self _ _ _
  obtain ⟨blocks', final⟩ := mergeLeft_spec inv' unused' (by
    intro before isLast unused
    have inFront : before ∈ front := mem_of_getLast? isLast
    have different : before ≠ block := frontApart before inFront block mem_cons_self
    rw [sameSize before inFront]
    refine touches before isLast ?_
    rw [sameUsed] at unused
    exact (keptUsed before different).symm.trans unused)
  refine ⟨mergeLeft merged block, blocks', ?_, final⟩
  have someBlock : ¬ block + 20 = 0 := by omega
  rw [isBlock]
  simp only [mkrnFree, if_neg someBlock, header, if_neg direct, found, ok_bind, done]

/-- The heap and, for each pointer its callers hold, the size they asked for. -/
structure HeapSystem where
  heap : Heap
  live : List (Nat × Nat)

/-- The calls of the kernel. -/
inductive HeapAction where
  | alloc (size : Nat)
  | free (ptr : Nat)

inductive HeapStep : HeapSystem → HeapAction → HeapSystem → Prop where
  | alloc {system : HeapSystem} {size ptr : Nat} {heap : Heap} (word : size < 4294967296)
      (done : mkrnAlloc system.heap size = .ok (heap, ptr)) (success : ptr ≠ 0) :
      HeapStep system (.alloc size) ⟨heap, (ptr, size) :: system.live⟩
  | refuse {system : HeapSystem} {size : Nat} {heap : Heap} (word : size < 4294967296)
      (failed : mkrnAlloc system.heap size = .ok (heap, 0)) :
      HeapStep system (.alloc size) ⟨heap, system.live⟩
  | free {system : HeapSystem} {ptr size : Nat} {heap : Heap} (owned : (ptr, size) ∈ system.live)
      (done : mkrnFree system.heap ptr = .ok heap) :
      HeapStep system (.free ptr) ⟨heap, system.live.erase (ptr, size)⟩

/-- The live ranges are inside the heap, do not meet, and meet no block header. -/
structure HeapSafe (base limit : Nat) (system : HeapSystem) : Prop where
  inside : ∀ entry ∈ system.live, base ≤ entry.1 ∧ entry.1 + entry.2 ≤ limit
  apart : system.live.Pairwise fun left right =>
    left.1 + left.2 ≤ right.1 ∨ right.1 + right.2 ≤ left.1
  headers : ∃ blocks,
    Linked system.heap.next system.heap.prev 0 0 system.heap.kernelHeapBlocks blocks ∧
    ∀ block ∈ blocks, ∀ entry ∈ system.live,
      entry.1 + entry.2 ≤ block ∨ block + headerSize ≤ entry.1

/-- No 32-bit sum of an allocation wraps, and a free merges only blocks that touch. -/
def HeapCondition (system : HeapSystem) : HeapAction → Prop
  | .alloc size => size + 7 < 4294967296 ∧
    (findFit system.heap (roundedSize size) walkLimit system.heap.kernelHeapBlocks = .ok none →
      system.heap.kernelHeapStart + 20 + roundedSize size < 4294967296)
  | .free ptr => MergesAdjacent system.heap (ptr - 20)

/-- The heap as `mkrn_memory_init` leaves it, between the linker's two marks. -/
structure FreshHeap (base limit : Nat) (system : HeapSystem) : Prop where
  low : 8 ≤ base
  ordered : base ≤ limit
  small : limit < 4294967296
  blocks : system.heap.kernelHeapBlocks = 0
  started : system.heap.kernelHeapStart = base
  ended : system.heap.kernelHeapEnd = limit
  live : system.live = []

theorem FreshHeap.inv {system : HeapSystem} (fresh : FreshHeap base limit system) :
    HeapInv base limit system.heap [] system.live := by
  obtain ⟨low, ordered, small, noBlocks, started, ended, nobody⟩ := fresh
  refine ⟨low, ended, ?_, ?_, ?_, noBlocks, nodup_nil, ?_, ⟨?_, ?_⟩, ?_, ?_⟩
  · exact Nat.le_of_eq started.symm
  · rw [started, ended]
    exact ordered
  · rw [ended]
    exact small
  · intro block member
    exact absurd member not_mem_nil
  · intro block member
    exact absurd member not_mem_nil
  · intro block member
    exact absurd member not_mem_nil
  · rw [nobody]
    intro entry member
    exact absurd member not_mem_nil
  · rw [nobody]
    exact nodup_nil

theorem HeapInv.safe {system : HeapSystem}
    (inv : HeapInv base limit system.heap blocks system.live) :
    HeapSafe base limit system := by
  refine ⟨?_, ?_, blocks, inv.linked, ?_⟩
  · intro entry member
    obtain ⟨block, listed, isBlock, -, enough⟩ := inv.owned entry member
    have inside := inv.laid.inside block listed
    have ended := inv.ended
    have isEnd := inv.isEnd
    omega
  · have distinct := pairwise_map.mp inv.distinct
    refine List.Pairwise.imp_of_mem ?_ distinct
    intro left right leftIn rightIn different
    obtain ⟨block, listed, isBlock, -, enough⟩ := inv.owned left leftIn
    obtain ⟨other, otherListed, isOther, -, otherEnough⟩ := inv.owned right rightIn
    rcases Nat.lt_trichotomy block other with less | same | more
    · have := inv.laid.apart block listed other otherListed less
      omega
    · omega
    · have := inv.laid.apart other otherListed block listed more
      omega
  · intro block listed entry member
    obtain ⟨owner, ownerListed, isOwner, -, enough⟩ := inv.owned entry member
    rw [headerSize]
    rcases Nat.lt_trichotomy block owner with less | same | more
    · have := inv.laid.apart block listed owner ownerListed less
      omega
    · omega
    · have := inv.laid.apart owner ownerListed block listed more
      omega

theorem HeapInv.step {system next : HeapSystem} {action : HeapAction}
    (inv : ∃ blocks, HeapInv base limit system.heap blocks system.live)
    (transition : Guarded HeapStep HeapCondition system action next) :
    ∃ blocks, HeapInv base limit next.heap blocks next.live := by
  obtain ⟨blocks, inv⟩ := inv
  obtain ⟨condition, call⟩ := transition
  cases call with
  | alloc word done success =>
    rcases mkrnAlloc_spec inv condition.1 condition.2 with
      failed | ⟨heap, ptr, blocks', returned, -, inv'⟩
    · obtain ⟨-, isNull⟩ := Prod.mk.inj (Except.ok.inj (failed.symm.trans done))
      exact absurd isNull.symm success
    · obtain ⟨rfl, rfl⟩ := Prod.mk.inj (Except.ok.inj (returned.symm.trans done))
      exact ⟨blocks', inv'⟩
  | refuse word failed =>
    rcases mkrnAlloc_spec inv condition.1 condition.2 with
      unchanged | ⟨heap, ptr, -, returned, notNull, -⟩
    · obtain ⟨rfl, -⟩ := Prod.mk.inj (Except.ok.inj (unchanged.symm.trans failed))
      exact ⟨blocks, inv⟩
    · obtain ⟨-, isNull⟩ := Prod.mk.inj (Except.ok.inj (returned.symm.trans failed))
      exact absurd isNull notNull
  | free owned done =>
    obtain ⟨heap, blocks', returned, inv'⟩ := mkrnFree_spec inv owned condition
    obtain rfl := Except.ok.inj (returned.symm.trans done)
    exact ⟨blocks', inv'⟩

/-- When calls meet the condition, live ranges stay inside the heap and apart. -/
theorem heap_safe {start final : HeapSystem} {actions : List HeapAction}
    (fresh : FreshHeap base limit start)
    (run : Steps (Guarded HeapStep HeapCondition) start actions final) :
    HeapSafe base limit final := by
  obtain ⟨blocks, inv⟩ := run.invariant
    (fun system => ∃ blocks, HeapInv base limit system.heap blocks system.live)
    (fun _ _ _ inv transition => HeapInv.step inv transition) ⟨[], fresh.inv⟩
  exact inv.safe

/-- The heap of four megabytes before the first call. -/
def freshHeapSystem : HeapSystem :=
  ⟨{ start := fun _ => 0, size := fun _ => 0, used := fun _ => false, next := fun _ => 0
     prev := fun _ => 0, kernelHeapBlocks := 0, kernelHeapStart := 2097152
     kernelHeapEnd := 6291456, freeMemory := 4194304, usedMemory := 0 }, []⟩

theorem freshHeapSystem_fresh : FreshHeap 2097152 6291456 freshHeapSystem :=
  ⟨by decide, by decide, by decide, rfl, rfl, rfl, rfl⟩

/-- A freed block is split, and its front taken again. -/
theorem heap_safe_reused :
    ∃ final, Steps (Guarded HeapStep HeapCondition) freshHeapSystem
        [.alloc 64, .alloc 24, .free 2097172, .alloc 4] final ∧
      final.live = [(2097172, 4), (2097256, 24)] ∧ HeapSafe 2097152 6291456 final := by
  have run := Steps.refl.step
    (show Guarded HeapStep HeapCondition freshHeapSystem (.alloc 64) _ from
      ⟨⟨by decide, fun _ => by decide⟩, .alloc (by decide) rfl (by decide)⟩)
  have run := run.step (show Guarded HeapStep HeapCondition _ (.alloc 24) _ from
    ⟨⟨by decide, fun _ => by decide⟩, .alloc (by decide) rfl (by decide)⟩)
  have run := run.step (show Guarded HeapStep HeapCondition _ (.free 2097172) _ from
    ⟨mergesAdjacent_between (by decide) (by decide), .free (mem_cons_of_mem _ mem_cons_self) rfl⟩)
  have run := run.step (show Guarded HeapStep HeapCondition _ (.alloc 4) _ from
    ⟨⟨by decide, fun _ => by decide⟩, .alloc (by decide) rfl (by decide)⟩)
  exact ⟨_, run, rfl, heap_safe freshHeapSystem_fresh run⟩

/-- Two freed blocks merge into one beyond the top, and the next two allocations overlap. -/
theorem heap_overlap :
    ∃ final, Steps HeapStep freshHeapSystem
        [.alloc 8, .alloc 8, .free 2097172, .free 2097200, .alloc 32, .alloc 8] final ∧
      final.live = [(2097228, 8), (2097200, 32)] ∧ ¬ HeapSafe 2097152 6291456 final := by
  have run := Steps.refl.step
    (show HeapStep freshHeapSystem (.alloc 8) _ from .alloc (by decide) rfl (by decide))
  have run := run.step (show HeapStep _ (.alloc 8) _ from .alloc (by decide) rfl (by decide))
  have run := run.step (show HeapStep _ (.free 2097172) _ from
    .free (mem_cons_of_mem _ mem_cons_self) rfl)
  have run := run.step (show HeapStep _ (.free 2097200) _ from .free mem_cons_self rfl)
  have run := run.step (show HeapStep _ (.alloc 32) _ from .alloc (by decide) rfl (by decide))
  have run := run.step (show HeapStep _ (.alloc 8) _ from .alloc (by decide) rfl (by decide))
  refine ⟨_, run, rfl, fun safe => ?_⟩
  have apart := (pairwise_cons.mp safe.apart).1 _ mem_cons_self
  exact absurd apart (by decide)

end M4KK1.Mm
