import Mathlib.Data.List.Chain

/-!
# Rows of blocks

An arena cut into blocks with headers; a row is edited by blocks of the same extent.
-/

namespace M4KK1.Lib

open List

/-- A block of `size` bytes, and the request it was handed out for. -/
structure RowBlock where
  size : Nat
  request : Option Nat
deriving DecidableEq

/-- Memory that was handed out: the request it answers and the bytes it has. -/
structure Payload where
  ptr : Nat
  requested : Nat
  capacity : Nat
deriving DecidableEq

/-- The address behind a row of blocks that starts at `start`. -/
def rowEnd (header start : Nat) : List RowBlock → Nat
  | [] => start
  | block :: rest => rowEnd header (start + header + block.size) rest

/-- The memory that a row of blocks hands out, in address order. -/
def payloads (header start : Nat) : List RowBlock → List Payload
  | [] => []
  | ⟨size, none⟩ :: rest => payloads header (start + header + size) rest
  | ⟨size, some requested⟩ :: rest =>
    ⟨start + header, requested, size⟩ :: payloads header (start + header + size) rest

/-- No two blocks in a row are both free. -/
def Settled (row : List RowBlock) : Prop :=
  row.IsChain fun left right => left.request.isSome ∨ right.request.isSome

/-- The last block, if there is one, is handed out. -/
def EndsUsed (row : List RowBlock) : Prop := ∀ block ∈ row.getLast?, block.request.isSome

/-- The first block, if there is one, is handed out. -/
def StartsUsed (row : List RowBlock) : Prop := ∀ block ∈ row.head?, block.request.isSome

variable {header start : Nat} {row front middle middle' back : List RowBlock} {block : RowBlock}
  {payload : Payload}

@[simp] theorem rowEnd_nil : rowEnd header start [] = start := rfl

@[simp] theorem rowEnd_cons :
    rowEnd header start (block :: row) = rowEnd header (start + header + block.size) row := rfl

/-- The end of a row is where the rest of it ends. -/
@[simp] theorem rowEnd_append :
    rowEnd header start (front ++ back) = rowEnd header (rowEnd header start front) back := by
  induction front generalizing start with
  | nil => rfl
  | cons block front ih => exact ih

theorem le_rowEnd : start + header * row.length ≤ rowEnd header start row := by
  induction row generalizing start with
  | nil => exact Nat.le_refl _
  | cons block row ih =>
    have behind : start + header + block.size + header * row.length ≤
        rowEnd header (start + header + block.size) row := ih
    rw [length_cons, Nat.mul_succ, rowEnd_cons]
    omega

theorem start_le_rowEnd : start ≤ rowEnd header start row :=
  (Nat.le_add_right _ _).trans le_rowEnd

@[simp] theorem payloads_nil : payloads header start [] = [] := rfl

variable {size : Nat}

@[simp] theorem payloads_free : payloads header start (⟨size, none⟩ :: row) =
    payloads header (start + header + size) row := rfl

@[simp] theorem payloads_used {requested : Nat} :
    payloads header start (⟨size, some requested⟩ :: row) =
      ⟨start + header, requested, size⟩ :: payloads header (start + header + size) row := rfl

@[simp] theorem payloads_append : payloads header start (front ++ back) =
    payloads header start front ++ payloads header (rowEnd header start front) back := by
  induction front generalizing start with
  | nil => rfl
  | cons block front ih =>
    rcases block with ⟨size, none | requested⟩
    · exact ih
    · simp [ih]

theorem payload_bounds (handed : payload ∈ payloads header start row) :
    start + header ≤ payload.ptr ∧ payload.ptr + payload.capacity ≤ rowEnd header start row := by
  induction row generalizing start with
  | nil => exact absurd handed not_mem_nil
  | cons block row ih =>
    rcases block with ⟨size, none | requested⟩
    · have inside := ih handed
      exact ⟨by omega, inside.2⟩
    · rcases mem_cons.mp handed with rfl | later
      · exact ⟨Nat.le_refl _, start_le_rowEnd⟩
      · have inside := ih later
        exact ⟨by omega, inside.2⟩

theorem payloads_pairwise : (payloads header start row).Pairwise fun left right =>
    left.ptr + left.capacity + header ≤ right.ptr := by
  induction row generalizing start with
  | nil => exact .nil
  | cons block row ih =>
    rcases block with ⟨size, none | requested⟩
    · exact ih
    · rw [payloads_used, pairwise_cons]
      refine ⟨fun payload later => ?_, ih⟩
      exact (payload_bounds later).1

theorem exists_block (handed : payload ∈ payloads header start row) :
    ∃ front back, row = front ++ ⟨payload.capacity, some payload.requested⟩ :: back ∧
      payload.ptr = rowEnd header start front + header := by
  induction row generalizing start with
  | nil => exact absurd handed not_mem_nil
  | cons block row ih =>
    rcases block with ⟨size, none | requested⟩
    · obtain ⟨front, back, isRow, isPtr⟩ := ih handed
      exact ⟨⟨size, none⟩ :: front, back, by rw [isRow, cons_append], isPtr⟩
    · rcases mem_cons.mp handed with rfl | later
      · exact ⟨[], row, rfl, rfl⟩
      · obtain ⟨front, back, isRow, isPtr⟩ := ih later
        exact ⟨⟨size, some requested⟩ :: front, back, by rw [isRow, cons_append], isPtr⟩

theorem settled_used {requested : Nat} :
    Settled (front ++ ⟨size, some requested⟩ :: back) ↔ Settled front ∧ Settled back := by
  constructor
  · intro settled
    exact ⟨settled.left_of_append, (settled.right_of_append).tail⟩
  · rintro ⟨before, behind⟩
    refine before.append (behind.cons ?_) ?_
    · intro right _
      exact Or.inl rfl
    · intro left _ right isHead
      obtain rfl := Option.some.inj isHead
      exact Or.inr rfl

theorem settled_free : Settled (front ++ ⟨size, none⟩ :: back) ↔
    Settled front ∧ Settled back ∧ EndsUsed front ∧ StartsUsed back := by
  constructor
  · intro settled
    obtain ⟨before, behind, touches⟩ := isChain_append.mp settled
    refine ⟨before, behind.tail, ?_, ?_⟩
    · intro left isLast
      exact (touches left isLast _ rfl).resolve_right (by simp)
    · intro right isHead
      exact (behind.rel_head? isHead).resolve_left (by simp)
  · rintro ⟨before, behind, ends, starts⟩
    refine before.append (behind.cons ?_) ?_
    · intro right isHead
      exact Or.inr (starts right isHead)
    · intro left isLast right _
      exact Or.inl (ends left isLast)

theorem settled_cons_free : Settled (⟨size, none⟩ :: back) ↔ Settled back ∧ StartsUsed back := by
  have split : Settled ([] ++ ⟨size, none⟩ :: back) ↔ _ := settled_free
  refine split.trans ⟨fun settled => ⟨settled.2.1, settled.2.2.2⟩, fun settled => ?_⟩
  exact ⟨.nil, settled.1, fun block member => absurd member (by simp), settled.2⟩

end M4KK1.Lib
