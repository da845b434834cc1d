import Mathlib.Data.List.Chain
import M4KK1.Lib.ByteMemory
import M4KK1.Lib.CheckedArray

/-!
# `qsort` of the userland library

Two pointers run over the array once, around the first element (`Pass`).
-/

namespace M4KK1.Libc

open M4KK1.Lib List

/-- The bytes of an element, as the comparison function sees them behind its pointer. -/
def element (mem : ByteMemory) (address size : Nat) : Fin size → UInt8 :=
  fun offset => mem (address + offset)

/-- `memcpy` of `size` bytes from a buffer outside the array. -/
def storeElement {size : Nat} (mem : ByteMemory) (address : Nat) (bytes : Fin size → UInt8) :
    ByteMemory := fun i =>
  if inside : address ≤ i ∧ i - address < size then bytes ⟨i - address, inside.2⟩ else mem i

/-- `sizeof(tmp)` -/
def tmpSize : Nat := 256

/-- The exchange of two elements through `tmp`. -/
def swapElements (mem : ByteMemory) (size left right : Nat) : Except Fault ByteMemory :=
  if size ≤ tmpSize then
    let tmp := element mem left size
    let mem := copyBytes size mem left right
    .ok (storeElement mem right tmp)
  else .error .outOfBounds

section Code

variable {size : Nat} (compar : (Fin size → UInt8) → (Fin size → UInt8) → Int)

/-- `while (i <= j && compar(base + i * size, pivot) < 0) i++;` -/
def skipBelow (mem : ByteMemory) (base : Nat) : Nat → Nat → Nat
  | 0, i => i
  | room + 1, i =>
    if compar (element mem (base + i * size) size) (element mem base size) < 0 then
      skipBelow mem base room (i + 1)
    else i

/-- `while (j > 0 && compar(base + j * size, pivot) > 0) j--;` -/
def skipAbove (mem : ByteMemory) (base : Nat) : Nat → Nat
  | 0 => 0
  | j + 1 =>
    if compar (element mem (base + (j + 1) * size) size) (element mem base size) > 0 then
      skipAbove mem base j
    else j + 1

/-- `while (i <= j)` -/
def qsortLoop (base : Nat) : Nat → ByteMemory → Nat → Nat → Except Fault ByteMemory
  | 0, _, _, _ => .error .outOfFuel
  | fuel + 1, mem, i, j =>
    if i ≤ j then do
      let i := skipBelow compar mem base (j + 1 - i) i
      let j := skipAbove compar mem base j
      let mem ← if i < j then swapElements mem size (base + i * size) (base + j * size) else .ok mem
      qsortLoop base fuel mem (i + 1) (j - 1)
    else .ok mem

def qsort (mem : ByteMemory) (base nmemb : Nat) : Except Fault ByteMemory :=
  if nmemb ≤ 1 then .ok mem else qsortLoop compar base nmemb mem 1 (nmemb - 1)

end Code

/-- The array that `nmemb` elements of `size` bytes make. -/
def elements (mem : ByteMemory) (base size nmemb : Nat) : List (Fin size → UInt8) :=
  (List.range nmemb).map fun k => element mem (base + k * size) size

section Lists

variable {α : Type} {compar : α → α → Int} {p x e : α}
  {mid out rest xs es tail filled front g : List α}

structure IsPreorder (compar : α → α → Int) : Prop where
  swap : ∀ x y, compar x y < 0 ↔ 0 < compar y x
  trans : ∀ x y z, compar x y ≤ 0 → compar y z ≤ 0 → compar x z ≤ 0

theorem IsPreorder.not_neg (preorder : IsPreorder compar) {x y : α} (le : compar y x ≤ 0) :
    ¬ compar x y < 0 := by
  rw [preorder.swap]
  omega

theorem IsPreorder.refl (preorder : IsPreorder compar) (x : α) : compar x x ≤ 0 := by
  by_contra above
  have below := (preorder.swap x x).mpr (by omega)
  omega

/-- What the two pointers do to what is between them, when nothing is smaller than the pivot `p`. -/
inductive Pass (compar : α → α → Int) (p : α) : List α → List α → Prop where
    | stop {mid : List α} (above : ∀ y ∈ mid, 0 < compar y p) : Pass compar p mid mid
    | last {e : α} {g : List α} (equal : compar e p ≤ 0) (above : ∀ y ∈ g, 0 < compar y p) :
      Pass compar p (e :: g) (e :: g)
  /-- The first element changes places with the last one that is not above the pivot. -/
  | swap {x e : α} {m g out : List α} (equal : compar e p ≤ 0) (above : ∀ y ∈ g, 0 < compar y p)
      (rest : Pass compar p m out) : Pass compar p (x :: m ++ e :: g) (e :: out ++ x :: g)

/-- `tail` with the elements not above the pivot replaced by those of `xs`, in order. -/
inductive Refills (compar : α → α → Int) (p : α) : List α → List α → List α → Prop where
  | done {g : List α} (above : ∀ y ∈ g, 0 < compar y p) : Refills compar p g [] g
  | next {x e : α} {tail xs filled g : List α} (before : Refills compar p tail xs filled)
      (equal : compar e p ≤ 0) (above : ∀ y ∈ g, 0 < compar y p) :
      Refills compar p (tail ++ e :: g) (xs ++ [x]) (filled ++ x :: g)

/-- Nothing is below the first element, and what is above it comes in the order that one pass
sorts. -/
def SortsInOnePass (compar : α → α → Int) : List α → Prop
  | [] => True
  | p :: rest => (∀ y ∈ rest, compar p y ≤ 0) ∧ ∃ xs es tail filled,
      rest = xs.reverse ++ es ++ tail ∧ (∀ y ∈ xs, 0 < compar y p) ∧ (∀ y ∈ es, compar y p ≤ 0) ∧
      Refills compar p tail xs filled ∧ filled.Pairwise (compar · · ≤ 0)

/-- From the third element on all are greater than the first. -/
def SwapsNothing (compar : α → α → Int) : List α → Prop
  | [] => True
  | p :: rest => ∀ y ∈ rest.drop 1, 0 < compar y p

theorem Pass.perm (pass : Pass compar p mid out) : out.Perm mid := by
  induction pass with
  | stop | last => exact .refl _
  | @swap x e m g out _ _ _ ih =>
    calc e :: out ++ x :: g
      _ |>.Perm (x :: (e :: out ++ g)) := perm_middle
      _ |>.Perm (x :: (e :: m ++ g)) := ((ih.append_right g).cons e).cons x
      _ |>.Perm (x :: (m ++ e :: g)) := (perm_middle.symm).cons x

theorem exists_last (compar : α → α → Int) (p : α) (mid : List α) :
    (∀ y ∈ mid, 0 < compar y p) ∨ ∃ front e g, mid = front ++ e :: g ∧ compar e p ≤ 0 ∧
      ∀ y ∈ g, 0 < compar y p := by
  induction mid with
  | nil => exact Or.inl fun y member => absurd member not_mem_nil
  | cons first mid ih =>
    rcases ih with above | ⟨front, e, g, rfl, equal, above⟩
    · by_cases isAbove : 0 < compar first p
      · refine Or.inl fun y member => ?_
        rcases mem_cons.mp member with rfl | member
        · exact isAbove
        · exact above y member
      · exact Or.inr ⟨[], first, mid, rfl, by omega, above⟩
    · exact Or.inr ⟨first :: front, e, g, rfl, equal, above⟩

theorem split_last (equal : compar e p ≤ 0) (above : ∀ y ∈ g, 0 < compar y p)
    (equals : ∀ y ∈ es, compar y p ≤ 0) (aboves : ∀ y ∈ tail, 0 < compar y p)
    (same : front ++ e :: g = es ++ tail) : es = front ++ [e] ∧ tail = g := by
  have notInTail : e ∉ tail := fun member => absurd (aboves e member) (by omega)
  rcases append_eq_append_iff.mp same with ⟨between, rfl, isRest⟩ | ⟨between, rfl, rfl⟩
  · cases between with
    | nil =>
      rw [nil_append] at isRest
      exact absurd (isRest ▸ mem_cons_self) notInTail
    | cons first between =>
      obtain ⟨rfl, rfl⟩ := List.cons.inj isRest
      cases between with
      | nil => exact ⟨rfl, rfl⟩
      | cons second between =>
        have notAbove := equals second (by simp)
        have isAbove := above second (by simp)
        omega
  · exact absurd (by simp) notInTail

theorem last_unique {front' g' : List α} {e' : α} (equal : compar e p ≤ 0)
    (above : ∀ y ∈ g, 0 < compar y p) (equal' : compar e' p ≤ 0)
    (above' : ∀ y ∈ g', 0 < compar y p) (same : front ++ e :: g = front' ++ e' :: g') :
    front = front' ∧ e = e' ∧ g = g' := by
  rcases append_eq_append_iff.mp same with ⟨between, rfl, isRest⟩ | ⟨between, rfl, isRest⟩
  · cases between with
    | nil =>
      obtain ⟨rfl, rfl⟩ := List.cons.inj isRest
      exact ⟨(append_nil _).symm, rfl, rfl⟩
    | cons first between =>
      obtain ⟨rfl, rfl⟩ := List.cons.inj isRest
      have isAbove := above e' (by simp)
      omega
  · cases between with
    | nil =>
      obtain ⟨rfl, rfl⟩ := List.cons.inj isRest
      exact ⟨append_nil _, rfl, rfl⟩
    | cons first between =>
      obtain ⟨rfl, rfl⟩ := List.cons.inj isRest
      have isAbove := above' e (by simp)
      omega

theorem Pass.fills (pass : Pass compar p mid out) : ∀ {xs es tail filled : List α},
    mid = xs.reverse ++ es ++ tail → (∀ y ∈ es, compar y p ≤ 0) → Refills compar p tail xs filled →
    ∃ es', out = es' ++ filled ∧ ∀ y ∈ es', compar y p ≤ 0 := by
  induction pass with
  | @stop mid above =>
    rintro xs es tail filled rfl equals refills
    cases refills with
    | done =>
      cases es with
      | nil => exact ⟨[], rfl, equals⟩
      | cons y es =>
        have isAbove := above y (by simp)
        have notAbove := equals y mem_cons_self
        omega
    | @next x e tail xs filled g before equal aboveG =>
      have isAbove := above e (by simp)
      omega
  | @last e g equal above =>
    rintro xs es tail filled split equals refills
    cases refills with
    | done aboves =>
      obtain ⟨rfl, rfl⟩ :=
        split_last equal above equals aboves (show [] ++ e :: g = es ++ tail from split)
      exact ⟨[e], rfl, equals⟩
    | next before equal' above' =>
      rw [← append_assoc] at split
      have place := (last_unique equal above equal' above' (show [] ++ e :: g = _ from split)).1
      simp at place
  | @swap x e m g out equal above pass ih =>
    rintro xs es tail filled split equals refills
    cases refills with
    | done aboves =>
      obtain ⟨rfl, rfl⟩ := split_last equal above equals aboves split
      obtain ⟨es', rfl, equals'⟩ := @ih [] m [] [] (by simp)
        (fun y member => equals y (by simp [member]))
          (.done fun y member => absurd member (by simp))
      refine ⟨e :: es' ++ [x], by simp, fun y member => ?_⟩
      simp only [cons_append, mem_cons, mem_append, not_mem_nil, or_false] at member
      rcases member with rfl | member | rfl
      · exact equal
      · exact equals' y member
      · exact equals y (by simp)
    | @next x' e' tail' xs' filled' g' before equal' above' =>
      rw [← append_assoc, reverse_append] at split
      obtain ⟨place, rfl, rfl⟩ := last_unique equal above equal' above' split
      obtain ⟨rfl, rfl⟩ := List.cons.inj place
      obtain ⟨es', rfl, equals'⟩ := ih rfl equals before
      refine ⟨e :: es', by simp, fun y member => ?_⟩
      rcases mem_cons.mp member with rfl | member
      · exact equal
      · exact equals' y member

theorem Refills.above (refills : Refills compar p tail xs filled)
    (aboves : ∀ y ∈ xs, 0 < compar y p) : ∀ y ∈ filled, 0 < compar y p := by
  induction refills with
  | done above => exact above
  | @next x e tail xs filled g before equal above ih =>
    intro y member
    simp only [mem_append, mem_cons] at member
    rcases member with member | rfl | member
    · exact ih (fun z isFirst => aboves z (mem_append_left _ isFirst)) y member
    · exact aboves y (by simp)
    · exact above y member

theorem Pass.splits (preorder : IsPreorder compar) (pass : Pass compar p mid out)
    (least : ∀ y ∈ mid, compar p y ≤ 0) (sorted : out.Pairwise (compar · · ≤ 0)) :
    ∃ xs es tail filled, mid = xs.reverse ++ es ++ tail ∧ (∀ y ∈ xs, 0 < compar y p) ∧
      (∀ y ∈ es, compar y p ≤ 0) ∧ Refills compar p tail xs filled ∧
      filled.Pairwise (compar · · ≤ 0) := by
  induction pass with
  | @stop mid above =>
    exact ⟨[], [], mid, mid, rfl, by simp, by simp, .done above, sorted⟩
  | @last e g equal above =>
    exact ⟨[], [e], g, g, rfl, by simp, by simpa using equal, .done above, sorted.tail⟩
  | @swap x e m g out equal above pass ih =>
    have inner : (out ++ x :: g).Pairwise (compar · · ≤ 0) := sorted.tail
    obtain ⟨sortedOut, sortedEnd, across⟩ := pairwise_append.mp inner
    obtain ⟨xs, es, tail, filled, rfl, aboves, equals, refills, -⟩ :=
      ih (fun y member => least y (by simp [member])) sortedOut
    obtain ⟨es', rfl, -⟩ := pass.fills rfl equals refills
    by_cases isAbove : 0 < compar x p
    · refine ⟨xs ++ [x], es, tail ++ e :: g, filled ++ x :: g, by simp, ?_, equals,
        refills.next equal above, inner.sublist (by simp)⟩
      intro y member
      rcases mem_append.mp member with member | member
      · exact aboves y member
      · exact (mem_singleton.mp member) ▸ isAbove
    · -- Nothing greater than the pivot may stand in front of `x`.
      have noneAbove : filled = [] := by
        apply eq_nil_iff_forall_not_mem.mpr
        intro y member
        have isAbove := refills.above aboves y member
        have before := across y (mem_append_right _ member) x mem_cons_self
        have notAbove := preorder.trans y x p before (by omega)
        omega
      subst noneAbove
      generalize isFilled : ([] : List α) = filled at refills
      cases refills with
      | done aboves =>
        subst isFilled
        refine ⟨[], x :: es ++ [e], g, g, by simp, by simp, ?_, .done above, sortedEnd.tail⟩
        intro y member
        simp only [cons_append, mem_cons, mem_append, not_mem_nil, or_false] at member
        rcases member with rfl | member | rfl
        · omega
        · exact equals y member
        · exact equal
      | next => simp at isFilled

theorem Pass.sorts_iff (preorder : IsPreorder compar) (pass : Pass compar p mid out)
    (least : ∀ y ∈ mid, compar p y ≤ 0) :
    (p :: out).Pairwise (compar · · ≤ 0) ↔ SortsInOnePass compar (p :: mid) := by
  constructor
  · intro sorted
    exact ⟨least, pass.splits preorder least sorted.tail⟩
  · rintro ⟨-, xs, es, tail, filled, split, -, equals, refills, sorted⟩
    obtain ⟨es', rfl, equals'⟩ := pass.fills split equals refills
    have leastOut : ∀ y ∈ es' ++ filled, compar p y ≤ 0 :=
      fun y member => least y (pass.perm.mem_iff.mp member)
    have fromEqual : ∀ y ∈ es', ∀ z ∈ es' ++ filled, compar y z ≤ 0 :=
      fun y isEqual z member => preorder.trans y p z (equals' y isEqual) (leastOut z member)
    refine pairwise_cons.mpr ⟨leastOut, pairwise_append.mpr ⟨?_, sorted, ?_⟩⟩
    · exact pairwise_of_forall_mem_list fun y isEqual z isEqual' =>
        fromEqual y isEqual z (mem_append_left _ isEqual')
    · intro y isEqual z member
      exact fromEqual y isEqual z (mem_append_right _ member)

theorem short_sorted (compar : α → α → Int) : ∀ {list : List α}, list.length ≤ 1 →
    SortsInOnePass compar list ∧ SwapsNothing compar list ∧ list.IsChain (compar · · ≤ 0) := by
  rintro (_ | ⟨p, _ | ⟨second, rest⟩⟩) short
  · exact ⟨trivial, trivial, .nil⟩
  · refine ⟨⟨by simp, [], [], [], [], rfl, by simp, by simp, .done (by simp), .nil⟩, ?_,
      .singleton p⟩
    intro y member
    exact absurd member (by simp)
  · simp at short

end Lists

section Memory

variable {size base nmemb i j k fuel : Nat} {mem mem' : ByteMemory}
  {compar : (Fin size → UInt8) → (Fin size → UInt8) → Int}
  {p x e : Fin size → UInt8} {left mid right front g rest : List (Fin size → UInt8)}

theorem element_congr {address : Nat}
    (same : ∀ i, address ≤ i → i < address + size → mem' i = mem i) :
    element mem' address size = element mem address size :=
  funext fun offset => same _ (Nat.le_add_right _ _) (Nat.add_lt_add_left offset.isLt _)

theorem storeElement_other {address : Nat} {bytes : Fin size → UInt8}
    (outside : i < address ∨ address + size ≤ i) : storeElement mem address bytes i = mem i :=
  dif_neg (by omega)

theorem element_storeElement {address : Nat} {bytes : Fin size → UInt8} :
    element (storeElement mem address bytes) address size = bytes := by
  funext offset
  have inside : address ≤ address + offset ∧ address + offset - address < size := by
    have := offset.isLt
    omega
  rw [element, storeElement, dif_pos inside]
  exact congrArg bytes (Fin.ext (Nat.add_sub_cancel_left _ _))

theorem place_le (before : i < j) : base + i * size + size ≤ base + j * size := by
  have next : (i + 1) * size ≤ j * size := Nat.mul_le_mul_right size before
  rw [Nat.succ_mul] at next
  omega

theorem swapElements_spec (mem : ByteMemory) (base : Nat) (small : size ≤ tmpSize)
    (before : i < j) :
    ∃ mem', swapElements mem size (base + i * size) (base + j * size) = .ok mem' ∧
      ∀ k, element mem' (base + k * size) size =
        if k = j then element mem (base + i * size) size
        else if k = i then element mem (base + j * size) size
        else element mem (base + k * size) size := by
  have apart : base + i * size + size ≤ base + j * size := place_le before
  refine ⟨_, if_pos small, fun k => ?_⟩
  by_cases isRight : k = j
  · rw [if_pos isRight, isRight, element_storeElement]
  have outside : base + k * size + size ≤ base + j * size ∨
      base + j * size + size ≤ base + k * size := by
    rcases Nat.lt_or_gt_of_ne isRight with below | above
    · exact Or.inl (place_le below)
    · exact Or.inr (place_le above)
  rw [if_neg isRight, element_congr fun address low high => storeElement_other (by omega)]
  by_cases isLeft : k = i
  · rw [if_pos isLeft, isLeft]
    funext offset
    have inside := offset.isLt
    exact copyBytes_self (by omega) inside
  have outside' : base + k * size + size ≤ base + i * size ∨
      base + i * size + size ≤ base + k * size := by
    rcases Nat.lt_or_gt_of_ne isLeft with below | above
    · exact Or.inl (place_le below)
    · exact Or.inr (place_le above)
  rw [if_neg isLeft]
  exact element_congr fun address low high => copyBytes_other (by omega)

@[simp] theorem elements_length : (elements mem base size nmemb).length = nmemb := by
  rw [elements, length_map, length_range]

theorem element_eq (isArray : elements mem base size nmemb = front ++ e :: rest) :
    element mem (base + front.length * size) size = e := by
  have long := congrArg List.length isArray
  rw [elements_length, length_append, length_cons] at long
  have found := congrArg (·[front.length]?) isArray
  simp only [elements, getElem?_map, getElem?_append_right (Nat.le_refl _),
    Nat.sub_self, getElem?_cons_zero] at found
  rw [getElem?_range (by omega)] at found
  exact Option.some.inj found

theorem elements_swap (small : size ≤ tmpSize)
    (isArray : elements mem base size nmemb = left ++ x :: mid ++ e :: right) :
    ∃ mem', swapElements mem size (base + left.length * size)
        (base + (left.length + 1 + mid.length) * size) = .ok mem' ∧
      elements mem' base size nmemb = left ++ e :: mid ++ x :: right := by
  have isFirst : element mem (base + left.length * size) size = x :=
    element_eq (show elements mem base size nmemb =
      left ++ x :: (mid ++ e :: right) by rw [isArray]; simp)
  have isLast : element mem (base + (left.length + 1 + mid.length) * size) size = e := by
    have found := element_eq isArray
    rwa [length_append, length_cons, Nat.add_comm mid.length 1, ← Nat.add_assoc] at found
  obtain ⟨mem', swapped, isElement⟩ := swapElements_spec mem base small
    (show left.length < left.length + 1 + mid.length by omega)
  refine ⟨mem', swapped, ?_⟩
  rw [isFirst, isLast] at isElement
  have isSet : elements mem' base size nmemb =
    ((elements mem base size nmemb).set left.length e).set
      (left.length + 1 + mid.length) x := by
    apply ext_getElem (by simp)
    intro k below _
    rw [elements_length] at below
    simp only [elements, getElem_map, getElem_range, getElem_set, isElement, eq_comm (a := k)]
  have first : (left ++ x :: mid ++ e :: right).set left.length e =
      (left ++ e :: mid) ++ e :: right := by simp
  have place : left.length + 1 + mid.length = (left ++ e :: mid).length := by
    rw [length_append, length_cons]
    omega
  rw [isSet, isArray, first, place, set_append_right _ _ (Nat.le_refl _), Nat.sub_self,
    set_cons_zero]

theorem le_skipBelow (compar : (Fin size → UInt8) → (Fin size → UInt8) → Int) (mem : ByteMemory)
    (base room : Nat) :
    ∀ i, i ≤ skipBelow compar mem base room i := by
  induction room with
  | zero => exact Nat.le_refl
  | succ room ih =>
    intro i
    rw [skipBelow]
    split
    · exact Nat.le_of_succ_le (ih _)
    · exact Nat.le_refl i

theorem skipBelow_eq (compar : (Fin size → UInt8) → (Fin size → UInt8) → Int) (room : Nat)
    (stops : ¬ compar (element mem (base + i * size) size) (element mem base size) < 0) :
    skipBelow compar mem base room i = i := by
  cases room with
  | zero => rfl
  | succ room => rw [skipBelow, if_neg stops]

theorem skipAbove_le (above : ∀ k, i < k → k ≤ j →
    0 < compar (element mem (base + k * size) size) (element mem base size)) :
    skipAbove compar mem base j ≤ i := by
  induction j with
  | zero => exact Nat.zero_le i
  | succ j ih =>
    rw [skipAbove]
    split
    · exact ih fun k low high => above k low (Nat.le_succ_of_le high)
    · rename_i stops
      by_contra low
      exact stops (above (j + 1) (by omega) (Nat.le_refl _))

theorem skipAbove_eq (inside : i ≤ j)
    (stops : ¬ 0 < compar (element mem (base + i * size) size) (element mem base size))
    (above : ∀ k, i < k → k ≤ j →
      0 < compar (element mem (base + k * size) size) (element mem base size)) :
    skipAbove compar mem base j = i := by
  induction j with
  | zero => exact (Nat.le_zero.mp inside).symm
  | succ j ih =>
    rw [skipAbove]
    by_cases isLast : i = j + 1
    · rw [if_neg (by rwa [← isLast]), isLast]
    · rw [if_pos (above (j + 1) (by omega) (Nat.le_refl _))]
      exact ih (by omega) fun k low high => above k low (Nat.le_succ_of_le high)

theorem pivot_eq (isArray : elements mem base size nmemb = p :: rest) :
    element mem base size = p := by
  have first := element_eq (show elements mem base size nmemb = [] ++ p :: rest from isArray)
  rwa [length_nil, Nat.zero_mul, Nat.add_zero] at first

theorem element_of_part (Holds : (Fin size → UInt8) → Prop)
    (isArray : elements mem base size nmemb = left ++ mid ++ right) (all : ∀ y ∈ mid, Holds y)
    (low : left.length ≤ k) (high : k < left.length + mid.length) :
    Holds (element mem (base + k * size) size) := by
  obtain ⟨offset, rfl⟩ := Nat.exists_eq_add_of_le low
  obtain ⟨front, y, back, rfl, isFront⟩ : ∃ front y back, mid = front ++ y :: back ∧
      front.length = offset := by
    have inside : offset < mid.length := by omega
    refine ⟨mid.take offset, mid[offset], mid.drop (offset + 1), ?_, ?_⟩
    · rw [getElem_cons_drop, take_append_drop]
    · rw [List.length_take]
      omega
  have found := element_eq
    (show elements mem base size nmemb = left ++ front ++ y ::
      (back ++ right) by rw [isArray]; simp)
  rw [length_append, isFront] at found
  rw [found]
  exact all y (by simp)

theorem qsortLoop_done (past : j < i) : qsortLoop compar base (fuel + 1) mem i j = .ok mem :=
  if_neg (by omega)

theorem qsortLoop_stop (isArray : elements mem base size nmemb = p :: left ++ mid ++ right)
    (above : ∀ y ∈ mid, 0 < compar y p) :
    qsortLoop compar base (fuel + 2) mem (left.length + 1) (left.length + mid.length) =
      .ok mem := by
  by_cases past : left.length + mid.length < left.length + 1
  · exact qsortLoop_done past
  have isPivot : element mem base size = p := pivot_eq isArray
  have passed : skipAbove compar mem base (left.length + mid.length) ≤ left.length := by
    refine skipAbove_le fun k low high => ?_
    rw [isPivot]
    exact element_of_part (fun y => 0 < compar y p) isArray above
      (by rw [length_cons]; omega) (by rw [length_cons]; omega)
  have ahead := le_skipBelow compar mem base
    (left.length + mid.length + 1 - (left.length + 1)) (left.length + 1)
  rw [qsortLoop, if_pos (by omega)]
  simp only
  rw [if_neg (by omega), ok_bind, qsortLoop_done (by omega)]

theorem skipAbove_last
    (isArray : elements mem base size nmemb = p :: left ++ (front ++ e :: g) ++ right)
    (equal : compar e p ≤ 0) (above : ∀ y ∈ g, 0 < compar y p) :
    skipAbove compar mem base (left.length + (front ++ e :: g).length) =
      left.length + 1 + front.length := by
  have isPivot : element mem base size = p := pivot_eq isArray
  have isLast : element mem (base + (left.length + 1 + front.length) * size) size = e := by
    have found := element_eq
      (show elements mem base size nmemb = p :: left ++ front ++ e ::
        (g ++ right) by rw [isArray]; simp)
    rwa [length_append, length_cons] at found
  have isLength : (front ++ e :: g).length = front.length + 1 + g.length := by
    rw [length_append, length_cons]
    omega
  rw [isLength]
  refine skipAbove_eq (by omega) (by rw [isLast, isPivot]; omega) fun k low high => ?_
  rw [isPivot]
  refine element_of_part (fun y => 0 < compar y p)
    (show elements mem base size nmemb = p :: left ++ front ++ [e] ++ g ++
      right by rw [isArray]; simp) above ?_ ?_
  · simp only [length_append, length_cons, length_nil]
    omega
  · simp only [length_append, length_cons, length_nil]
    omega

theorem qsortLoop_last (isArray : elements mem base size nmemb = p :: left ++ (e :: g) ++ right)
    (equal : compar e p ≤ 0) (above : ∀ y ∈ g, 0 < compar y p) :
    qsortLoop compar base (fuel + 2) mem (left.length + 1) (left.length + (e :: g).length) =
      .ok mem := by
  have stopped := skipAbove_last
    (show elements mem base size nmemb = p :: left ++ ([] ++ e :: g) ++ right from isArray) equal
      above
  rw [nil_append, length_nil, Nat.add_zero] at stopped
  have ahead := le_skipBelow compar mem base
    (left.length + (e :: g).length + 1 - (left.length + 1)) (left.length + 1)
  rw [qsortLoop, if_pos (by rw [length_cons]; omega)]
  simp only [stopped]
  rw [if_neg (by omega), ok_bind, qsortLoop_done (by omega)]

theorem qsortLoop_swap
    (isArray : elements mem base size nmemb = p :: left ++ (x :: mid ++ e :: g) ++ right)
    (notBelow : ¬ compar x p < 0) (equal : compar e p ≤ 0) (above : ∀ y ∈ g, 0 < compar y p) :
    qsortLoop compar base (fuel + 1) mem (left.length + 1)
      (left.length + (x :: mid ++ e :: g).length) =
      (swapElements mem size (base + (left.length + 1) * size)
        (base + (left.length + 1 + 1 + mid.length) * size)).bind
          fun mem => qsortLoop compar base fuel mem (left.length + 1 + 1)
            (left.length + 1 + mid.length) := by
  have isPivot : element mem base size = p := pivot_eq isArray
  have isFirst : element mem (base + (left.length + 1) * size) size = x :=
    element_eq (show elements mem base size nmemb =
      p :: left ++ x :: (mid ++ e :: g ++ right) by rw [isArray]; simp)
  have stopped := skipAbove_last isArray equal above
  have stays := skipBelow_eq compar
    (left.length + (x :: mid ++ e :: g).length + 1 - (left.length + 1))
    (by rwa [isFirst, isPivot])
  rw [length_cons, show left.length + 1 + (mid.length + 1) = left.length + 1 + 1 + mid.length by
    omega] at stopped
  rw [qsortLoop, if_pos (by simp)]
  simp only [stopped, stays]
  rw [if_pos (by omega), show left.length + 1 + 1 + mid.length - 1 = left.length + 1 + mid.length by
    omega]
  rfl

theorem qsortLoop_pass (preorder : IsPreorder compar) (small : size ≤ tmpSize) (count : Nat) :
    ∀ {mid left right : List (Fin size → UInt8)} {mem : ByteMemory} {fuel : Nat},
      mid.length ≤ count → mid.length < fuel →
      elements mem base size nmemb = p :: left ++ mid ++ right → (∀ y ∈ mid, compar p y ≤ 0) →
      ∃ mem' out, qsortLoop compar base fuel mem (left.length + 1) (left.length + mid.length) =
        .ok mem' ∧ Pass compar p mid out ∧
        elements mem' base size nmemb = p :: left ++ out ++ right := by
  induction count with
  | zero =>
    intro mid left right mem fuel short enough isArray _
    obtain rfl := length_eq_zero_iff.mp (Nat.le_zero.mp short)
    obtain ⟨fuel, rfl⟩ : ∃ less, fuel = less + 1 := ⟨fuel - 1, by omega⟩
    exact ⟨mem, [], qsortLoop_done (by simp), .stop (by simp), isArray⟩
  | succ count ih =>
    intro mid left right mem fuel short enough isArray least
    rcases exists_last compar p mid with above | ⟨front, e, g, rfl, equal, above⟩
    · obtain ⟨fuel, rfl⟩ : ∃ less, fuel = less + 1 := ⟨fuel - 1, by omega⟩
      cases fuel with
      | zero =>
        obtain rfl := length_eq_zero_iff.mp (show mid.length = 0 by omega)
        exact ⟨mem, [], qsortLoop_done (by simp), .stop (by simp), isArray⟩
      | succ fuel => exact ⟨mem, mid, qsortLoop_stop isArray above, .stop above, isArray⟩
    · obtain ⟨fuel, rfl⟩ : ∃ less, fuel = less + 2 := ⟨fuel - 2, by simp at enough; omega⟩
      cases front with
      | nil => exact ⟨mem, e :: g, qsortLoop_last isArray equal above, .last equal above, isArray⟩
      | cons x mid =>
        have notBelow := preorder.not_neg (least x (by simp))
        obtain ⟨swapped, exchange, isArray'⟩ := elements_swap small
          (show elements mem base size nmemb =
            p :: left ++ x :: mid ++ e :: (g ++ right) by rw [isArray]; simp)
        have short' : mid.length ≤ count := by
          simp only [length_append, length_cons] at short
          omega
        have enough' : mid.length < fuel + 1 := by
          simp only [length_append, length_cons] at enough
          omega
        obtain ⟨mem', out, looped, pass, isArray''⟩ := @ih mid (left ++ [e])
          (x :: g ++ right) swapped _ short' enough' (by rw [isArray']; simp)
          fun y member => least y (by simp [member])
        refine ⟨mem', e :: out ++ x :: g, ?_, .swap equal above pass, by rw [isArray'']; simp⟩
        rw [length_cons] at exchange
        rw [qsortLoop_swap isArray notBelow equal above, exchange]
        rwa [length_append, length_singleton] at looped

theorem qsortLoop_first (positive : 0 < i) :
    ∀ {mem : ByteMemory} {j : Nat}, qsortLoop compar base fuel mem i j = .ok mem' →
      element mem' base size = element mem base size := by
  induction fuel generalizing i with
  | zero =>
    intro mem j looped
    cases looped
  | succ fuel ih =>
    intro mem j looped
    rw [qsortLoop] at looped
    split at looped
    · have ahead := le_skipBelow compar mem base (j + 1 - i) i
      simp only at looped
      split at looped
      · rename_i before
        obtain ⟨middle, exchanged, looped⟩ := bind_ok looped
        rw [ih (Nat.succ_pos _) looped]
        by_cases small : size ≤ tmpSize
        · obtain ⟨mem₁, swapped, isElement⟩ := swapElements_spec mem base small before
          obtain rfl := Except.ok.inj (swapped.symm.trans exchanged)
          have first := isElement 0
          rw [Nat.zero_mul, Nat.add_zero, if_neg (by omega), if_neg (by omega)] at first
          exact first
        · rw [swapElements, if_neg small] at exchanged
          cases exchanged
      · exact ih (Nat.succ_pos _) looped
    · rw [Except.ok.inj looped]

theorem qsortLoop_large (preorder : IsPreorder compar) (large : ¬ size ≤ tmpSize)
    (isArray : elements mem base size nmemb = p :: rest) (least : ∀ y ∈ rest, compar p y ≤ 0) :
    (SwapsNothing compar (p :: rest) ∧ Pass compar p rest rest ∧
      qsortLoop compar base (fuel + 2) mem 1 rest.length = .ok mem) ∨
    (¬ SwapsNothing compar (p :: rest) ∧
      qsortLoop compar base (fuel + 2) mem 1 rest.length = .error .outOfBounds) := by
  have whole : elements mem base size nmemb = p :: [] ++ rest ++ [] := by rw [isArray]; simp
  have start : 1 = ([] : List (Fin size → UInt8)).length + 1 ∧
      rest.length = ([] : List (Fin size → UInt8)).length + rest.length := by simp
  rw [start.1, start.2]
  rcases exists_last compar p rest with above | ⟨front, e, g, rfl, equal, above⟩
  · exact Or.inl ⟨fun y member => above y (mem_of_mem_drop member), .stop above,
      qsortLoop_stop whole above⟩
  cases front with
  | nil => exact Or.inl ⟨above, .last equal above, qsortLoop_last whole equal above⟩
  | cons x mid =>
    refine Or.inr ⟨fun aboves => ?_, ?_⟩
    · have isAbove := aboves e (by simp)
      omega
    · rw [qsortLoop_swap whole (preorder.not_neg (least x (by simp))) equal above, swapElements,
        if_neg large]
      rfl

end Memory

/-- `qsort` sorts exactly the arrays that one pass sorts, of elements that fit into `tmp`. -/
theorem qsort_sorts_iff {size : Nat} {compar : (Fin size → UInt8) → (Fin size → UInt8) → Int}
    (preorder : IsPreorder compar) (mem : ByteMemory) (base nmemb : Nat) :
    (∃ mem', qsort compar mem base nmemb = .ok mem' ∧
      (elements mem' base size nmemb).Perm (elements mem base size nmemb) ∧
      (elements mem' base size nmemb).IsChain (compar · · ≤ 0)) ↔
    SortsInOnePass compar (elements mem base size nmemb) ∧
      (size ≤ tmpSize ∨ SwapsNothing compar (elements mem base size nmemb)) := by
  have transitive : Trans (compar · · ≤ 0) (compar · · ≤ 0) (compar · · ≤ 0) :=
    ⟨fun left right => preorder.trans _ _ _ left right⟩
  have isLength : (elements mem base size nmemb).length = nmemb := elements_length
  by_cases short : nmemb ≤ 1
  · rw [qsort, if_pos short]
    obtain ⟨sorts, swapsNothing, sorted⟩ := short_sorted compar (isLength.trans_le short)
    exact ⟨fun _ => ⟨sorts, Or.inr swapsNothing⟩, fun _ => ⟨mem, rfl, .refl _, sorted⟩⟩
  obtain ⟨p, rest, isArray⟩ : ∃ p rest, elements mem base size nmemb = p :: rest :=
    exists_cons_of_length_pos (by omega)
  have isRest : nmemb - 1 = rest.length := by
    rw [isArray, length_cons] at isLength
    omega
  obtain ⟨fuel, isFuel⟩ : ∃ fuel, nmemb = fuel + 2 := ⟨nmemb - 2, by omega⟩
  have run : qsort compar mem base nmemb = qsortLoop compar base (fuel + 2) mem 1 rest.length := by
    rw [qsort, if_neg short, isRest, isFuel]
  have whole : elements mem base size nmemb = p :: [] ++ rest ++ [] := by rw [isArray]; simp
  rw [run, isArray]
  constructor
  · rintro ⟨mem', looped, perm, chain⟩
    have sorted := chain.pairwise
    -- The first element is where it was, in front of all others.
    have least : ∀ y ∈ rest, compar p y ≤ 0 := by
      have isFirst := (qsortLoop_first Nat.one_pos looped).trans (pivot_eq isArray)
      obtain ⟨p', out, isArray'⟩ : ∃ p' out, elements mem' base size nmemb = p' :: out :=
        exists_cons_of_length_pos (by rw [elements_length]; omega)
      obtain rfl : p' = p := (pivot_eq isArray').symm.trans isFirst
      rw [isArray'] at sorted perm
      intro y member
      rcases mem_cons.mp (perm.mem_iff.mpr (mem_cons_of_mem _ member)) with rfl | isOut
      · exact preorder.refl y
      · exact rel_of_pairwise_cons sorted isOut
    by_cases small : size ≤ tmpSize
    · obtain ⟨mem'', out, looped', pass, isArray'⟩ := qsortLoop_pass preorder small
        rest.length (Nat.le_refl _) (show rest.length < fuel + 2 by omega) whole least
      simp only [length_nil, Nat.zero_add] at looped'
      obtain rfl := Except.ok.inj (looped'.symm.trans looped)
      refine ⟨(pass.sorts_iff preorder least).mp ?_, Or.inl small⟩
      simpa [isArray'] using sorted
    · rcases qsortLoop_large preorder small isArray least with ⟨nothing, pass, kept⟩ | ⟨-, failed⟩
      · obtain rfl := Except.ok.inj (kept.symm.trans looped)
        refine ⟨(pass.sorts_iff preorder least).mp ?_, Or.inr nothing⟩
        rwa [isArray] at sorted
      · rw [failed] at looped
        cases looped
  · rintro ⟨sorts, fits⟩
    have least := sorts.1
    by_cases small : size ≤ tmpSize
    · obtain ⟨mem', out, looped, pass, isArray'⟩ := qsortLoop_pass preorder small
        rest.length (Nat.le_refl _) (show rest.length < fuel + 2 by omega) whole least
      simp only [length_nil, Nat.zero_add] at looped
      have isOut : elements mem' base size nmemb = p :: out := by simpa using isArray'
      refine ⟨mem', looped, ?_, ?_⟩
      · rw [isOut]
        exact pass.perm.cons p
      · rw [isOut]
        exact ((pass.sorts_iff preorder least).mpr sorts).isChain
    · rcases qsortLoop_large preorder small isArray least with ⟨-, pass, kept⟩ | ⟨swaps, -⟩
      · refine ⟨mem, kept, by rw [isArray], ?_⟩
        rw [isArray]
        exact ((pass.sorts_iff preorder least).mpr sorts).isChain
      · exact absurd (fits.resolve_left small) swaps

/-- The order of bytes as numbers. -/
def compareBytes (x y : Fin 1 → UInt8) : Int := (x 0).toNat - (y 0).toNat

theorem compareBytes_preorder : IsPreorder compareBytes := by
  constructor
  · intro x y
    rw [compareBytes, compareBytes]
    omega
  · intro x y z
    simp only [compareBytes]
    omega

def memoryOf (bytes : List UInt8) : ByteMemory := fun i => bytes.getD i 0

/-- Four bytes, two of them equal. -/
theorem qsort_sorts_four : ∃ mem', qsort compareBytes (memoryOf [1, 3, 2, 1]) 0 4 = .ok mem' ∧
    (elements mem' 0 1 4).Perm (elements (memoryOf [1, 3, 2, 1]) 0 1 4) ∧
    (elements mem' 0 1 4).IsChain (compareBytes · · ≤ 0) := by
  let nth (k : Nat) : Fin 1 → UInt8 := element (memoryOf [1, 3, 2, 1]) (0 + k * 1) 1
  have isArray : elements (memoryOf [1, 3, 2, 1]) 0 1 4 = [nth 0, nth 1, nth 2, nth 3] := rfl
  have refills : Refills compareBytes (nth 0) ([nth 2] ++ [nth 3]) ([] ++ [nth 1])
      ([nth 2] ++ [nth 1]) := by
    refine .next (.done ?_) (by decide) (by simp)
    simp only [mem_singleton, forall_eq]
    decide
  refine (qsort_sorts_iff compareBytes_preorder _ 0 4).mpr ⟨?_, Or.inl (by decide)⟩
  rw [isArray]
  refine ⟨?_, [nth 1], [], [nth 2, nth 3], [nth 2, nth 1], rfl, ?_, by simp, refills, ?_⟩
  · simp only [mem_cons, not_mem_nil, or_false, forall_eq_or_imp, forall_eq]
    decide
  · simp only [mem_singleton, forall_eq]
    decide
  · simp only [pairwise_cons, mem_singleton, forall_eq, not_mem_nil, false_implies,
      implies_true, List.Pairwise.nil, and_true]
    decide

/-- Two elements in the wrong order stay where they are. -/
theorem qsort_leaves_two : ¬ ∃ mem', qsort compareBytes (memoryOf [2, 1]) 0 2 = .ok mem' ∧
    (elements mem' 0 1 2).Perm (elements (memoryOf [2, 1]) 0 1 2) ∧
    (elements mem' 0 1 2).IsChain (compareBytes · · ≤ 0) := by
  rintro ⟨mem', ran, -, chain⟩
  have bytes : (qsort compareBytes (memoryOf [2, 1]) 0 2).toOption.map
      (fun mem' => (mem' 0, mem' 1)) = some (2, 1) := by
    decide
  rw [ran] at bytes
  obtain ⟨isFirst, isSecond⟩ := Prod.mk.inj (Option.some.inj bytes)
  have ordered : compareBytes (element mem' (0 + 0 * 1) 1) (element mem' (0 + 1 * 1) 1) ≤ 0 :=
    (isChain_cons_cons.mp chain).1
  have values : compareBytes (element mem' (0 + 0 * 1) 1) (element mem' (0 + 1 * 1) 1) = 1 := by
    show ((mem' 0).toNat : Int) - (mem' 1).toNat = 1
    rw [isFirst, isSecond]
    decide
  omega

end M4KK1.Libc
