import M4KK1.Yafs.NamespaceCalls

/-!
# Walks that look for one entry

It ends with the answer for the wanted entry with the smallest key.
-/

namespace M4KK1.Yafs

open Lib List

variable {Ctx : Type}

/-- A callback that stops at the first entry it wants and changes nothing before. -/
structure Seeks (cb : WalkCallback Ctx) (Wanted : Nat → Nat → Prop) (answer : Nat → Ctx) :
    Prop where
  stops : ∀ {key value ctx}, Wanted key value → cb key value ctx = (answer key, true)
  passes : ∀ {key value ctx}, ¬ Wanted key value → cb key value ctx = (ctx, false)

/-- No wanted entry has a key in `[lo, hi)`. -/
def NoneIn (get : Nat → Option Nat) (Wanted : Nat → Nat → Prop) (lo hi : Nat) : Prop :=
  ∀ key value, lo ≤ key → key < hi → get key = some value → ¬ Wanted key value

/-- `key` is the smallest in `[lo, hi)` of a wanted entry. -/
structure IsFirst (get : Nat → Option Nat) (Wanted : Nat → Nat → Prop) (lo hi key : Nat) :
    Prop where
  low : lo ≤ key
  high : key < hi
  wanted : ∃ value, get key = some value ∧ Wanted key value
  first : NoneIn get Wanted lo key

variable {cb : WalkCallback Ctx} {Wanted : Nat → Nat → Prop} {answer : Nat → Ctx}

theorem visit_seeks (seeks : Seeks cb Wanted answer) (entries : List (Nat × Nat)) (ctx : Ctx) :
    (∃ before key value behind, entries = before ++ (key, value) :: behind ∧ Wanted key value ∧
        (∀ entry ∈ before, ¬Wanted entry.1 entry.2) ∧
        visit (visitEntry cb) entries ctx = (answer key, true)) ∨
      ((∀ entry ∈ entries, ¬Wanted entry.1 entry.2) ∧
        visit (visitEntry cb) entries ctx = (ctx, false)) := by
  induction entries with
  | nil => exact .inr ⟨fun entry member => (nomatch member), rfl⟩
  | cons entry entries ih =>
    obtain ⟨key, value⟩ := entry
    by_cases wanted : Wanted key value
    · have stops : visitEntry cb (key, value) ctx = (answer key, true) := seeks.stops wanted
      refine .inl ⟨[], key, value, entries, rfl, wanted, fun entry member => (nomatch member), ?_⟩
      rw [visit, stops, if_pos rfl]
    · have passes : visitEntry cb (key, value) ctx = (ctx, false) := seeks.passes wanted
      have step : visit (visitEntry cb) ((key, value) :: entries) ctx =
          visit (visitEntry cb) entries ctx := by
        rw [visit, passes, if_neg Bool.false_ne_true]
      rw [step]
      rcases ih with ⟨before, first, found, behind, rfl, isWanted, unwanted, result⟩ | ⟨unwanted,
        result⟩
      · exact .inl ⟨(key, value) :: before, first, found, behind, rfl, isWanted,
          forall_mem_cons.mpr ⟨wanted, unwanted⟩, result⟩
      · exact .inr ⟨forall_mem_cons.mpr ⟨wanted, unwanted⟩, result⟩

variable {lo hi height : Nat} {state : BtreeState} {bindings : Nat → Option Nat}

theorem Represents.walk_first (rep : Represents state height bindings)
    (seeks : Seeks cb Wanted answer) (lowBound : lo ≤ uint64Max) (highBound : hi ≤ uint64Max)
    (ctx : Ctx) :
    ∃ out, btreeWalkRange state.device state.rootLba lo hi cb ctx = .ok out ∧
      ((∃ key, IsFirst bindings Wanted lo hi key ∧ out.1 = answer key) ∨
        (NoneIn bindings Wanted lo hi ∧ out.1 = ctx)) := by
  refine ⟨_, rep.walk_range lowBound highBound cb ctx, ?_⟩
  rcases visit_seeks seeks (listing bindings lo hi) ctx with
    ⟨before, key, value, behind, isListing, wanted, unwanted, result⟩ | ⟨unwanted, result⟩
  · obtain ⟨bound, low, high⟩ := mem_listing.mp
      (isListing ▸ mem_append_right before mem_cons_self : (key, value) ∈ listing bindings lo hi)
    refine .inl ⟨key, ⟨low, high, ⟨value, bound, wanted⟩, fun other value' low' less bound' => ?_⟩,
      congrArg Prod.fst result⟩
    have member : (other, value') ∈ listing bindings lo hi :=
      mem_listing.mpr ⟨bound', low', less.trans high⟩
    have sorted := listing_sorted bindings lo hi
    rw [isListing] at member sorted
    have behindKey := (pairwise_cons.mp (pairwise_append.mp sorted).2.1).1
    rcases mem_append.mp member with earlier | later
    · exact unwanted _ earlier
    · rcases mem_cons.mp later with same | later
      · exact absurd (congrArg Prod.fst same) (Nat.ne_of_lt less)
      · exact absurd (behindKey _ later) (Nat.not_lt.mpr less.le)
  · refine .inr ⟨fun key value low high bound => unwanted _ (mem_listing.mpr ⟨bound, low, high⟩),
      ?_⟩
    exact congrArg Prod.fst result

theorem IsFirst.congr {get get' : Nat → Option Nat} {key : Nat}
    (same : ∀ key value, Wanted key value → (get key = some value ↔ get' key = some value))
    (isFirst : IsFirst get Wanted lo hi key) : IsFirst get' Wanted lo hi key where
  low := isFirst.low
  high := isFirst.high
  wanted := by
    obtain ⟨value, bound, wanted⟩ := isFirst.wanted
    exact ⟨value, (same key value wanted).mp bound, wanted⟩
  first := by
    intro other value above below bound wanted
    exact isFirst.first other value above below ((same other value wanted).mpr bound) wanted

theorem IsFirst.unique {get : Nat → Option Nat} {lo hi key key' : Nat}
    (isFirst : IsFirst get Wanted lo hi key) (isFirst' : IsFirst get Wanted lo hi key') :
    key = key' := by
  obtain ⟨value, bound, wanted⟩ := isFirst.wanted
  obtain ⟨value', bound', wanted'⟩ := isFirst'.wanted
  rcases Nat.lt_trichotomy key key' with less | same | more
  · exact absurd wanted (isFirst'.first key value isFirst.low less bound)
  · exact same
  · exact absurd wanted' (isFirst.first key' value' isFirst'.low more bound')

theorem Represents.walk_same {state' : BtreeState} {height' : Nat}
    {bindings' : Nat → Option Nat} (rep : Represents state height bindings)
    (rep' : Represents state' height' bindings') (seeks : Seeks cb Wanted answer)
    (lowBound : lo ≤ uint64Max) (highBound : hi ≤ uint64Max)
    (same :
      ∀ key value, Wanted key value → (bindings key = some value ↔ bindings' key = some value))
    (ctx : Ctx) :
    ∃ out out', btreeWalkRange state.device state.rootLba lo hi cb ctx = .ok out ∧
      btreeWalkRange state'.device state'.rootLba lo hi cb ctx = .ok out' ∧ out.1 = out'.1 := by
  obtain ⟨out, walked, found⟩ := rep.walk_first seeks lowBound highBound ctx
  obtain ⟨out', walked', found'⟩ := rep'.walk_first seeks lowBound highBound ctx
  refine ⟨out, out', walked, walked', ?_⟩
  rcases found with ⟨key, isFirst, result⟩ | ⟨none, result⟩ <;>
    rcases found' with ⟨key', isFirst', result'⟩ | ⟨none', result'⟩
  · rw [result, result', (isFirst.congr same).unique isFirst']
  · obtain ⟨value, bound, wanted⟩ := isFirst.wanted
    exact absurd wanted (none' key value isFirst.low isFirst.high ((same _ _ wanted).mp bound))
  · obtain ⟨value, bound, wanted⟩ := isFirst'.wanted
    exact absurd wanted (none key' value isFirst'.low isFirst'.high ((same _ _ wanted).mpr bound))
  · rw [result, result']

theorem parentCb_seeks (child : Nat) :
    Seeks (parentCb child) (fun key value => keyTag key = ksDirEntry ∧
      value = child) keyParent where
  stops := by
    rintro key value parent ⟨tag, rfl⟩
    simp [parentCb, tag, keyParent]
  passes := by
    intro key value parent unwanted
    unfold parentCb
    split
    next => rfl
    next tag =>
      rw [if_neg]
      intro same
      exact unwanted ⟨not_not.mp tag, same⟩

/-- The parent depends on the entries alone. -/
theorem Represents.lookupParent_same {state' : BtreeState} {height' : Nat}
    {bindings' : Nat → Option Nat} (rep : Represents state height bindings)
    (rep' : Represents state' height' bindings') {child : Nat}
    (same :
      ∀ key, keyTag key = ksDirEntry → (bindings key = some child ↔ bindings' key = some child)) :
    lookupParent state'.device state'.rootLba child =
      lookupParent state.device state.rootLba child := by
  unfold lookupParent
  split
  next => rfl
  next =>
    split
    next => rfl
    next =>
      have low : makeKey ksDirEntry 0 ≤ uint64Max := by decide
      have high : makeKey (ksDirEntry + 1) 0 ≤ uint64Max := by decide
      obtain ⟨⟨parent, _⟩, ⟨_, _⟩, walked, walked', rfl⟩ :=
        rep.walk_same rep' (parentCb_seeks child) low high
          (fun key value ⟨tag, isChild⟩ => by rw [isChild]; exact same key tag) 0
      rw [walked, walked', ok_bind, ok_bind]

end M4KK1.Yafs
