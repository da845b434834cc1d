import M4KK1.Yafs.BtreeRuns
import M4KK1.Yafs.Walk

/-! # What a range walk visits -/

namespace M4KK1.Yafs

open Lib

/-- A range walk calls a callback on the entries of the range up to the first non-zero result. -/
theorem walk_range_exact {start state : BtreeState} {calls : List Call} (empty : Empty start)
    (run : Steps CallStep start calls state) (lo hi : UInt64) :
    ∃ (bindings : Nat → Option Nat) (entries : List (Nat × Nat)),
      (∀ key, btreeLookup state.device state.rootLba key = .ok (bindings key)) ∧
      (entries.Pairwise fun first second => first.1 < second.1) ∧
      (∀ key value, (key, value) ∈ entries ↔ bindings key = some value ∧ lo.toNat ≤ key ∧
        key < hi.toNat) ∧
      ∀ (Ctx : Type) (cb : WalkCallback Ctx) (ctx : Ctx),
        btreeWalkRange state.device state.rootLba lo.toNat hi.toNat cb ctx =
          .ok ((visit (visitEntry cb) entries ctx).1, true) := by
  obtain ⟨bindings, height, rep⟩ := reachable_holdsMap empty run
  have word (bound : UInt64) : bound.toNat ≤ uint64Max := Nat.le_sub_one_of_lt bound.toNat_lt
  exact ⟨bindings, listing bindings lo.toNat hi.toNat, rep.lookup, listing_sorted _ _ _,
    fun _ _ => mem_listing,
    fun _ cb ctx => rep.walk_range (word lo) (word hi) cb ctx⟩

/-- Collects what it is called on, and stops behind key 7. -/
def collect : WalkCallback (List (Nat × Nat)) := fun key value seen =>
  (seen ++ [(key, value)], decide (key = 7))

/-- A walk over part of the split tree. -/
theorem walk_range_grown : ∃ calls state entries, calls.map Call.op = grownOps ∧
    Steps CallStep blankState calls state ∧
    (∀ key value, (key, value) ∈ entries ↔ 5 ≤ key ∧ key < 12 ∧
      grownOps.foldl applyOp (fun _ => none) key = some value) ∧
    (entries.Pairwise fun first second => first.1 < second.1) ∧
    btreeWalkRange state.device state.rootLba 5 12 collect [] =
      .ok ((visit (visitEntry collect) entries []).1, true) := by
  obtain ⟨calls, state, same, run, supplied, _⟩ := grownOps_run
  obtain ⟨height, rep⟩ := run_holdsMap ⟨rfl, rfl⟩ run supplied
  obtain ⟨bindings, entries, lookup, sorted, member, walks⟩ :=
    walk_range_exact ⟨rfl, rfl⟩ run 5 12
  refine ⟨calls, state, entries, same, run, fun key value => ?_, sorted, walks _ collect []⟩
  have isBound := Except.ok.inj ((lookup key).symm.trans (rep.lookup key))
  rw [same] at isBound
  rw [member, isBound]
  exact ⟨fun all => ⟨all.2.1, all.2.2, all.1⟩, fun all => ⟨all.2.2, all.1, all.2.1⟩⟩

end M4KK1.Yafs
