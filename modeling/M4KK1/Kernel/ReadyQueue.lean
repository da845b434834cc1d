import M4KK1.Lib.CircularQueue

/-!
# The ready queue

A ring of 64 pointers holds the list `ReadyQueue.contents`.
-/

namespace M4KK1.Kernel

open M4KK1.Lib

/-- The address of a process control block. -/
abbrev Addr := Nat

def readyQueueSize : Nat := 64

/-- `ready_queue`, `ready_queue_head` and `ready_queue_count`. -/
structure ReadyQueue where
  slots : Nat → Addr
  head : Nat
  count : Nat
  head_lt : head < readyQueueSize
  count_le : count ≤ readyQueueSize

namespace ReadyQueue

/-- The queue of a kernel that was just started. -/
def empty : ReadyQueue := ⟨fun _ => 0, 0, 0, by decide, by decide⟩

/-- The queued processes, the next one first. -/
def contents (queue : ReadyQueue) : List Addr :=
  ringValues queue.slots readyQueueSize queue.head queue.count

@[simp] theorem length_contents (queue : ReadyQueue) : queue.contents.length = queue.count :=
  length_ringValues

@[simp] theorem contents_empty : empty.contents = [] := rfl

end ReadyQueue

/-- `ready_enqueue`: append, or refuse (`none`) when the ring is full. -/
def readyEnqueue (queue : ReadyQueue) (p : Addr) : Option ReadyQueue :=
  if room : queue.count ≥ readyQueueSize then none
  else some
    { queue with
      slots := Function.update queue.slots ((queue.head + queue.count) % readyQueueSize) p
      count := queue.count + 1
      count_le := Nat.lt_of_not_ge room }

/-- `ready_dequeue`: the process at the head, if there is one. -/
def readyDequeue (queue : ReadyQueue) : Option (Addr × ReadyQueue) :=
  if queue.count = 0 then none
  else some (queue.slots queue.head,
    { queue with
      head := (queue.head + 1) % readyQueueSize
      count := queue.count - 1
      head_lt := Nat.mod_lt _ (by decide)
      count_le := Nat.le_trans (Nat.sub_le _ _) queue.count_le })

/-- `ready_remove`: close the hole that the first occurrence of `p` leaves. -/
def readyRemove (queue : ReadyQueue) (p : Addr) : ReadyQueue :=
  match removeFirst queue.slots readyQueueSize queue.head queue.count p 0 queue.count with
  | none => queue
  | some slots =>
    { queue with
      slots := slots
      count := queue.count - 1
      count_le := Nat.le_trans (Nat.sub_le _ _) queue.count_le }

variable {queue : ReadyQueue} {p : Addr}

theorem readyEnqueue_eq_none : readyEnqueue queue p = none ↔ queue.count = readyQueueSize := by
  have bounded := queue.count_le
  rw [readyEnqueue]
  split
  · simp only [true_iff]
    omega
  · simp only [reduceCtorEq, false_iff]
    omega

variable {after : ReadyQueue}

theorem readyEnqueue_room (done : readyEnqueue queue p = some after) :
    queue.count < readyQueueSize := by
  have bounded := queue.count_le
  by_contra full
  rw [readyEnqueue_eq_none.mpr (by omega)] at done
  exact nomatch done

theorem readyEnqueue_contents (done : readyEnqueue queue p = some after) :
    after.contents = queue.contents ++ [p] := by
  rw [readyEnqueue] at done
  split at done
  · exact nomatch done
  · rename_i room
    obtain rfl := Option.some.inj done
    exact ringValues_append (Nat.lt_of_not_ge room)

theorem readyDequeue_eq_none : readyDequeue queue = none ↔ queue.contents = [] := by
  rw [readyDequeue, ← List.length_eq_zero_iff, queue.length_contents]
  split <;> simp_all

theorem readyDequeue_contents (done : readyDequeue queue = some (p, after)) :
    queue.contents = p :: after.contents := by
  rw [readyDequeue] at done
  split at done
  · exact nomatch done
  · rename_i notEmpty
    obtain ⟨rfl, rfl⟩ := Prod.mk.inj (Option.some.inj done)
    have first : ringValues queue.slots readyQueueSize queue.head (queue.count - 1 + 1) = _ :=
      ringValues_succ
    rw [Nat.sub_add_cancel (Nat.pos_of_ne_zero notEmpty), Nat.mod_eq_of_lt queue.head_lt] at first
    exact first

theorem readyRemove_contents : (readyRemove queue p).contents = queue.contents.erase p := by
  have removed := removeFirst_spec queue.slots queue.head p queue.count_le
  rw [readyRemove]
  split
  · rename_i missing
    rw [missing] at removed
    exact (List.erase_of_not_mem removed).symm
  · rename_i slots found
    rw [found] at removed
    exact removed.2

/-- `ready_enqueue` with its check of the pointer. -/
def readyEnqueueChecked (queue : ReadyQueue) (p : Addr) : Option ReadyQueue :=
  if p = 0 then none else readyEnqueue queue p

inductive ReadyCall where
  | enqueue (p : Addr)
  | dequeue
  | remove (p : Addr)

def ReadyCall.run (queue : ReadyQueue) : ReadyCall → ReadyQueue
  | enqueue p => (readyEnqueueChecked queue p).getD queue
  | dequeue => ((readyDequeue queue).map Prod.snd).getD queue
  | remove p => readyRemove queue p

/-- What a call does to a list of at most 64 processes; address 0 is none. -/
def ReadyCall.onList (waiting : List Addr) : ReadyCall → List Addr
  | enqueue p => if p = 0 ∨ waiting.length = readyQueueSize then waiting else waiting ++ [p]
  | dequeue => waiting.tail
  | remove p => waiting.erase p

theorem readyEnqueueChecked_eq_none :
    readyEnqueueChecked queue p = none ↔ p = 0 ∨ queue.contents.length = readyQueueSize := by
  rw [readyEnqueueChecked, queue.length_contents, ← readyEnqueue_eq_none (p := p)]
  split
  · next isNull => simp [isNull]
  · next isProcess => simp [isProcess]

theorem ReadyCall.contents_run (call : ReadyCall) :
    (call.run queue).contents = call.onList queue.contents := by
  cases call with
  | enqueue p =>
    have refused := @readyEnqueueChecked_eq_none queue p
    rw [run, onList]
    cases result : readyEnqueueChecked queue p with
    | none => rw [if_pos (refused.mp result), Option.getD_none]
    | some after =>
      have taken : ¬(p = 0 ∨ queue.contents.length = readyQueueSize) := by
        rw [← refused, result]
        exact nofun
      rw [if_neg taken, Option.getD_some]
      rw [readyEnqueueChecked, if_neg (not_or.mp taken).1] at result
      exact readyEnqueue_contents result
  | dequeue =>
    rw [run, onList]
    cases result : readyDequeue queue with
    | none => exact (congrArg List.tail (readyDequeue_eq_none.mp result)).symm ▸
        readyDequeue_eq_none.mp result
    | some taken => exact (congrArg List.tail (readyDequeue_contents result)).symm
  | remove p => exact readyRemove_contents

/-- The ready ring is a list of at most 64 processes, after every sequence of calls. -/
theorem ready_ring_refines (start : ReadyQueue) (calls : List ReadyCall) :
    let ring := calls.foldl ReadyCall.run start
    ring.contents = calls.foldl ReadyCall.onList start.contents ∧
      (readyDequeue ring).map Prod.fst = ring.contents.head? ∧
      ∀ p, (p ≠ 0 → (readyEnqueueChecked ring p = none ↔ ring.contents.length = readyQueueSize)) ∧
        (readyEnqueueChecked ring p = none → (ReadyCall.enqueue p).run ring = ring) := by
  refine ⟨?_, ?_, fun p => ⟨fun isProcess => ?_, fun refused => ?_⟩⟩
  · induction calls generalizing start with
    | nil => rfl
    | cons call calls ih => rw [List.foldl_cons, ih, ReadyCall.contents_run, List.foldl_cons]
  · cases result : readyDequeue (calls.foldl ReadyCall.run start) with
    | none => rw [readyDequeue_eq_none.mp result, Option.map_none, List.head?_nil]
    | some taken => rw [readyDequeue_contents result, Option.map_some, List.head?_cons]
  · rw [readyEnqueueChecked_eq_none, or_iff_right isProcess]
  · rw [ReadyCall.run, refused, Option.getD_none]

end M4KK1.Kernel
