import Lupin.Lib.Ring
import Lupin.Lib.Transition

/-!
# Calls of the circular queue

`circular_queue_enqueue` and `circular_queue_dequeue` as whole calls on the ring, and the bounded
queue they implement. Elsewhere the calls are taken apart into the steps they make under the
queue's lock, or between crashes; every one of these models is compared with the bounded queue.
-/

namespace Lupin.Queue

open Lupin.Transition

/-- `CQUEUE_SIZE`. -/
def cqueueSize : Nat := 128

inductive Op where
  | enqueue (data : BitVec 64)
  | dequeue
deriving DecidableEq

/-- What a call returns: -1, 0 of the enqueue, or 0 of the dequeue with `*data`. -/
inductive Outcome where
  | failed
  | stored
  | taken (data : BitVec 64)
deriving DecidableEq

/-! ## The bounded queue -/

/-- A queue of capacity `CQUEUE_SIZE - 1`. -/
def Op.apply (op : Op) (q : List (BitVec 64)) : Outcome × List (BitVec 64) :=
  match op, q with
  | .enqueue data, q => if q.length < cqueueSize - 1 then (.stored, q ++ [data]) else (.failed, q)
  | .dequeue, [] => (.failed, [])
  | .dequeue, data :: rest => (.taken data, rest)

/-- Its calls with their outcomes, one after the other. -/
def boundedQueue : Machine (List (BitVec 64)) (Op × Outcome) where
  initial := []
  step q call := if (call.1.apply q).1 = call.2 then some (call.1.apply q).2 else none

theorem boundedQueue_step {q after : List (BitVec 64)} {op : Op} {outcome : Outcome}
    (applied : op.apply q = (outcome, after)) :
    boundedQueue.step q (op, outcome) = some after := by
  simp [boundedQueue, applied]

/-! ## The ring -/

/-- `struct circular_queue` without its lock. -/
structure CircularQueue where
  data : Nat → BitVec 64
  read : Nat
  write : Nat

/-- `circular_queue_enqueue`: the queue after the call and its result. -/
def circularQueueEnqueue (q : CircularQueue) (data : BitVec 64) : CircularQueue × Int :=
  let nextW := (q.write + 1) % cqueueSize
  if nextW = q.read then (q, -1)
  else ({ q with data := Function.update q.data q.write data, write := nextW }, 0)

/-- `circular_queue_dequeue`: the queue after the call and the value, if there is one. -/
def circularQueueDequeue (q : CircularQueue) : CircularQueue × Option (BitVec 64) :=
  if q.write = q.read then (q, none)
  else ({ q with read := (q.read + 1) % cqueueSize }, some (q.data q.read))

def CircularQueue.contents (q : CircularQueue) : List (BitVec 64) :=
  Ring.contents cqueueSize q.data q.read q.write

/-- The ring is in range and holds these words, oldest first. -/
structure CircularQueue.Represents (ring : CircularQueue) (q : List (BitVec 64)) : Prop where
  read : ring.read < cqueueSize
  write : ring.write < cqueueSize
  contents_eq : ring.contents = q

namespace CircularQueue.Represents

variable {ring : CircularQueue} {q : List (BitVec 64)}

/-- A store into the open cell does not show. -/
theorem store (represents : ring.Represents q) (data : BitVec 64) :
    CircularQueue.Represents { ring with data := Function.update ring.data ring.write data } q :=
  ⟨represents.read, represents.write,
    (Ring.contents_store represents.read represents.write data).trans represents.contents_eq⟩

theorem apply_full (represents : ring.Represents q)
    (full : Ring.advance cqueueSize ring.write = ring.read) (data : BitVec 64) :
    (Op.enqueue data).apply q = (.failed, q) := by
  have total := (Ring.occupied_full_iff represents.read represents.write).mp full
  rw [Op.apply, if_neg]
  rw [← represents.contents_eq, CircularQueue.contents, Ring.length_contents, total]
  exact Nat.lt_irrefl _

theorem apply_empty (represents : ring.Represents q) (empty : ring.write = ring.read) :
    Op.dequeue.apply q = (.failed, q) := by
  obtain rfl : q = [] := represents.contents_eq.symm.trans
    ((Ring.contents_eq_nil_iff represents.read represents.write).mpr empty)
  rfl

/-- Advancing the write position enqueues what the open cell holds. -/
theorem push (represents : ring.Represents q)
    (room : Ring.advance cqueueSize ring.write ≠ ring.read) :
    (Op.enqueue (ring.data ring.write)).apply q = (.stored, q ++ [ring.data ring.write]) ∧
      CircularQueue.Represents { ring with write := Ring.advance cqueueSize ring.write }
        (q ++ [ring.data ring.write]) := by
  have size : q.length < cqueueSize - 1 := by
    have total := Ring.occupied_lt represents.read represents.write
    have notAll := mt (Ring.occupied_full_iff represents.read represents.write).mpr room
    rw [← represents.contents_eq, CircularQueue.contents, Ring.length_contents]
    omega
  refine ⟨by rw [Op.apply, if_pos size], represents.read, Ring.advance_lt _ (by decide), ?_⟩
  rw [← represents.contents_eq]
  exact Ring.contents_push represents.read represents.write room

/-- Advancing the read position dequeues the oldest word. -/
theorem pop (represents : ring.Represents q) (some : ring.write ≠ ring.read) :
    ∃ rest, q = ring.data ring.read :: rest ∧
      CircularQueue.Represents { ring with read := Ring.advance cqueueSize ring.read } rest :=
  ⟨_, represents.contents_eq.symm.trans
      (Ring.contents_pop represents.read represents.write some),
    Ring.advance_lt _ (by decide), represents.write, rfl⟩

/-- `circular_queue_enqueue` is the enqueue of the bounded queue. -/
theorem enqueue (represents : ring.Represents q) (data : BitVec 64) :
    (circularQueueEnqueue ring data).1.Represents ((Op.enqueue data).apply q).2 ∧
      (circularQueueEnqueue ring data).2 =
        if ((Op.enqueue data).apply q).1 = .stored then 0 else -1 := by
  unfold circularQueueEnqueue
  by_cases full : (ring.write + 1) % cqueueSize = ring.read
  · rw [if_pos full, represents.apply_full full]
    exact ⟨represents, rfl⟩
  · have pushed := (represents.store data).push full
    dsimp only at pushed
    rw [Function.update_self] at pushed
    rw [if_neg full, pushed.1]
    exact ⟨pushed.2, rfl⟩

/-- `circular_queue_dequeue` is the dequeue of the bounded queue. -/
theorem dequeue (represents : ring.Represents q) :
    (circularQueueDequeue ring).1.Represents (Op.dequeue.apply q).2 ∧
      (Op.dequeue.apply q).1 = (circularQueueDequeue ring).2.elim .failed .taken := by
  unfold circularQueueDequeue
  by_cases empty : ring.write = ring.read
  · rw [if_pos empty, represents.apply_empty empty]
    exact ⟨represents, rfl⟩
  · obtain ⟨rest, rfl, popped⟩ := represents.pop empty
    rw [if_neg empty]
    exact ⟨popped, rfl⟩

end CircularQueue.Represents

end Lupin.Queue
