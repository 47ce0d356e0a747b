import Mathlib.Data.List.Perm.Basic
import Lupin.Queue.CircularOps

/-!
# The kind of a cross-machine wake

A wake of a process on another machine travels in two parts: its offset through the
circular queue of the peer, its kind as the vector of the doorbell. A handler on the
peer takes the oldest offset and wakes with the kind of its own vector. Here a call of
a queue operation is one step.
-/

namespace Lupin.Queue.WakeKind

open Lupin.Transition

/-- `enum wake_types`. -/
inductive WakeType where
  | next | all
deriving DecidableEq, Repr

/-- `CXL_IVPCI_VECTOR_PROCESS_WAKE_TABLE_NEXT` and `.._ALL`. -/
def vectorNext : BitVec 16 := 1
def vectorAll : BitVec 16 := 2

/-- The vector of `wake.arg`. -/
def vectorOf (arg : BitVec 32) : BitVec 16 := (arg &&& 0xffff).setWidth 16

/-- The kind `do_vcxl_wake` reads from a vector, `none` for an invalid one. -/
def wakeTypeOf (vector : BitVec 16) : Option WakeType :=
  if vector = vectorAll then some .all else if vector = vectorNext then some .next else none

/-- The kind of the handler that a vector is connected to. -/
def handlerType (vector : BitVec 16) : Option WakeType :=
  if vector = vectorNext then some .next else if vector = vectorAll then some .all else none

structure State where
  queue : CircularQueue
  /-- The vectors of the calls that have enqueued but not rung yet. -/
  ringing : List (BitVec 16)
  /-- The vectors that were rung and not handled yet. -/
  doorbells : List (BitVec 16)
  /-- The wakes asked for, in the order of their enqueues. -/
  requested : List (BitVec 64 × WakeType)
  /-- The calls of `wake_proc` on the peer, in order. -/
  applied : List (BitVec 64 × WakeType)

inductive Action where
  /-- An attempt of `do_vcxl_wake` to enqueue its offset. -/
  | enqueue (arg : BitVec 32) (offset : BitVec 64)
  /-- Its store to the doorbell register. -/
  | ring (vector : BitVec 16)
  /-- The peer runs the handler for a doorbell. -/
  | handle (vector : BitVec 16)

/-- `vcxl_futex_wake` with the kind of its handler. -/
def vcxlFutexWake (s : State) (wt : WakeType) : State :=
  match circularQueueDequeue s.queue with
  | (_, none) => s
  | (queue, some offset) => { s with queue, applied := s.applied ++ [(offset, wt)] }

def step (s : State) : Action → Option State
  | .enqueue arg offset =>
      match wakeTypeOf (vectorOf arg) with
      | none => none
      | some wt =>
          match circularQueueEnqueue s.queue offset with
          | (queue, 0) =>
              some { s with
                queue
                ringing := vectorOf arg :: s.ringing
                requested := s.requested ++ [(offset, wt)] }
          | (_, _) => some s
  | .ring vector =>
      if vector ∈ s.ringing then
        some { s with ringing := s.ringing.erase vector, doorbells := vector :: s.doorbells }
      else none
  | .handle vector =>
      if vector ∈ s.doorbells then
        (handlerType vector).map fun wt =>
          { vcxlFutexWake s wt with doorbells := s.doorbells.erase vector }
      else none

/-- The wakes for one peer, from an empty queue. -/
def wakeMachine : Machine State Action where
  initial := ⟨⟨fun _ => 0, 0, 0⟩, [], [], [], []⟩
  step := step

/-- Every call has rung and every doorbell was handled. -/
def State.Completed (s : State) : Prop := s.ringing = [] ∧ s.doorbells = []

instance (s : State) : Decidable s.Completed := inferInstanceAs (Decidable (_ ∧ _))

/-! ## Handlers in the order of the requests -/

/-- A handler runs only when the oldest request in the queue is of its kind. -/
def handledInOrder (s : State) (action : Action) (_ : State) : Prop :=
  match action with
  | .handle vector =>
      ∀ request, s.requested[s.applied.length]? = some request →
        handlerType vector = some request.2
  | _ => True

/-- The requests not applied yet are in the queue, one for every call that has not come to
its end. -/
structure Pending (s : State) (pending : List (BitVec 64 × WakeType)) : Prop where
  requested : s.requested = s.applied ++ pending
  queued : s.queue.Represents (pending.map Prod.fst)
  counted : pending.length = s.ringing.length + s.doorbells.length

section Steps

variable {s next : State} {pending : List (BitVec 64 × WakeType)}

theorem Pending.enqueue (inv : Pending s pending) {arg : BitVec 32} {offset : BitVec 64}
    (transition : step s (.enqueue arg offset) = some next) : ∃ pending, Pending next pending := by
  rw [step] at transition
  cases kind : wakeTypeOf (vectorOf arg) with
  | none => simp [kind] at transition
  | some wt =>
      simp only [kind] at transition
      have called := inv.queued.enqueue offset
      rcases result : circularQueueEnqueue s.queue offset with ⟨queue, ret⟩
      rw [result, Op.apply] at called
      rw [result] at transition
      split at called
      · obtain ⟨represents, rfl⟩ := called
        obtain rfl := Option.some.inj transition
        refine ⟨pending ++ [(offset, wt)], ?_, ?_, ?_⟩
        · rw [inv.requested, List.append_assoc]
        · rw [List.map_append]
          exact represents
        · have := inv.counted
          simp only [List.length_append, List.length_cons, List.length_nil]
          omega
      · obtain ⟨_, rfl⟩ := called
        obtain rfl := Option.some.inj transition
        exact ⟨pending, inv⟩

theorem Pending.ring (inv : Pending s pending) {vector : BitVec 16}
    (transition : step s (.ring vector) = some next) : Pending next pending := by
  rw [step] at transition
  split at transition
  · rename_i member
    obtain rfl := Option.some.inj transition
    refine ⟨inv.requested, inv.queued, ?_⟩
    have positive := List.length_pos_of_mem member
    rw [inv.counted, List.length_erase_of_mem member, List.length_cons]
    omega
  · exact absurd transition (by simp)

/-- A handler finds an offset: the oldest request, which it applies with its own kind. -/
theorem Pending.handle (inv : Pending s pending) {vector : BitVec 16}
    (transition : step s (.handle vector) = some next)
    (inOrder : handledInOrder s (.handle vector) next) : ∃ pending, Pending next pending := by
  rw [step] at transition
  split at transition
  · rename_i member
    obtain ⟨wt, kind, rfl⟩ := Option.map_eq_some_iff.mp transition
    have positive := List.length_pos_of_mem member
    have counted := inv.counted
    -- a doorbell that was not handled has its offset in the queue
    cases pending with
    | nil =>
        rw [List.length_nil] at counted
        omega
    | cons request rest =>
        have called := inv.queued.dequeue
        rcases result : circularQueueDequeue s.queue with ⟨queue, _ | offset⟩
        · rw [result] at called
          exact nomatch called.2
        rw [result] at called
        obtain rfl : request.1 = offset := Outcome.taken.inj called.2
        have oldest : s.requested[s.applied.length]? = some request := by
          rw [inv.requested, List.getElem?_append_right (Nat.le_refl _), Nat.sub_self]
          rfl
        have sameKind : wt = request.2 := Option.some.inj (kind.symm.trans (inOrder request oldest))
        refine ⟨rest, ?_⟩
        simp only [vcxlFutexWake, result]
        refine ⟨?_, called.1, ?_⟩
        · rw [inv.requested, sameKind, List.append_assoc]
          rfl
        · rw [List.length_cons] at counted
          dsimp only
          rw [List.length_erase_of_mem member]
          omega
  · exact absurd transition (by simp)

theorem pending_of_reachable (reached : wakeMachine.Reachable handledInOrder s) :
    ∃ pending, Pending s pending := by
  induction reached with
  | initial => exact ⟨[], rfl, ⟨by decide, by decide, rfl⟩, rfl⟩
  | @step state next action _ transition allowed inductionHypothesis =>
      obtain ⟨pending, inv⟩ := inductionHypothesis
      cases action with
      | enqueue arg offset => exact inv.enqueue transition
      | ring vector => exact ⟨pending, inv.ring transition⟩
      | handle vector => exact inv.handle transition allowed

end Steps

/-- When every handler runs while the oldest request is of its kind, the wakes applied once
all handlers have run are the wakes requested. -/
theorem wakes_keep_kind_of_order {s : State} (reached : wakeMachine.Reachable handledInOrder s)
    (completed : s.Completed) : s.applied.Perm s.requested := by
  obtain ⟨pending, inv⟩ := pending_of_reachable reached
  have counted := inv.counted
  rw [completed.1, completed.2] at counted
  have none : pending = [] := List.eq_nil_of_length_eq_zero counted
  rw [inv.requested, none, List.append_nil]

/-- Two wakes whose handlers run in the order of their requests. -/
def inOrder : List Action :=
  [.enqueue 1 16, .enqueue 2 32, .ring 2, .ring 1, .handle 1, .handle 2]

theorem wakes_keep_kind_of_order_inOrder :
    (wakeMachine.final inOrder).Completed ∧
      (wakeMachine.final inOrder).applied.Perm (wakeMachine.final inOrder).requested := by
  have reached : wakeMachine.Reachable handledInOrder (wakeMachine.final inOrder) := by
    refine Machine.reachable_final (fun s action _ => match action with
      | .handle vector => (s.requested[s.applied.length]?).all fun request =>
          handlerType vector = some request.2
      | _ => true) ?_ inOrder (by decide +kernel)
    rintro s (⟨arg, offset⟩ | vector | vector) next decided
    · trivial
    · trivial
    · intro request found
      simpa [found] using decided
  have completed : (wakeMachine.final inOrder).Completed := by decide +kernel
  exact ⟨completed, wakes_keep_kind_of_order reached completed⟩

/-- The doorbells arrive in the other order: the wake of the next waiter at 16 is applied to
all of them, and the wake of all at 32 to the next one only. -/
theorem doorbells_swapped_change_kind :
    let s := wakeMachine.final
      [.enqueue 1 16, .enqueue 2 32, .ring 2, .ring 1, .handle 2, .handle 1]
    s.ringing = [] ∧ s.doorbells = [] ∧ s.requested = [(16, .next), (32, .all)] ∧
      s.applied = [(16, .all), (32, .next)] ∧ ¬ s.applied.Perm s.requested := by
  decide +kernel

end Lupin.Queue.WakeKind
