import Mathlib.Data.List.Basic
import Mathlib.Logic.Function.Basic
import Lupin.Lib.Holders
import Lupin.Lib.Transition
import Lupin.Queue.WakeKind

/-!
# Waiting and waking on one machine

`handle_vcxl_cond_wait` puts the calling task to sleep on a word of the shared memory while
the word has the expected value; `wake_proc` wakes the tasks that sleep on an offset. The
sleepers of all offsets with one hash are in the `chain` of one bucket, under its lock; a waker
takes the lock only if the bucket's counter `waiters` is not zero. Every access to shared data
is one step. The hash and the number of tasks are arbitrary.

Both functions are as `cxl_futex_waitwake.c` has them, with `ivpci_dev` the device of the call.
-/

namespace Lupin.Queue.Futex

open Lupin.Holders Lupin.Transition Lupin.Queue.WakeKind

/-- The call of a waiter: `struct vcxl_cond_wait`, and the priority of the task. -/
structure Wait where
  offset : BitVec 64
  value : BitVec 64
  prio : Nat
deriving DecidableEq

/-- A call of `wake_proc`, with the time at which it was made. -/
structure Wake where
  offset : BitVec 64
  wt : WakeType
  start : Nat
deriving DecidableEq

/-- Where a task is. -/
inductive Pc (Thread Bucket : Type) where
  | idle
  /-- `vcxl_futex_q_lock`. -/
  | waitersInc (wait : Wait)
  | setLockPtr (wait : Wait)
  | lockBucket (wait : Wait)
  /-- `vcxl_futex_wait_setup`, behind `vcxl_futex_q_lock`. -/
  | load (wait : Wait)
  /-- `vcxl_futex_q_unlock`. -/
  | unlockMismatch (wait : Wait)
  | decMismatch (wait : Wait)
  /-- `vcxl_futex_queue`. -/
  | queue (wait : Wait)
  | unlockQueued (wait : Wait)
  /-- `vcxl_futex_wait_queue`, until the task runs again for whatever reason. -/
  | asleep (wait : Wait)
  /-- `vcxl_futex_unqueue`; `lockPtr` is the value that was read. -/
  | readLockPtr (wait : Wait)
  | lockQueue (wait : Wait) (lockPtr : Bucket)
  | recheck (wait : Wait) (lockPtr : Bucket)
  | unlockRetry (wait : Wait) (lockPtr : Bucket)
  | del (wait : Wait) (lockPtr : Bucket)
  | decUnqueued (wait : Wait) (lockPtr hb : Bucket)
  | unlockUnqueued (wait : Wait) (lockPtr : Bucket)
  /-- `wake_proc`. -/
  | pending (wake : Wake)
  | lockWake (wake : Wake)
  | first (wake : Wake)
  /-- `plist_for_each_entry_safe` at the entry of a task, or behind the last one. -/
  | visit (wake : Wake) (this : Option Thread)
  | examine (wake : Wake) (this : Thread) (next : Option Thread)
  /-- `vcxl_futex_wake_mark`. -/
  | mark (wake : Wake) (this : Thread) (next : Option Thread)
  | decMarked (wake : Wake) (hb : Bucket) (this : Thread) (next : Option Thread)
  | clearLockPtr (wake : Wake) (this : Thread) (next : Option Thread)
  | unlockWake (wake : Wake)

/-- A store to a word. -/
structure Store (Thread : Type) where
  thread : Thread
  offset : BitVec 64
  value : BitVec 64
  time : Nat

structure State (Thread Bucket : Type) where
  word : BitVec 64 → BitVec 64
  /-- The `struct vcxl_futex_hash_bucket`s: `lock`, `waiters` and `chain`, as the tasks whose
  entries are in it. -/
  lock : Bucket → Option Thread
  waiters : Bucket → Int
  chain : Bucket → List Thread
  /-- The `struct vcxl_futex_q` of each task: `key`, `list.prio` and `lock_ptr`. -/
  key : Thread → BitVec 64
  prio : Thread → Nat
  lockPtr : Thread → Option Bucket
  pc : Thread → Pc Thread Bucket
  /-- The number of steps so far. -/
  time : Nat
  /-- When each task compared the word last. -/
  comparedAt : Thread → Nat
  stores : List (Store Thread)
  /-- The calls of `wake_proc` that are complete. -/
  woken : List (Thread × Wake)

variable {Thread Bucket : Type} [DecidableEq Thread] [DecidableEq Bucket]

/-- `plist_add`: behind all entries of the same or a higher priority. -/
def plistAdd (prio : Thread → Nat) (this : Thread) (chain : List Thread) : List Thread :=
  chain.takeWhile (fun other => prio other ≤ prio this) ++
    this :: chain.dropWhile (fun other => prio other ≤ prio this)

/-- The entry behind `this`. -/
def nextIn (chain : List Thread) (this : Thread) : Option Thread :=
  (chain.dropWhile (fun other => other ≠ this)).tail.head?

namespace State

def goto (s : State Thread Bucket) (t : Thread) (pc : Pc Thread Bucket) : State Thread Bucket :=
  { s with pc := Function.update s.pc t pc }

def setLock (s : State Thread Bucket) (b : Bucket) (owner : Option Thread) :
    State Thread Bucket :=
  { s with lock := Function.update s.lock b owner }

def addWaiters (s : State Thread Bucket) (b : Bucket) (change : Int) : State Thread Bucket :=
  { s with waiters := Function.update s.waiters b (s.waiters b + change) }

def setChain (s : State Thread Bucket) (b : Bucket) (chain : List Thread) :
    State Thread Bucket :=
  { s with chain := Function.update s.chain b chain }

def setPtr (s : State Thread Bucket) (t : Thread) (lockPtr : Option Bucket) :
    State Thread Bucket :=
  { s with lockPtr := Function.update s.lockPtr t lockPtr }

/-- The bucket from which `__vcxl_futex_unqueue` removes the entry, `none` if it warns and
returns. -/
def queuedIn (s : State Thread Bucket) (this : Thread) : Option Bucket :=
  match s.lockPtr this with
  | none => none
  | some hb => if this ∈ s.chain hb then some hb else none

end State

section Step

variable (hash : BitVec 64 → Bucket)

/-- The next step of a task. `expired` is whether the timer has run out, where
`handle_vcxl_cond_wait` asks for it. -/
def State.advance (s : State Thread Bucket) (t : Thread) (expired : Bool) :
    Option (State Thread Bucket) :=
  match s.pc t with
  | .idle => none
  | .waitersInc wait => some ((s.addWaiters (hash wait.offset) 1).goto t (.setLockPtr wait))
  | .setLockPtr wait => some ((s.setPtr t (some (hash wait.offset))).goto t (.lockBucket wait))
  | .lockBucket wait =>
      if s.lock (hash wait.offset) = none then
        some ((s.setLock (hash wait.offset) (some t)).goto t (.load wait))
      else none
  | .load wait =>
      some ({ s with comparedAt := Function.update s.comparedAt t s.time }.goto t
        (if s.word wait.offset = wait.value then .queue wait else .unlockMismatch wait))
  | .unlockMismatch wait => some ((s.setLock (hash wait.offset) none).goto t (.decMismatch wait))
  | .decMismatch wait => some ((s.addWaiters (hash wait.offset) (-1)).goto t .idle)
  | .queue wait =>
      let prio := Function.update s.prio t wait.prio
      some (({ s with prio }.setChain (hash wait.offset)
        (plistAdd prio t (s.chain (hash wait.offset)))).goto t (.unlockQueued wait))
  | .unlockQueued wait => some ((s.setLock (hash wait.offset) none).goto t (.asleep wait))
  | .asleep wait => some (s.goto t (.readLockPtr wait))
  | .readLockPtr wait =>
      match s.lockPtr t with
      | none => some (s.goto t .idle)
      | some lockPtr => some (s.goto t (.lockQueue wait lockPtr))
  | .lockQueue wait lockPtr =>
      if s.lock lockPtr = none then
        some ((s.setLock lockPtr (some t)).goto t (.recheck wait lockPtr))
      else none
  | .recheck wait lockPtr =>
      some (s.goto t
        (if s.lockPtr t ≠ some lockPtr then .unlockRetry wait lockPtr else .del wait lockPtr))
  | .unlockRetry wait lockPtr => some ((s.setLock lockPtr none).goto t (.readLockPtr wait))
  | .del wait lockPtr =>
      match s.queuedIn t with
      | none => some (s.goto t (.unlockUnqueued wait lockPtr))
      | some hb =>
          some ((s.setChain hb ((s.chain hb).erase t)).goto t (.decUnqueued wait lockPtr hb))
  | .decUnqueued wait lockPtr hb =>
      some ((s.addWaiters hb (-1)).goto t (.unlockUnqueued wait lockPtr))
  | .unlockUnqueued wait lockPtr =>
      -- a timeout ends the call, any other wake-up starts over
      some ((s.setLock lockPtr none).goto t (if expired then .idle else .waitersInc wait))
  | .pending wake =>
      if s.waiters (hash wake.offset) = 0 then
        some ({ s with woken := (t, wake) :: s.woken }.goto t .idle)
      else some (s.goto t (.lockWake wake))
  | .lockWake wake =>
      if s.lock (hash wake.offset) = none then
        some ((s.setLock (hash wake.offset) (some t)).goto t (.first wake))
      else none
  | .first wake => some (s.goto t (.visit wake (s.chain (hash wake.offset)).head?))
  | .visit wake none => some (s.goto t (.unlockWake wake))
  | .visit wake (some this) =>
      some (s.goto t (.examine wake this (nextIn (s.chain (hash wake.offset)) this)))
  | .examine wake this next =>
      some (s.goto t
        (if s.key this = wake.offset then .mark wake this next else .visit wake next))
  | .mark wake this next =>
      match s.queuedIn this with
      | none => some (s.goto t (.clearLockPtr wake this next))
      | some hb =>
          some ((s.setChain hb ((s.chain hb).erase this)).goto t (.decMarked wake hb this next))
  | .decMarked wake hb this next =>
      some ((s.addWaiters hb (-1)).goto t (.clearLockPtr wake this next))
  | .clearLockPtr wake this next =>
      some ((s.setPtr this none).goto t
        (if wake.wt = .next then .unlockWake wake else .visit wake next))
  | .unlockWake wake =>
      some (({ s with woken := (t, wake) :: s.woken }.setLock (hash wake.offset) none).goto t .idle)

inductive Action (Thread : Type) where
  /-- A task calls `do_vcxl_cond_wait`. -/
  | wait (t : Thread) (wait : Wait)
  /-- A task stores to a word. -/
  | store (t : Thread) (offset value : BitVec 64)
  /-- A task calls `wake_proc`. -/
  | wake (t : Thread) (offset : BitVec 64) (wt : WakeType)
  /-- A task that is in one of the two calls makes a step. -/
  | advance (t : Thread) (expired : Bool)

/-- What an action does, the clock apart. -/
def State.act (s : State Thread Bucket) : Action Thread → Option (State Thread Bucket)
  | .wait t wait =>
      match s.pc t with
      | .idle =>
          some ({ s with key := Function.update s.key t wait.offset }.goto t (.waitersInc wait))
      | _ => none
  | .store t offset value =>
      match s.pc t with
      | .idle => some { s with
          word := Function.update s.word offset value
          stores := ⟨t, offset, value, s.time⟩ :: s.stores }
      | _ => none
  | .wake t offset wt =>
      match s.pc t with
      | .idle => some (s.goto t (.pending ⟨offset, wt, s.time⟩))
      | _ => none
  | .advance t expired => s.advance hash t expired

/-- All interleavings of tasks that wait, store and wake. Nothing is known of the words and the
stacks at the start. -/
def futexMachine (word : BitVec 64 → BitVec 64) (key : Thread → BitVec 64)
    (prio : Thread → Nat) (lockPtr : Thread → Option Bucket) :
    Machine (State Thread Bucket) (Action Thread) where
  initial :=
    { word, key, prio, lockPtr
      lock := fun _ => none
      waiters := fun _ => 0
      chain := fun _ => []
      pc := fun _ => .idle
      time := 0
      comparedAt := fun _ => 0
      stores := []
      woken := [] }
  step s action := (s.act hash action).map fun next => { next with time := s.time + 1 }

/-- The bucket whose lock a task holds. -/
def Pc.held : Pc Thread Bucket → Option Bucket
  | .load wait | .unlockMismatch wait | .queue wait | .unlockQueued wait =>
      some (hash wait.offset)
  | .recheck _ lockPtr | .unlockRetry _ lockPtr | .del _ lockPtr | .decUnqueued _ lockPtr _
  | .unlockUnqueued _ lockPtr => some lockPtr
  | .first wake | .visit wake _ | .examine wake _ _ | .mark wake _ _ | .decMarked wake _ _ _
  | .clearLockPtr wake _ _ | .unlockWake wake => some (hash wake.offset)
  | _ => none

/-- The bucket that counts an entry in transit for which the task is responsible: between the
increment and the queueing, between a mismatch and its decrement, or between a removal from the
list and its decrement. -/
def Pc.transit : Pc Thread Bucket → Option Bucket
  | .setLockPtr wait | .lockBucket wait | .load wait | .queue wait | .unlockMismatch wait
  | .decMismatch wait => some (hash wait.offset)
  | .decUnqueued _ _ hb | .decMarked _ hb _ _ => some hb
  | _ => none

end Step

end Lupin.Queue.Futex
