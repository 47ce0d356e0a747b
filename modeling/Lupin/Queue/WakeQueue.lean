import Mathlib.Data.List.Basic
import Mathlib.Logic.Function.Basic
import Lupin.Lock.Word
import Lupin.Queue.CircularOps

/-!
# The wake-up address queue of one machine

`do_vcxl_wake` on any other machine puts the offset to wake into the circular
queue of machine `peer`, retrying while the queue is full; `vcxl_futex_wake` on
`peer` takes one out. Both run under the queue's ttas lock, whose holder is named
by the machine id the caller passes and its own CPU number. Every load, store and
compare and swap on the queue is one step.

`do_vcxl_wake` passes the id of the peer and not its own, so CPUs of different
machines with one number share an identity, and `ttas_recover` lets the second
one in. `delivered_in_order_of_foreign_free` states what the queue guarantees
while no call meets its own identity in the lock word. The calls then are those of the
bounded queue, each of them taking effect in one of its steps.
-/

namespace Lupin.Queue.Wake

open Lupin.Lock Lupin.Transition

/-- Where one CPU is in `circular_queue_enqueue` or `circular_queue_dequeue`. -/
inductive Pc where
  | idle
  /-- `ttas_recover`: the load that asks "do I hold it already?". -/
  | recoverCheck (op : Op)
  /-- `ttas_enter`: the load of the inner loop. -/
  | spin (op : Op)
  /-- `ttas_enter`: the compare and swap from `UNLOCKED`. -/
  | acquire (op : Op)
  | loadWrite (op : Op)
  | loadRead (op : Op) (w : Nat)
  /-- `q->data[w] = data`. -/
  | storeData (offset : BitVec 64) (w nextW : Nat)
  | storeWrite (offset : BitVec 64) (nextW : Nat)
  /-- The unlock before returning 0 from the enqueue. -/
  | unlockStored (offset : BitVec 64)
  /-- The unlock before returning -1 from the enqueue. -/
  | unlockFull (offset : BitVec 64)
  /-- `*data = q->data[r]`. -/
  | loadData (r : Nat)
  | storeRead (offset : BitVec 64) (r : Nat)
  /-- The unlock before returning 0 from the dequeue. -/
  | unlockTaken (offset : BitVec 64)
  /-- The unlock before returning -1 from the dequeue. -/
  | unlockEmpty
deriving DecidableEq

structure State (topology : Topology) where
  csst : BitVec 64
  read : Nat
  write : Nat
  data : Nat → BitVec 64
  pc : Cpu topology → Pc
  /-- The `do_vcxl_wake` calls of a machine that are between two attempts. -/
  calls : Nat → List (BitVec 64)
  /-- The offsets whose enqueue returned 0, in the order of their unlock stores. -/
  enqueued : List (BitVec 64)
  /-- The offsets `vcxl_futex_wake` got from its dequeues, in order. -/
  dequeued : List (BitVec 64)

inductive Action (topology : Topology) where
  /-- `do_vcxl_wake` for `peer` starts on a machine. -/
  | wake (machine : Nat) (offset : BitVec 64)
  /-- The loop of a `do_vcxl_wake` call makes an attempt on `cpu`. -/
  | attempt (cpu : Cpu topology) (offset : BitVec 64)
  /-- The interrupt on a CPU of `peer` runs `vcxl_futex_wake`. -/
  | interrupt (cpu : Cpu topology)
  | advance (cpu : Cpu topology)

variable {topology : Topology} {peer : Nat}

/-- The identifier `ttas_lock_kern` works with on `cpu`; `do_vcxl_wake` and
`vcxl_futex_wake` both end up passing `peer` for the machine. -/
def identity (peer : Nat) (cpu : Cpu topology) : Option (BitVec 16) :=
  if peer < 1 then none else getProcessIdentifier topology peer cpu.cpuId

def State.setPc (σ : State topology) (cpu : Cpu topology) (pc : Pc) : State topology :=
  { σ with pc := Function.update σ.pc cpu pc }

@[simp] theorem State.setPc_read (σ : State topology) (cpu : Cpu topology) (pc : Pc) :
    (σ.setPc cpu pc).read = σ.read := rfl

@[simp] theorem State.setPc_write (σ : State topology) (cpu : Cpu topology) (pc : Pc) :
    (σ.setPc cpu pc).write = σ.write := rfl

@[simp] theorem State.setPc_data (σ : State topology) (cpu : Cpu topology) (pc : Pc) :
    (σ.setPc cpu pc).data = σ.data := rfl

/-- After both positions are loaded. -/
def afterLoad (op : Op) (w r : Nat) : Pc :=
  match op with
  | .enqueue offset =>
      if (w + 1) % cqueueSize = r then .unlockFull offset
      else .storeData offset w ((w + 1) % cqueueSize)
  | .dequeue => if w = r then .unlockEmpty else .loadData r

/-- One atomic step of the queue's code on `cpu`, whose identifier is `procId`. -/
def advanceCpu (σ : State topology) (cpu : Cpu topology) (procId : BitVec 16) :
    Option (State topology) :=
  match σ.pc cpu with
  | .idle => none
  | .recoverCheck op =>
      if σ.csst = lockVal procId then some (σ.setPc cpu (.loadWrite op))
      else some (σ.setPc cpu (.spin op))
  | .spin op =>
      if σ.csst = unlocked then some (σ.setPc cpu (.acquire op)) else some σ
  | .acquire op =>
      if σ.csst = unlocked then
        some { σ.setPc cpu (.loadWrite op) with csst := lockVal procId }
      else some (σ.setPc cpu (.spin op))
  | .loadWrite op => some (σ.setPc cpu (.loadRead op σ.write))
  | .loadRead op w => some (σ.setPc cpu (afterLoad op w σ.read))
  | .storeData offset w nextW =>
      some { σ.setPc cpu (.storeWrite offset nextW) with
        data := Function.update σ.data w offset }
  | .storeWrite offset nextW =>
      some { σ.setPc cpu (.unlockStored offset) with write := nextW }
  | .unlockStored offset =>
      some { σ.setPc cpu .idle with csst := unlocked, enqueued := σ.enqueued ++ [offset] }
  | .unlockFull offset =>
      some { σ.setPc cpu .idle with
        csst := unlocked
        calls := Function.update σ.calls cpu.machineId (offset :: σ.calls cpu.machineId) }
  | .loadData r => some (σ.setPc cpu (.storeRead (σ.data r) r))
  | .storeRead offset r =>
      some { σ.setPc cpu (.unlockTaken offset) with read := (r + 1) % cqueueSize }
  | .unlockTaken offset =>
      some { σ.setPc cpu .idle with csst := unlocked, dequeued := σ.dequeued ++ [offset] }
  | .unlockEmpty => some { σ.setPc cpu .idle with csst := unlocked }

/-- One step of the machines around the queue of `peer`. -/
def step (peer : Nat) (σ : State topology) : Action topology → Option (State topology)
  | .wake machine offset =>
      if machine = peer then none
      else some { σ with
        calls := Function.update σ.calls machine (offset :: σ.calls machine) }
  | .attempt cpu offset =>
      if σ.pc cpu = .idle ∧ offset ∈ σ.calls cpu.machineId then
        some { σ.setPc cpu (.recoverCheck (.enqueue offset)) with
          calls := Function.update σ.calls cpu.machineId
            ((σ.calls cpu.machineId).erase offset) }
      else none
  | .interrupt cpu =>
      if cpu.machineId = peer ∧ σ.pc cpu = .idle then
        some (σ.setPc cpu (.recoverCheck .dequeue))
      else none
  | .advance cpu =>
      match identity peer cpu with
      | none => none
      | some procId => advanceCpu σ cpu procId

/-- The queue of `peer` after `init_circular_queue`. -/
def queueOf (topology : Topology) (peer : Nat) : Machine (State topology) (Action topology) where
  initial := ⟨unlocked, 0, 0, fun _ => 0, fun _ => .idle, fun _ => [], [], []⟩
  step := step peer

def State.ring (σ : State topology) : CircularQueue := ⟨σ.data, σ.read, σ.write⟩

/-- The entries in the queue, oldest first. -/
def State.contents (σ : State topology) : List (BitVec 64) := σ.ring.contents

/-- Between a successful acquisition and the unlock store. -/
def Pc.holds : Pc → Bool
  | .idle | .recoverCheck _ | .spin _ | .acquire _ => false
  | _ => true

/-- Nothing is lost, duplicated or reordered on the way through the queue. -/
structure DeliveredInOrder (σ : State topology) : Prop where
  /-- What was dequeued is an initial part of what was enqueued. -/
  ordered : σ.dequeued <+: σ.enqueued
  /-- The rest is still in the queue once no call is inside. -/
  complete : (∀ cpu, (σ.pc cpu).holds = false) → σ.enqueued = σ.dequeued ++ σ.contents
  /-- A drained queue has delivered everything. -/
  drained : (∀ cpu, (σ.pc cpu).holds = false) → σ.read = σ.write → σ.dequeued = σ.enqueued

/-- At its `ttas_recover` load the call does not find its own identity: no CPU
of another machine with the same number holds the lock. -/
def foreignFree (peer : Nat) (σ : State topology) (action : Action topology)
    (_ : State topology) : Bool :=
  match action with
  | .advance cpu =>
      match σ.pc cpu, identity peer cpu with
      | .recoverCheck _, some procId => σ.csst != lockVal procId
      | _, _ => true
  | _ => true

/-! ## The invariant -/

/-- An entry that is published and not yet counted as enqueued. -/
def Pc.added : Pc → List (BitVec 64)
  | .unlockStored offset => [offset]
  | _ => []

/-- An entry that is taken out and not yet counted as dequeued. -/
def Pc.removed : Pc → List (BitVec 64)
  | .unlockTaken offset => [offset]
  | _ => []

/-- What the holder of the lock has read still describes the queue. -/
def Located (σ : State topology) : Pc → Prop
  | .loadRead _ w => w = σ.write
  | .storeData _ w nextW => w = σ.write ∧ nextW = Ring.advance cqueueSize w ∧ nextW ≠ σ.read
  | .storeWrite offset nextW =>
      nextW = Ring.advance cqueueSize σ.write ∧ nextW ≠ σ.read ∧ σ.data σ.write = offset
  | .loadData r => r = σ.read ∧ σ.write ≠ σ.read
  | .storeRead offset r => r = σ.read ∧ σ.write ≠ σ.read ∧ offset = σ.data r
  | .unlockStored _ => σ.write ≠ σ.read
  | _ => True

/-- Both logs and the queue agree up to the holder's own entry. -/
def Balanced (σ : State topology) (pc : Pc) : Prop :=
  σ.enqueued ++ pc.added = σ.dequeued ++ pc.removed ++ σ.contents

structure Invariant (σ : State topology) : Prop where
  readBound : σ.read < cqueueSize
  writeBound : σ.write < cqueueSize
  locked : ∀ cpu, (σ.pc cpu).holds = true → σ.csst ≠ unlocked
  exclusive : ∀ first second, (σ.pc first).holds = true → (σ.pc second).holds = true →
    first = second
  located : ∀ cpu, (σ.pc cpu).holds = true → Located σ (σ.pc cpu)
  balanced : ∀ cpu, (σ.pc cpu).holds = true → Balanced σ (σ.pc cpu)
  quiet : (∀ cpu, (σ.pc cpu).holds = false) → σ.enqueued = σ.dequeued ++ σ.contents

/-- Everything one step can do that keeps the exclusion of the lock. -/
inductive Effect (σ : State topology) : State topology → Prop where
  /-- A CPU moves outside the lock, or a call starts. -/
  | outside {cpu : Cpu topology} {pc : Pc} {calls : Nat → List (BitVec 64)}
      (before : (σ.pc cpu).holds = false) (after : pc.holds = false) :
      Effect σ { σ.setPc cpu pc with calls := calls }
  | start {calls : Nat → List (BitVec 64)} : Effect σ { σ with calls := calls }
  | enter {cpu : Cpu topology} {op : Op} {word : BitVec 64} (free : σ.csst = unlocked)
      (taken : word ≠ unlocked) :
      Effect σ { σ.setPc cpu (.loadWrite op) with csst := word }
  /-- The holder goes on, with `data`, `read` and `write` as it left them. -/
  | inside {cpu : Cpu topology} {pc : Pc} {data : Nat → BitVec 64} {read write : Nat}
      (before : (σ.pc cpu).holds = true) (after : pc.holds = true)
      (readBound : read < cqueueSize) (writeBound : write < cqueueSize)
      (located : Located { σ with data := data, read := read, write := write } pc)
      (balanced : Balanced { σ with data := data, read := read, write := write } pc) :
      Effect σ { σ.setPc cpu pc with data := data, read := read, write := write }
  | leave {cpu : Cpu topology} {calls : Nat → List (BitVec 64)}
      (before : (σ.pc cpu).holds = true) :
      Effect σ { σ.setPc cpu .idle with
        csst := unlocked
        calls := calls
        enqueued := σ.enqueued ++ (σ.pc cpu).added
        dequeued := σ.dequeued ++ (σ.pc cpu).removed }

theorem Invariant.represents {σ : State topology} (inv : Invariant σ) :
    σ.ring.Represents σ.contents :=
  ⟨inv.readBound, inv.writeBound, rfl⟩

theorem Invariant.nobody_of_unlocked {σ : State topology} (inv : Invariant σ)
    (free : σ.csst = unlocked) (cpu : Cpu topology) : (σ.pc cpu).holds = false := by
  cases inside : (σ.pc cpu).holds with
  | false => rfl
  | true => exact absurd free (inv.locked cpu inside)

/-- The holder stores the entry into the open cell. -/
theorem Invariant.storeData {σ : State topology} (inv : Invariant σ) {cpu : Cpu topology}
    {offset : BitVec 64} {w nextW : Nat} (current : σ.pc cpu = .storeData offset w nextW) :
    Effect σ { σ.setPc cpu (.storeWrite offset nextW) with
      data := Function.update σ.data w offset } := by
  have inside : (σ.pc cpu).holds = true := by rw [current]; rfl
  have located := inv.located cpu inside
  have balanced := inv.balanced cpu inside
  rw [current] at located balanced
  obtain ⟨rfl, next, open_⟩ := located
  have unseen := (inv.represents.store offset).contents_eq
  exact .inside inside rfl inv.readBound inv.writeBound ⟨next, open_, by simp⟩
    (Eq.trans balanced (congrArg (σ.dequeued ++ [] ++ ·) unseen.symm))

/-- The holder publishes the stored entry. -/
theorem Invariant.storeWrite {σ : State topology} (inv : Invariant σ) {cpu : Cpu topology}
    {offset : BitVec 64} {nextW : Nat} (current : σ.pc cpu = .storeWrite offset nextW) :
    Effect σ { σ.setPc cpu (.unlockStored offset) with write := nextW } := by
  have inside : (σ.pc cpu).holds = true := by rw [current]; rfl
  have located := inv.located cpu inside
  have balanced := inv.balanced cpu inside
  rw [current] at located balanced
  obtain ⟨rfl, open_, stored⟩ := located
  have published := (inv.represents.push open_).2
  have logs : σ.enqueued = σ.dequeued ++ σ.contents := by
    simpa [Balanced, Pc.added, Pc.removed] using balanced
  have counted : σ.enqueued ++ [offset] =
      σ.dequeued ++ [] ++ (σ.contents ++ [σ.data σ.write]) := by
    rw [logs, stored, List.append_nil, List.append_assoc]
  exact .inside inside rfl inv.readBound published.write open_
    (counted.trans (congrArg (σ.dequeued ++ [] ++ ·) published.contents_eq.symm))

/-- The holder takes the oldest entry out. -/
theorem Invariant.storeRead {σ : State topology} (inv : Invariant σ) {cpu : Cpu topology}
    {offset : BitVec 64} {r : Nat} (current : σ.pc cpu = .storeRead offset r) :
    Effect σ { σ.setPc cpu (.unlockTaken offset) with read := (r + 1) % cqueueSize } := by
  have inside : (σ.pc cpu).holds = true := by rw [current]; rfl
  have located := inv.located cpu inside
  have balanced := inv.balanced cpu inside
  rw [current] at located balanced
  obtain ⟨rfl, nonempty, rfl⟩ := located
  obtain ⟨rest, oldest, popped⟩ := inv.represents.pop nonempty
  have logs : σ.enqueued = σ.dequeued ++ σ.contents := by
    simpa [Balanced, Pc.added, Pc.removed] using balanced
  have counted : σ.enqueued ++ [] = σ.dequeued ++ [σ.data σ.read] ++ rest := by
    rw [logs, oldest, List.append_nil, List.append_assoc]
    rfl
  exact .inside inside rfl popped.read inv.writeBound trivial
    (counted.trans (congrArg (σ.dequeued ++ [σ.data σ.read] ++ ·) popped.contents_eq.symm))

/-- The holder moves on after a load that leaves the queue as it is. -/
theorem Invariant.load {σ : State topology} (inv : Invariant σ) {cpu : Cpu topology} {pc : Pc}
    (before : (σ.pc cpu).holds = true) (after : pc.holds = true) (located : Located σ pc)
    (keeps : (σ.pc cpu).added = [] ∧ (σ.pc cpu).removed = [])
    (fresh : pc.added = [] ∧ pc.removed = []) : Effect σ (σ.setPc cpu pc) := by
  have balanced := inv.balanced cpu before
  refine .inside before after inv.readBound inv.writeBound located ?_
  simpa [Balanced, keeps, fresh] using balanced

theorem afterLoad_spec (σ : State topology) (op : Op) :
    (afterLoad op σ.write σ.read).holds = true ∧
      Located σ (afterLoad op σ.write σ.read) ∧
      (afterLoad op σ.write σ.read).added = [] ∧ (afterLoad op σ.write σ.read).removed = [] := by
  cases op with
  | enqueue offset =>
      by_cases full : (σ.write + 1) % cqueueSize = σ.read
      · simp only [afterLoad, full, if_true]
        exact ⟨rfl, trivial, rfl, rfl⟩
      · simp only [afterLoad, full, if_false]
        exact ⟨rfl, ⟨rfl, rfl, full⟩, rfl, rfl⟩
  | dequeue =>
      by_cases empty : σ.write = σ.read
      · simp only [afterLoad, empty, if_true]
        exact ⟨rfl, trivial, rfl, rfl⟩
      · simp only [afterLoad, empty, if_false]
        exact ⟨rfl, ⟨rfl, empty⟩, rfl, rfl⟩

/-- The unlock store, with the holder's entry counted. -/
theorem leave_effect {σ : State topology} {cpu : Cpu topology} {pc : Pc}
    (calls : Nat → List (BitVec 64)) (current : σ.pc cpu = pc) (before : pc.holds = true) :
    Effect σ { σ.setPc cpu .idle with
      csst := unlocked
      calls := calls
      enqueued := σ.enqueued ++ pc.added
      dequeued := σ.dequeued ++ pc.removed } := by
  subst current
  exact .leave before

theorem Invariant.advanceCpu_effect {σ next : State topology} (inv : Invariant σ)
    {cpu : Cpu topology} {procId : BitVec 16} (taken : advanceCpu σ cpu procId = some next)
    (foreign : ∀ op, σ.pc cpu = .recoverCheck op → σ.csst ≠ lockVal procId) : Effect σ next := by
  unfold advanceCpu at taken
  cases current : σ.pc cpu with
  | idle => simp [current] at taken
  | recoverCheck op =>
      simp only [current, if_neg (foreign op current)] at taken
      exact Option.some.inj taken ▸ .outside (by rw [current]; rfl) rfl
  | spin op =>
      simp only [current] at taken
      split at taken
      · exact Option.some.inj taken ▸ .outside (by rw [current]; rfl) rfl
      · exact Option.some.inj taken ▸ .start
  | acquire op =>
      simp only [current] at taken
      split at taken
      · rename_i free
        exact Option.some.inj taken ▸ .enter free (lockVal_ne_unlocked procId)
      · exact Option.some.inj taken ▸ .outside (by rw [current]; rfl) rfl
  | loadWrite op =>
      simp only [current] at taken
      exact Option.some.inj taken ▸
        inv.load (by rw [current]; rfl) rfl rfl (by rw [current]; exact ⟨rfl, rfl⟩) ⟨rfl, rfl⟩
  | loadRead op w =>
      simp only [current] at taken
      have located := inv.located cpu (by rw [current]; rfl)
      rw [current] at located
      obtain rfl : w = σ.write := located
      obtain ⟨holds, nextLocated, fresh⟩ := afterLoad_spec σ op
      exact Option.some.inj taken ▸
        inv.load (by rw [current]; rfl) holds nextLocated (by rw [current]; exact ⟨rfl, rfl⟩) fresh
  | storeData offset w nextW =>
      simp only [current] at taken
      exact Option.some.inj taken ▸ inv.storeData current
  | storeWrite offset nextW =>
      simp only [current] at taken
      exact Option.some.inj taken ▸ inv.storeWrite current
  | loadData r =>
      simp only [current] at taken
      have located := inv.located cpu (by rw [current]; rfl)
      rw [current] at located
      exact Option.some.inj taken ▸ inv.load (by rw [current]; rfl) rfl
        ⟨located.1, located.2, rfl⟩ (by rw [current]; exact ⟨rfl, rfl⟩) ⟨rfl, rfl⟩
  | storeRead offset r =>
      simp only [current] at taken
      exact Option.some.inj taken ▸ inv.storeRead current
  | unlockStored offset =>
      simp only [current] at taken
      have effect := leave_effect σ.calls current rfl
      simp only [Pc.added, Pc.removed, List.append_nil] at effect
      exact Option.some.inj taken ▸ effect
  | unlockFull offset =>
      simp only [current] at taken
      have effect := leave_effect (Function.update σ.calls cpu.machineId
        (offset :: σ.calls cpu.machineId)) current rfl
      simp only [Pc.added, Pc.removed, List.append_nil] at effect
      exact Option.some.inj taken ▸ effect
  | unlockTaken offset =>
      simp only [current] at taken
      have effect := leave_effect σ.calls current rfl
      simp only [Pc.added, Pc.removed, List.append_nil] at effect
      exact Option.some.inj taken ▸ effect
  | unlockEmpty =>
      simp only [current] at taken
      have effect := leave_effect σ.calls current rfl
      simp only [Pc.added, Pc.removed, List.append_nil] at effect
      exact Option.some.inj taken ▸ effect

theorem Invariant.step_effect {σ next : State topology} (inv : Invariant σ)
    {action : Action topology} (taken : step peer σ action = some next)
    (allowed : foreignFree peer σ action next = true) : Effect σ next := by
  cases action with
  | wake machine offset =>
      simp only [step] at taken
      split at taken
      · exact absurd taken (by simp)
      · exact Option.some.inj taken ▸ .start
  | attempt cpu offset =>
      simp only [step] at taken
      split at taken
      · rename_i ready
        exact Option.some.inj taken ▸ .outside (by rw [ready.1]; rfl) rfl
      · exact absurd taken (by simp)
  | interrupt cpu =>
      simp only [step] at taken
      split at taken
      · rename_i ready
        exact Option.some.inj taken ▸ .outside (by rw [ready.2]; rfl) rfl
      · exact absurd taken (by simp)
  | advance cpu =>
      simp only [step] at taken
      cases issued : identity peer cpu with
      | none => simp [issued] at taken
      | some procId =>
          simp only [issued] at taken
          apply inv.advanceCpu_effect taken
          intro op current
          simpa [foreignFree, current, issued] using allowed

/-! ## Preservation -/

private theorem holds_setPc {σ : State topology} {cpu other : Cpu topology} {pc : Pc}
    (inside : ((σ.setPc cpu pc).pc other).holds = true) :
    other = cpu ∧ pc.holds = true ∨ other ≠ cpu ∧ (σ.pc other).holds = true := by
  by_cases same : other = cpu
  · subst same
    exact .inl ⟨rfl, by simpa [State.setPc] using inside⟩
  · exact .inr ⟨same, by simpa [State.setPc, same] using inside⟩

/-- Outside the lock a move changes nobody's view. -/
theorem Invariant.outside {σ : State topology} (inv : Invariant σ) {cpu : Cpu topology} {pc : Pc}
    {calls : Nat → List (BitVec 64)} (before : (σ.pc cpu).holds = false)
    (after : pc.holds = false) : Invariant { σ.setPc cpu pc with calls := calls } := by
  have unchanged : ∀ other, ((σ.setPc cpu pc).pc other).holds = true →
      (σ.pc other).holds = true ∧ (σ.setPc cpu pc).pc other = σ.pc other := by
    intro other inside
    rcases holds_setPc inside with ⟨_, holds⟩ | ⟨different, holds⟩
    · simp [after] at holds
    · exact ⟨holds, by simp [State.setPc, different]⟩
  refine ⟨inv.readBound, inv.writeBound, ?_, ?_, ?_, ?_, ?_⟩
  · intro other inside
    exact inv.locked other (unchanged other inside).1
  · intro first second firstIn secondIn
    exact inv.exclusive first second (unchanged first firstIn).1 (unchanged second secondIn).1
  · intro other inside
    obtain ⟨holds, same⟩ := unchanged other inside
    have located := inv.located other holds
    rw [← same] at located
    exact located
  · intro other inside
    obtain ⟨holds, same⟩ := unchanged other inside
    have balanced := inv.balanced other holds
    rw [← same] at balanced
    exact balanced
  · intro nobody
    apply inv.quiet
    intro other
    by_cases same : other = cpu
    · subst same
      exact before
    · simpa [State.setPc, same] using nobody other

/-- A step of one CPU that holds the lock afterwards and alone. -/
private theorem Invariant.of_holder {next : State topology} {cpu : Cpu topology}
    (readBound : next.read < cqueueSize) (writeBound : next.write < cqueueSize)
    (locked : next.csst ≠ unlocked) (inside : (next.pc cpu).holds = true)
    (alone : ∀ other, (next.pc other).holds = true → other = cpu)
    (located : Located next (next.pc cpu)) (balanced : Balanced next (next.pc cpu)) :
    Invariant next where
  readBound := readBound
  writeBound := writeBound
  locked _ _ := locked
  exclusive first second firstIn secondIn :=
    (alone first firstIn).trans (alone second secondIn).symm
  located other otherIn := by rw [alone other otherIn]; exact located
  balanced other otherIn := by rw [alone other otherIn]; exact balanced
  quiet nobody := by simp [nobody cpu] at inside

theorem Invariant.effect {σ next : State topology} (inv : Invariant σ) (change : Effect σ next) :
    Invariant next := by
  cases change with
  | outside before after => exact inv.outside before after
  | start =>
      exact ⟨inv.readBound, inv.writeBound, inv.locked, inv.exclusive, inv.located, inv.balanced,
        inv.quiet⟩
  | @enter cpu op word free taken =>
      have nobody := inv.nobody_of_unlocked free
      have logs : Balanced σ (.loadWrite op) := by
        simpa [Balanced, Pc.added, Pc.removed] using inv.quiet nobody
      have here : (σ.setPc cpu (.loadWrite op)).pc cpu = .loadWrite op := by simp [State.setPc]
      refine Invariant.of_holder inv.readBound inv.writeBound taken (by rw [here]; rfl) ?_
        (by rw [here]; trivial) ?_
      · intro other inside
        rcases holds_setPc inside with ⟨same, _⟩ | ⟨_, holds⟩
        · exact same
        · simp [nobody other] at holds
      · rw [here]
        exact logs
  | @inside cpu pc data read write before after readBound writeBound located balanced =>
      have here : (σ.setPc cpu pc).pc cpu = pc := by simp [State.setPc]
      refine Invariant.of_holder readBound writeBound (inv.locked cpu before)
        (by rw [here]; exact after) ?_ (by rw [here]; exact located) (by rw [here]; exact balanced)
      intro other inside
      rcases holds_setPc inside with ⟨same, _⟩ | ⟨_, holds⟩
      · exact same
      · exact inv.exclusive other cpu holds before
  | @leave cpu calls before =>
      have nobody : ∀ other, ((σ.setPc cpu .idle).pc other).holds = false := by
        intro other
        cases inside : ((σ.setPc cpu .idle).pc other).holds with
        | false => rfl
        | true =>
            rcases holds_setPc inside with ⟨_, holds⟩ | ⟨different, holds⟩
            · simp [Pc.holds] at holds
            · exact absurd (inv.exclusive other cpu holds before) different
      have balanced := inv.balanced cpu before
      refine ⟨inv.readBound, inv.writeBound, ?_, ?_, ?_, ?_, fun _ => balanced⟩
      · intro other inside
        simp [nobody other] at inside
      · intro first second inside
        simp [nobody first] at inside
      · intro other inside
        simp [nobody other] at inside
      · intro other inside
        simp [nobody other] at inside

theorem invariant_of_reachable {σ : State topology}
    (reached : (queueOf topology peer).Reachable
      (fun σ action next => foreignFree peer σ action next = true) σ) : Invariant σ := by
  refine reached.invariant ?_ ?_
  · refine ⟨by simp [queueOf, cqueueSize], by simp [queueOf, cqueueSize], ?_, ?_, ?_, ?_, ?_⟩
    · intro cpu inside
      simp [queueOf, Pc.holds] at inside
    · intro first second inside
      simp [queueOf, Pc.holds] at inside
    · intro cpu inside
      simp [queueOf, Pc.holds] at inside
    · intro cpu inside
      simp [queueOf, Pc.holds] at inside
    · intro _
      simp [queueOf, State.contents, State.ring, CircularQueue.contents, cqueueSize]
  · intro state action next inv transition allowed
    exact inv.effect (inv.step_effect transition allowed)

/-! ## The calls take effect in one step -/

/-- The call that takes effect in the next step of a CPU, with its outcome: an enqueue when it
stores `write`, a dequeue when it stores `read`, and either where it finds that it cannot. -/
def State.commits (σ : State topology) (cpu : Cpu topology) : Option (Op × Outcome) :=
  match σ.pc cpu with
  | .loadRead op w =>
      match afterLoad op w σ.read with
      | .unlockFull _ | .unlockEmpty => some (op, .failed)
      | _ => none
  | .storeWrite offset _ => some (.enqueue offset, .stored)
  | .storeRead offset _ => some (.dequeue, .taken offset)
  | _ => none

def Action.commits (σ : State topology) : Action topology → Option (Op × Outcome)
  | .advance cpu => σ.commits cpu
  | _ => none

/-- A step of the code is the call that takes effect in it, or none. -/
def Refines (σ next : State topology) : Option (Op × Outcome) → Prop
  | none => next.contents = σ.contents
  | some (op, outcome) => op.apply σ.contents = (outcome, next.contents)

section Refinement

variable {σ next : State topology} {cpu : Cpu topology}

/-- Behind the loads of the positions the call is decided, if it fails. -/
theorem Invariant.refines_load (inv : Invariant σ) {op : Op} {w : Nat}
    (current : σ.pc cpu = .loadRead op w) :
    Refines σ (σ.setPc cpu (afterLoad op w σ.read)) (σ.commits cpu) := by
  have located := inv.located cpu (by rw [current]; rfl)
  rw [current] at located
  obtain rfl : w = σ.write := located
  rw [State.commits, current]
  cases op with
  | enqueue offset =>
      by_cases full : (σ.write + 1) % cqueueSize = σ.read
      · simp only [afterLoad, full, if_true]
        exact inv.represents.apply_full full offset
      · simp only [afterLoad, full, if_false]
        rfl
  | dequeue =>
      by_cases empty : σ.write = σ.read
      · simp only [afterLoad, empty, if_true]
        exact inv.represents.apply_empty empty
      · simp only [afterLoad, empty, if_false]
        rfl

theorem Invariant.refines_advance (inv : Invariant σ) {procId : BitVec 16}
    (taken : advanceCpu σ cpu procId = some next) : Refines σ next (σ.commits cpu) := by
  unfold advanceCpu at taken
  cases current : σ.pc cpu with
  | idle => simp [current] at taken
  | recoverCheck op | spin op | acquire op =>
      simp only [current] at taken
      rw [State.commits, current]
      split at taken <;> exact Option.some.inj taken ▸ rfl
  | loadWrite op | loadData r | unlockStored offset | unlockFull offset | unlockTaken offset
  | unlockEmpty =>
      simp only [current] at taken
      rw [State.commits, current]
      exact Option.some.inj taken ▸ rfl
  | loadRead op w =>
      simp only [current] at taken
      exact Option.some.inj taken ▸ inv.refines_load current
  | storeData offset w nextW =>
      simp only [current] at taken
      have located := inv.located cpu (by rw [current]; rfl)
      rw [current] at located
      obtain ⟨rfl, _, _⟩ := located
      rw [State.commits, current]
      exact Option.some.inj taken ▸ (inv.represents.store offset).contents_eq
  | storeWrite offset nextW =>
      simp only [current] at taken
      have located := inv.located cpu (by rw [current]; rfl)
      rw [current] at located
      obtain ⟨rfl, room, rfl⟩ := located
      obtain ⟨applied, pushed⟩ := inv.represents.push room
      rw [State.commits, current]
      exact Option.some.inj taken ▸ applied.trans (congrArg _ pushed.contents_eq.symm)
  | storeRead offset r =>
      simp only [current] at taken
      have located := inv.located cpu (by rw [current]; rfl)
      rw [current] at located
      obtain ⟨rfl, some, rfl⟩ := located
      obtain ⟨rest, oldest, popped⟩ := inv.represents.pop some
      rw [State.commits, current]
      refine Option.some.inj taken ▸ ?_
      change Op.dequeue.apply σ.contents = _
      rw [oldest]
      exact congrArg _ popped.contents_eq.symm

theorem Invariant.refines_step (inv : Invariant σ) {action : Action topology}
    (taken : step peer σ action = some next) : Refines σ next (action.commits σ) := by
  cases action with
  | wake machine offset =>
      simp only [step] at taken
      split at taken
      · exact absurd taken (by simp)
      · exact Option.some.inj taken ▸ rfl
  | attempt cpu offset | interrupt cpu =>
      simp only [step] at taken
      split at taken
      · exact Option.some.inj taken ▸ rfl
      · exact absurd taken (by simp)
  | advance cpu =>
      simp only [step] at taken
      split at taken
      · exact absurd taken (by simp)
      · exact inv.refines_advance taken

/-- The calls that take effect along a run, with their outcomes. -/
def trace (peer : Nat) : State topology → List (Action topology) → List (Op × Outcome)
  | _, [] => []
  | σ, action :: rest =>
      (action.commits σ).toList ++ (step peer σ action).elim [] fun next => trace peer next rest

/-- The calls of a run are a run of the bounded queue, which ends with what the ring holds. -/
theorem Invariant.trace_runs (inv : Invariant σ) {actions : List (Action topology)}
    (meets : (queueOf topology peer).runMeets (foreignFree peer) σ actions = true) :
    ∃ last, (queueOf topology peer).runFrom σ actions = some last ∧
      boundedQueue.runFrom σ.contents (trace peer σ actions) = some last.contents := by
  induction actions generalizing σ with
  | nil => exact ⟨σ, rfl, rfl⟩
  | cons action rest inductionHypothesis =>
      cases taken : step peer σ action with
      | none => simp [Machine.runMeets, queueOf, taken] at meets
      | some next =>
          simp only [Machine.runMeets, queueOf, taken, Bool.and_eq_true] at meets
          have refines := inv.refines_step taken
          obtain ⟨last, executed, calls⟩ :=
            inductionHypothesis (inv.effect (inv.step_effect taken meets.1)) meets.2
          refine ⟨last, by simpa only [Machine.runFrom, queueOf, taken] using executed, ?_⟩
          rw [trace, taken, Option.elim_some]
          cases commits : action.commits σ with
          | none =>
              rw [commits] at refines
              rw [Option.toList_none, List.nil_append, ← show next.contents = _ from refines]
              exact calls
          | some call =>
              rw [commits] at refines
              rw [Option.toList_some, List.singleton_append, Machine.runFrom,
                boundedQueue_step refines]
              exact calls

/-- From the empty queue, as long as no call meets its own identity. -/
theorem wake_queue_refines {actions : List (Action topology)}
    (meets : (queueOf topology peer).runMeets (foreignFree peer)
      (queueOf topology peer).initial actions = true) :
    boundedQueue.runFrom [] (trace peer (queueOf topology peer).initial actions) =
      some ((queueOf topology peer).final actions).contents := by
  have inv := @invariant_of_reachable topology peer _ .initial
  have empty : (queueOf topology peer).initial.contents = [] :=
    Ring.contents_empty inv.readBound
  obtain ⟨last, executed, calls⟩ := inv.trace_runs meets
  rw [Machine.final, executed, Option.getD_some]
  rwa [empty] at calls

end Refinement

/-! ## Delivery -/

/-- Only the entry the holder is about to count can be missing from the log. -/
theorem Invariant.dequeued_isInitial {σ : State topology} (inv : Invariant σ) :
    σ.dequeued <+: σ.enqueued := by
  by_cases held : ∃ cpu, (σ.pc cpu).holds = true
  · obtain ⟨cpu, inside⟩ := held
    have balanced : σ.enqueued ++ (σ.pc cpu).added =
      σ.dequeued ++ (σ.pc cpu).removed ++ σ.contents := inv.balanced cpu inside
    have initial : σ.dequeued <+: σ.enqueued ++ (σ.pc cpu).added :=
      ⟨(σ.pc cpu).removed ++ σ.contents, by rw [balanced, List.append_assoc]⟩
    refine List.prefix_of_prefix_length_le initial (List.prefix_append _ _) ?_
    have lengths := congrArg List.length balanced
    simp only [List.length_append] at lengths
    cases current : σ.pc cpu with
    | unlockStored offset =>
        have nonempty := inv.located cpu inside
        rw [current] at nonempty
        have oldest : σ.contents = _ := Ring.contents_pop inv.readBound inv.writeBound nonempty
        rw [current, oldest] at lengths
        simp [Pc.added, Pc.removed] at lengths
        omega
    | _ =>
        rw [current] at lengths
        simp only [Pc.added, List.length_nil] at lengths
        omega
  · have logs := inv.quiet fun cpu => by simpa using fun inside => held ⟨cpu, inside⟩
    exact ⟨σ.contents, logs.symm⟩

/-- While no call meets its own identity in the lock word, the offsets `peer`
dequeues are those whose enqueue returned 0, each once and in that order. -/
theorem delivered_in_order_of_foreign_free {σ : State topology}
    (reached : (queueOf topology peer).Reachable
      (fun σ action next => foreignFree peer σ action next = true) σ) : DeliveredInOrder σ where
  ordered := (invariant_of_reachable reached).dequeued_isInitial
  complete := (invariant_of_reachable reached).quiet
  drained nobody empty := by
    have inv := invariant_of_reachable reached
    have logs := inv.quiet nobody
    have none : σ.contents = [] :=
      (Ring.contents_eq_nil_iff inv.readBound inv.writeBound).mpr empty.symm
    rw [none, List.append_nil] at logs
    exact logs.symm

/-! ## Three machines with one CPU each -/

def receiver : Cpu uniprocessors := firstCpu
def firstSender : Cpu uniprocessors := secondCpu
def secondSender : Cpu uniprocessors := thirdCpu

/-- The steps of a call that finds the lock free, after its `ttas_recover` load. -/
def onlyCaller (cpu : Cpu uniprocessors) : List (Action uniprocessors) :=
  List.replicate 8 (.advance cpu)

/-- Both senders deliver an offset, the receiver takes one, the first sender delivers another and
the receiver takes the next. -/
def wakesInTurn : List (Action uniprocessors) :=
  [.wake 2 0x1000, .attempt firstSender 0x1000] ++ onlyCaller firstSender ++
    [.wake 3 0x2000, .attempt secondSender 0x2000] ++ onlyCaller secondSender ++
    [.interrupt receiver] ++ onlyCaller receiver ++
    [.wake 2 0x3000, .attempt firstSender 0x3000] ++ onlyCaller firstSender ++
    [.interrupt receiver] ++ onlyCaller receiver

/-- Both senders ask whether they hold the lock after the first one does, load
the same positions and store into the same cell. -/
def twoWakes : List (Action uniprocessors) :=
  [.wake 2 0x1000, .attempt firstSender 0x1000, .advance firstSender, .advance firstSender,
    .advance firstSender, .wake 3 0x2000, .attempt secondSender 0x2000, .advance secondSender,
    .advance firstSender, .advance secondSender, .advance firstSender, .advance secondSender,
    .advance firstSender, .advance secondSender, .advance firstSender, .advance secondSender,
    .advance firstSender, .advance secondSender, .interrupt receiver] ++ onlyCaller receiver

def firstQueue : Machine (State uniprocessors) (Action uniprocessors) := queueOf uniprocessors 1

theorem delivered_in_order_of_foreign_free_inTurn :
    (firstQueue.final wakesInTurn).enqueued = [0x1000, 0x2000, 0x3000] ∧
      (firstQueue.final wakesInTurn).dequeued = [0x1000, 0x2000] ∧
      DeliveredInOrder (firstQueue.final wakesInTurn) :=
  ⟨by decide +kernel, by decide +kernel, delivered_in_order_of_foreign_free
    (Machine.reachable_final (foreignFree 1) (fun _ _ _ => id) wakesInTurn (by decide +kernel))⟩

/-- Without that condition an entry is overwritten: both enqueues return 0, the
receiver gets the second offset first, and the first one is gone. -/
theorem same_cpu_number_loses_wake :
    ¬ ∀ (topology : Topology) (peer : Nat) (σ : State topology),
      (queueOf topology peer).Reachable (fun _ _ _ => True) σ → DeliveredInOrder σ := by
  intro claimed
  have delivered := claimed uniprocessors 1 (firstQueue.final twoWakes)
    (Machine.reachable_final (fun _ _ _ => true) (fun _ _ _ _ => trivial) twoWakes (by decide))
  have enqueued : (firstQueue.final twoWakes).enqueued = [0x1000, 0x2000] := by decide
  have dequeued : (firstQueue.final twoWakes).dequeued = [0x2000] := by decide
  have ordered := delivered.ordered
  rw [enqueued, dequeued] at ordered
  exact absurd ordered (by decide)

end Lupin.Queue.Wake
