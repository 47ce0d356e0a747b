import Lupin.Lib.Transition
import Lupin.Lock.MinArrayOps
import Lupin.Lock.Word

/-!
# The min-array abortable lock

A process that wants the lock writes a token and its id into its leaf of a tree of minima
and refreshes the nodes above twice each. Whoever finds the lock free gives it to the
process at the root. Every load, store and compare and swap on the shared words is one
step; the build is the one without `ORIG_JJ_LOCK`, with `BYTE_GRANULAR`.
-/

namespace Lupin.Lock.MinArray

open Lupin.Transition

def csstSMax : Word := csstSMask

/-! ## Steps -/

/-- The entry points for a process that wants the lock. -/
inductive Call where
  | lock
  | trylock
  | enter
deriving DecidableEq

/-- Who updates the array, promotes and tests the status behind that: `tryenter`, `abort` as
called by `recover` and by `enter`, and `exit`. -/
inductive Context where
  | register (call : Call)
  | recover (call : Call)
  | abort
  | exit
deriving DecidableEq

/-- The next atomic step of a process. -/
inductive Pc where
  | idle
  /-- `recover`: the load of `cs_status`. -/
  | recoverRead (call : Call)
  /-- `tryenter`: the first load of `cs_status`, and the accesses to `token`. -/
  | tryRead (call : Call)
  | tokenRead (call : Call)
  | tokenCas (call : Call) (token : Word)
  /-- The steps of `min_arr_update`. -/
  | update (context : Context) (rest : Update)
  /-- `promote`: the loads of `cs_status` and of the root, and the compare and swap. -/
  | promoteRead (context : Context)
  | promoteMin (context : Context) (s : Word)
  | promoteCas (context : Context) (s : Word) (peer : Word)
  /-- The load of `cs_status` behind `promote`. -/
  | check (context : Context)
  /-- `enter`: the load in the loop and the one after it. -/
  | spinRead (call : Call)
  | finalRead (call : Call)
  | critical
  /-- `exit`: the accesses to `seq` and `cs_status`. -/
  | exitSeqRead
  | exitSeqStore (s : Word)
  | exitCs (s : Word)
deriving DecidableEq

/-- The lock with its array, and its processes. -/
structure State (shift : Nat) extends Nodes where
  csStatus : Word
  token : Word
  seq : Word
  pc : Fin (2 ^ shift) → Pc

inductive Action (shift : Nat) where
  /-- Call `jj_spin_lock`, `jj_spin_trylock` or `jj_spinlock_enter`. -/
  | call (process : Fin (2 ^ shift)) (call : Call)
  /-- Call `jj_spinlock_exit`. -/
  | exit (process : Fin (2 ^ shift))
  /-- One atomic step; `abortSignal` is the answer of the callback where it is asked. -/
  | advance (process : Fin (2 ^ shift)) (abortSignal : Bool)

variable {shift : Nat}

/-- The test `cs_status.b && cs_status.s == process_id`. -/
def ownedBy (csStatus : Word) (p : Fin (2 ^ shift)) : Bool :=
  (decomposeCsStatus csStatus).b != 0 &&
    (decomposeCsStatus csStatus).s == (processId p).setWidth 64

def State.setPc (σ : State shift) (p : Fin (2 ^ shift)) (pc : Pc) : State shift :=
  { σ with pc := Function.update σ.pc p pc }

/-- The argument `flag` of `promote`. -/
def Context.flag : Context → Bool
  | .recover _ | .abort => true
  | .register _ | .exit => false

/-- Behind `min_arr_update`. -/
def Context.afterUpdate : Context → Pc
  | .exit => .exitSeqRead
  | context => .promoteRead context

/-- Behind `promote`. -/
def Context.afterPromote : Context → Pc
  | .exit => .idle
  | context => .check context

/-- What is left of `min_arr_update`, or what is behind it. -/
def Context.proceed (context : Context) : Option Update → Pc
  | some rest => .update context rest
  | none => context.afterUpdate

/-- Behind the load of `cs_status` that follows `promote`. -/
def afterCheck (context : Context) (owned : Bool) : Pc :=
  match context with
  | .register .trylock => if owned then .critical else .idle
  | .register call => if owned then .finalRead call else .spinRead call
  | .recover call => .tryRead call
  | .abort => if owned then .critical else .idle
  | .exit => .idle

/-- One atomic step of `min_arr_update`. -/
def advanceUpdate (σ : State shift) (p : Fin (2 ^ shift)) (context : Context) (rest : Update) :
    State shift :=
  let after := σ.toNodes.advance (leaf p) rest
  { σ.setPc p (context.proceed after.2) with toNodes := after.1 }

/-- One atomic step of the lock's code. -/
def advanceProcess (σ : State shift) (p : Fin (2 ^ shift)) (abortSignal : Bool) :
    Option (State shift) :=
  let owned := ownedBy σ.csStatus p
  match σ.pc p with
  | .idle | .critical => none
  | .recoverRead call =>
      some (σ.setPc p
        (if owned then .update (.recover call) (.setLeaf (defaultProcessState (processId p)))
        else .tryRead call))
  | .tryRead call =>
      some (σ.setPc p
        (if owned then (if call = .trylock then .critical else .finalRead call)
        else .tokenRead call))
  | .tokenRead call => some (σ.setPc p (.tokenCas call σ.token))
  | .tokenCas call token =>
      some { σ.setPc p
          (.update (.register call) (.setLeaf (composeProcessState token (processId p)))) with
        token := if σ.token = token then token + 1 else σ.token }
  | .update context rest => some (advanceUpdate σ p context rest)
  | .promoteRead context =>
      let status := decomposeCsStatus σ.csStatus
      some (σ.setPc p
        (if status.b ≠ 0 then context.afterPromote else .promoteMin context status.s))
  | .promoteMin context s =>
      let m := σ.nodes 1
      some (σ.setPc p
        (if getCounter m = counterInf then
          (if context.flag then .promoteCas context s ((processId p).setWidth 64)
          else context.afterPromote)
        else .promoteCas context s ((getProcessId m).setWidth 64)))
  | .promoteCas context s peer =>
      some { σ.setPc p context.afterPromote with
        csStatus := if σ.csStatus = composeCsStatus false s then composeCsStatus true peer
          else σ.csStatus }
  | .check context => some (σ.setPc p (afterCheck context owned))
  | .spinRead call =>
      -- `jj_spin_lock` passes a callback that never aborts
      some (σ.setPc p (if owned || (abortSignal && call = .enter) then .finalRead call
        else .spinRead call))
  | .finalRead _ =>
      some (σ.setPc p
        (if owned then .critical
        else .update .abort (.setLeaf (defaultProcessState (processId p)))))
  | .exitSeqRead => some (σ.setPc p (.exitSeqStore σ.seq))
  | .exitSeqStore s => some { σ.setPc p (.exitCs s) with seq := s + 1 }
  | .exitCs s =>
      some { σ.setPc p (.promoteRead .exit) with csStatus := composeCsStatus false (s + 1) }

def step (σ : State shift) : Action shift → Option (State shift)
  | .call p call =>
      if σ.pc p = .idle then
        some (σ.setPc p (if call = .enter then .tryRead call else .recoverRead call))
      else none
  | .exit p =>
      if σ.pc p = .critical then
        some (σ.setPc p (.update .exit (.setLeaf (defaultProcessState (processId p)))))
      else none
  | .advance p abortSignal => advanceProcess σ p abortSignal

/-- The lock after `jj_spinlock_init` on memory with these contents. -/
def lock (shift : Nat) (prior : Nat → Word) : Machine (State shift) (Action shift) where
  initial :=
    { csStatus := composeCsStatus false 1
      token := 1
      seq := 1
      nodes := initMinArray shift prior
      version := fun _ => 0
      pc := fun _ => .idle }
  step := step

/-! ## The property -/

/-- Inside one of the calls, in the critical section, or in `exit` before its store to
`cs_status`. -/
def Pc.asks : Pc → Bool
  | .idle | .promoteRead .exit | .promoteMin .exit _ | .promoteCas .exit _ _ => false
  | _ => true

/-- No try fails, no swap of `refresh` succeeds on a node that was written since it was loaded,
and `seq` stays in range. -/
def undisturbed (σ : State shift) : Action shift → Bool
  | .advance p _ =>
      match σ.pc p with
      | .check (.register .trylock) => ownedBy σ.csStatus p
      | .update _ rest => σ.toNodes.unwritten rest
      | .exitSeqStore s => s < csstSMax
      | _ => true
  | _ => true

end Lupin.Lock.MinArray
