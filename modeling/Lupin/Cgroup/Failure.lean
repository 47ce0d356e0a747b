import Mathlib.Data.List.FinRange
import Mathlib.Logic.Function.Basic
import Lupin.Cgroup.Osii
import Lupin.Lib.Transition

/-!
# OS failure detection

Every machine keeps a heartbeat in the shared memory and watches those of the others. A
machine that misses two passes is reported once, with the generation the observer holds
in a private snapshot of the shared table.
-/

namespace Lupin.Cgroup.Failure

open Lupin.Transition

/-! ## State -/

/-- Where a machine is: not running, in `recover_cxlcg_meta`, between two passes, or at an
access of `do_os_failure_detection` to the shared entries of machine `i`. -/
inductive Stage (n : Nat) where
  | down
  | recovering
  | copying (i : Fin n)
  | idle
  | check (i : Fin n)
  | changed (i : Fin n)
  | expired (i : Fin n)
  | report (i : Fin n)
  | refresh (i : Fin n)
deriving DecidableEq

/-- The private variables of a machine. `myOsii` outlives a crash: it is that of the current
or last instance, `none` before the first. -/
structure Node (n : Nat) where
  stage : Stage n
  myOsii : Option Word
  osLive : Fin n → Bool
  osHeartbeats : Fin n → BitVec 32
  osGenIdsSnapshot : Fin n → BitVec 32
  timeoutTimes : Fin n → Nat
  msg : Word

/-- A message that was sent, with the instance of the reported machine if it had crashed. -/
structure Notice (n : Nat) where
  observer : Fin n
  reported : Fin n
  msg : Word
  crashed : Option Word

structure State (n : Nat) where
  osGenerationIds : Fin n → BitVec 32
  osHeartbeats : Fin n → BitVec 32
  nodes : Fin n → Node n
  sent : List (Notice n)

variable {n : Nat}

/-- A machine that is switched off, its static variables as they are loaded. -/
def Node.off (myOsii : Option Word) : Node n :=
  ⟨.down, myOsii, fun _ => false, fun _ => 0, fun _ => 0, fun _ => 0, 0⟩

/-- The last instance of the machine, if it has crashed and no other has taken a generation. -/
def Node.crashed (node : Node n) : Option Word :=
  match node.stage with
  | .down | .recovering => node.myOsii
  | _ => none

/-! ## Steps -/

def msgTypeOsFailure : Word := 0

/-- The message about machine `i`, built in the word `msg` of the pass. -/
def failureMsg (msg : Word) (i : Fin n) (gen : BitVec 32) : Word :=
  setMsgType (setGenId (setOsId msg (BitVec.ofNat 64 (i + 1))) (gen.signExtend 64))
    msgTypeOsFailure

/-- The next machine of the loop, or the end of the pass. -/
def Stage.advance (i : Fin n) : Stage n :=
  if inside : i + 1 < n then .check ⟨i + 1, inside⟩ else .idle

/-- The comparison of the heartbeats of machine `i` in a pass. -/
def Node.check (node : Node n) (i : Fin n) (heartbeat : BitVec 32) : Node n :=
  if node.osHeartbeats i ≠ heartbeat then { node with stage := .changed i }
  else
    let times := node.timeoutTimes i + 1
    { node with
      timeoutTimes := Function.update node.timeoutTimes i times
      stage :=
        if times ≥ 2 then (if node.osLive i then .expired i else .refresh i) else .advance i }

/-- The branch for a changed heartbeat. -/
def Node.markLive (node : Node n) (i : Fin n) (heartbeat : BitVec 32) : Node n :=
  { node with
    osHeartbeats := Function.update node.osHeartbeats i heartbeat
    osLive := Function.update node.osLive i true
    timeoutTimes := Function.update node.timeoutTimes i 0
    stage := .advance i }

/-- The end of the branch for two timeouts. -/
def Node.refresh (node : Node n) (i : Fin n) (gen : BitVec 32) : Node n :=
  { node with
    osGenIdsSnapshot := Function.update node.osGenIdsSnapshot i gen
    osLive := Function.update node.osLive i false
    timeoutTimes := Function.update node.timeoutTimes i 0
    stage := .advance i }

/-- The `memcpy` of the table in `recover_cxlcg_meta`, and the loop behind it. -/
def Node.copy (node : Node n) (i : Fin n) (gen : BitVec 32) : Node n :=
  let copied := { node with
    osGenIdsSnapshot := Function.update node.osGenIdsSnapshot i gen }
  if inside : i + 1 < n then { copied with stage := .copying ⟨i + 1, inside⟩ }
  else { copied with osLive := fun _ => true, stage := .idle }

/-- `increment_gen_id` and the `atomic_fetch_add` of an observer. -/
def State.bump (s : State n) (i : Fin n) : State n :=
  { s with osGenerationIds := Function.update s.osGenerationIds i (s.osGenerationIds i + 1) }

def State.setNode (s : State n) (o : Fin n) (node : Node n) : State n :=
  { s with nodes := Function.update s.nodes o node }

/-- The next access of a running machine to the shared memory. -/
def State.access (s : State n) (o : Fin n) : Option (State n) :=
  let node := s.nodes o
  match node.stage with
  | .down => none
  | .recovering => some <| s.setNode o
      { node with
        myOsii := some (osiiOf (o + 1) (s.osGenerationIds o))
        stage := .copying ⟨0, o.pos⟩ }
  | .copying i => some <| s.setNode o (node.copy i (s.osGenerationIds i))
  | .idle =>
      -- a pass starts with the machine's own heartbeat
      some { s.setNode o { node with stage := .check ⟨0, o.pos⟩, msg := 0 } with
        osHeartbeats := Function.update s.osHeartbeats o (s.osHeartbeats o + 1) }
  | .check i => some <| s.setNode o (node.check i (s.osHeartbeats i))
  | .changed i => some <| s.setNode o (node.markLive i (s.osHeartbeats i))
  | .expired i => some <| (s.bump i).setNode o { node with stage := .report i }
  | .report i =>
      let msg := failureMsg node.msg i (node.osGenIdsSnapshot i)
      some { s.setNode o { node with stage := .refresh i, msg := msg } with
        sent := s.sent ++ [⟨o, i, msg, (s.nodes i).crashed⟩] }
  | .refresh i => some <| s.setNode o (node.refresh i (s.osGenerationIds i))

inductive Action (n : Nat) where
  | init (o : Fin n)
  | recover (o : Fin n)
  | access (o : Fin n)
  | crash (o : Fin n)
  | panic (o : Fin n)
deriving DecidableEq

/-- All machines over one shared memory. `panic` is a crash through `hook_panic`. -/
def failureMachine (n : Nat) : Machine (State n) (Action n) where
  initial := ⟨fun _ => 0, fun _ => 0, fun _ => .off none, []⟩
  step s
    | .init o =>
        if (s.nodes o).stage = .down then
          some { s with
            osGenerationIds := fun _ => 0
            osHeartbeats := fun _ => 0
            nodes := Function.update s.nodes o
              { Node.off (some (osiiOf (o + 1) 0)) with stage := .idle, osLive := fun _ => true } }
        else none
    | .recover o =>
        if (s.nodes o).stage = .down then
          some ((s.bump o).setNode o { Node.off (s.nodes o).myOsii with stage := .recovering })
        else none
    | .access o => s.access o
    | .crash o =>
        if (s.nodes o).stage = .down then none
        else some (s.setNode o (.off (s.nodes o).myOsii))
    | .panic o =>
        if (s.nodes o).stage = .down then none
        else some ((s.bump o).setNode o (.off (s.nodes o).myOsii))

/-! ## When the table was read

The generation of an instance and that in a snapshot are both read from the table. Beside the
machines a history counts the writes to each entry and notes at which of them it was read; no
step looks at it. -/

/-- The writes to the entries, the write that the snapshots were copied behind, by observer and
machine, and the one that the last instance of each machine has its generation from. -/
structure History (n : Nat) where
  writes : Fin n → Nat
  copied : Fin n → Fin n → Nat
  registered : Fin n → Nat

namespace History

def start : History n := ⟨fun _ => 0, fun _ _ => 0, fun _ => 0⟩

def write (h : History n) (i : Fin n) : History n :=
  { h with writes := Function.update h.writes i (h.writes i + 1) }

/-- The snapshots of a machine that is loaded anew are as the table was in the beginning. -/
def reload (h : History n) (o : Fin n) : History n :=
  { h with copied := Function.update h.copied o fun _ => 0 }

def copy (h : History n) (o i : Fin n) : History n :=
  { h with copied := Function.update h.copied o (Function.update (h.copied o) i (h.writes i)) }

def register (h : History n) (o : Fin n) : History n :=
  { h with registered := Function.update h.registered o (h.writes o) }

/-- After an action in a state. -/
def after (h : History n) (s : State n) : Action n → History n
  | .init o =>
      { writes := fun i => h.writes i + 1
        copied := Function.update h.copied o fun i => h.writes i + 1
        registered := Function.update h.registered o (h.writes o + 1) }
  | .recover o => (h.write o).reload o
  | .crash o => h.reload o
  | .panic o => (h.write o).reload o
  | .access o =>
      match (s.nodes o).stage with
      | .recovering => h.register o
      | .copying i | .refresh i => h.copy o i
      | .expired i => h.write i
      | _ => h

end History

/-- The machines with their history. -/
def datedMachine (n : Nat) : Machine (State n × History n) (Action n) where
  initial := ((failureMachine n).initial, .start)
  step d action := ((failureMachine n).step d.1 action).map (·, d.2.after d.1 action)

/-- Whoever reports a machine that is down has copied its entry, and the last instance of the
machine has read its generation there, with no write to the entry between the two. -/
def noWriteBetween (d : State n × History n) : Action n → Bool
  | .access o =>
      match (d.1.nodes o).stage with
      | .report i => (d.1.nodes i).crashed.isNone || d.2.copied o i == d.2.registered i
      | _ => true
  | _ => true

/-- What the table held behind each of the writes so far accounts for what the machines hold. -/
structure Accounts (past : Fin n → Nat → BitVec 32) (s : State n) (h : History n) : Prop where
  first : ∀ i, past i 0 = 0
  table : ∀ i, s.osGenerationIds i = past i (h.writes i)
  snapshots : ∀ o i, h.copied o i ≤ h.writes i ∧
    (s.nodes o).osGenIdsSnapshot i = past i (h.copied o i)
  instances : ∀ i osii, (s.nodes i).myOsii = some osii → h.registered i ≤ h.writes i ∧
    getGenId osii = past i (h.registered i)

theorem getGenId_osiiOf (osId : Nat) (gen : BitVec 32) : getGenId (osiiOf osId gen) = gen :=
  getGenId_setGenId _ _

section Accounts

variable {past : Fin n → Nat → BitVec 32} {s next : State n} {h h' : History n} {o : Fin n}

/-- A write to entry `i`. -/
theorem Accounts.write (accounts : Accounts past s h) (i : Fin n) (gen : BitVec 32)
    (table : next.osGenerationIds = Function.update s.osGenerationIds i gen)
    (nodes : next.nodes = s.nodes) : ∃ past', Accounts past' next (h.write i) := by
  refine ⟨Function.update past i (Function.update (past i) (h.writes i + 1) gen), ?_, ?_, ?_, ?_⟩
  · intro j
    rcases eq_or_ne j i with rfl | other
    · rw [Function.update_self, Function.update_of_ne (Nat.succ_ne_zero _).symm]
      exact accounts.first j
    · rw [Function.update_of_ne other]
      exact accounts.first j
  · intro j
    rw [table]
    rcases eq_or_ne j i with rfl | other
    · simp only [History.write, Function.update_self]
    · simp only [History.write, Function.update_of_ne other]
      exact accounts.table j
  · intro o j
    rw [nodes]
    obtain ⟨early, same⟩ := accounts.snapshots o j
    rcases eq_or_ne j i with rfl | other
    · simp only [History.write, Function.update_self]
      rw [Function.update_of_ne (by omega)]
      exact ⟨by omega, same⟩
    · simp only [History.write, Function.update_of_ne other]
      exact ⟨early, same⟩
  · intro j osii isOsii
    rw [nodes] at isOsii
    obtain ⟨early, same⟩ := accounts.instances j osii isOsii
    rcases eq_or_ne j i with rfl | other
    · simp only [History.write, Function.update_self]
      rw [Function.update_of_ne (by omega)]
      exact ⟨by omega, same⟩
    · simp only [History.write, Function.update_of_ne other]
      exact ⟨early, same⟩

/-- A machine changes, and its part of the history. -/
theorem Accounts.setNode (accounts : Accounts past s h) {node : Node n}
    (table : next.osGenerationIds = s.osGenerationIds)
    (nodes : next.nodes = Function.update s.nodes o node) (writes : h'.writes = h.writes)
    (others : ∀ other ≠ o, h'.copied other = h.copied other ∧
      h'.registered other = h.registered other)
    (snapshot : ∀ i, h'.copied o i ≤ h.writes i ∧
      node.osGenIdsSnapshot i = past i (h'.copied o i))
    (instances : ∀ osii, node.myOsii = some osii → h'.registered o ≤ h.writes o ∧
      getGenId osii = past o (h'.registered o)) : Accounts past next h' := by
  refine ⟨accounts.first, fun i => by rw [table, writes]; exact accounts.table i, ?_, ?_⟩
  · intro other i
    rw [nodes, writes]
    rcases eq_or_ne other o with rfl | differs
    · rw [Function.update_self]
      exact snapshot i
    · rw [Function.update_of_ne differs, (others other differs).1]
      exact accounts.snapshots other i
  · intro other osii isOsii
    rw [nodes] at isOsii
    rw [writes]
    rcases eq_or_ne other o with rfl | differs
    · rw [Function.update_self] at isOsii
      exact instances osii isOsii
    · rw [Function.update_of_ne differs] at isOsii
      rw [(others other differs).2]
      exact accounts.instances other osii isOsii

/-- A machine goes on with its snapshots and its instance as they are. -/
theorem Accounts.proceed (accounts : Accounts past s h) {node : Node n}
    (table : next.osGenerationIds = s.osGenerationIds)
    (nodes : next.nodes = Function.update s.nodes o node)
    (snapshot : node.osGenIdsSnapshot = (s.nodes o).osGenIdsSnapshot)
    (instances : node.myOsii = (s.nodes o).myOsii) : Accounts past next h :=
  accounts.setNode table nodes rfl (fun _ _ => ⟨rfl, rfl⟩)
    (fun i => snapshot ▸ accounts.snapshots o i)
    (fun osii isOsii => accounts.instances o osii (instances ▸ isOsii))

/-- A machine copies entry `i` of the table. -/
theorem Accounts.copy (accounts : Accounts past s h) (i : Fin n) {node : Node n}
    (table : next.osGenerationIds = s.osGenerationIds)
    (nodes : next.nodes = Function.update s.nodes o node)
    (snapshot : node.osGenIdsSnapshot =
      Function.update (s.nodes o).osGenIdsSnapshot i (s.osGenerationIds i))
    (instances : node.myOsii = (s.nodes o).myOsii) : Accounts past next (h.copy o i) := by
  refine accounts.setNode table nodes rfl
    (fun _ differs => ⟨Function.update_of_ne differs _ _, rfl⟩) (fun j => ?_)
    (fun osii isOsii => accounts.instances o osii (instances ▸ isOsii))
  rw [snapshot]
  simp only [History.copy, Function.update_self]
  rcases eq_or_ne j i with rfl | other
  · rw [Function.update_self, Function.update_self]
    exact ⟨le_rfl, accounts.table j⟩
  · rw [Function.update_of_ne other, Function.update_of_ne other]
    exact accounts.snapshots o j

/-- A machine is loaded anew. -/
theorem Accounts.reload (accounts : Accounts past s h) (stage : Stage n)
    (table : next.osGenerationIds = s.osGenerationIds)
    (nodes : next.nodes =
      Function.update s.nodes o { Node.off (s.nodes o).myOsii with stage := stage }) :
    Accounts past next (h.reload o) := by
  refine accounts.setNode table nodes rfl
    (fun _ differs => ⟨Function.update_of_ne differs _ _, rfl⟩) (fun i => ?_)
    (accounts.instances o)
  simp only [History.reload, Function.update_self]
  exact ⟨Nat.zero_le _, (accounts.first i).symm⟩

/-- A machine sets the whole table to zero. -/
theorem Accounts.init (accounts : Accounts past s h)
    (taken : (failureMachine n).step s (.init o) = some next) :
    ∃ past', Accounts past' next (h.after s (.init o)) := by
  simp only [failureMachine, Option.ite_none_right_eq_some] at taken
  obtain ⟨_, same⟩ := taken
  obtain rfl := Option.some.inj same
  refine ⟨fun i v => if v = h.writes i + 1 then 0 else past i v, ?_, ?_, ?_, ?_⟩
  · intro i
    rw [if_neg (Nat.succ_ne_zero _).symm]
    exact accounts.first i
  · intro i
    simp [History.after]
  · intro other i
    rcases eq_or_ne other o with rfl | differs
    · simp [History.after, Node.off]
    · obtain ⟨early, same⟩ := accounts.snapshots other i
      simp only [History.after, Function.update_of_ne differs]
      rw [if_neg (by omega)]
      exact ⟨by omega, same⟩
  · intro other osii isOsii
    rcases eq_or_ne other o with rfl | differs
    · simp only [Function.update_self] at isOsii
      obtain rfl := Option.some.inj isOsii
      simp [History.after, getGenId_osiiOf]
    · simp only [Function.update_of_ne differs] at isOsii
      obtain ⟨early, same⟩ := accounts.instances other osii isOsii
      simp only [History.after, Function.update_of_ne differs]
      rw [if_neg (by omega)]
      exact ⟨by omega, same⟩

theorem Node.check_keeps (node : Node n) (i : Fin n) (heartbeat : BitVec 32) :
    (node.check i heartbeat).osGenIdsSnapshot = node.osGenIdsSnapshot ∧
      (node.check i heartbeat).myOsii = node.myOsii := by
  unfold Node.check
  split <;> exact ⟨rfl, rfl⟩

theorem Node.copy_keeps (node : Node n) (i : Fin n) (gen : BitVec 32) :
    (node.copy i gen).osGenIdsSnapshot = Function.update node.osGenIdsSnapshot i gen ∧
      (node.copy i gen).myOsii = node.myOsii := by
  unfold Node.copy
  dsimp only
  split <;> exact ⟨rfl, rfl⟩

theorem Accounts.access (accounts : Accounts past s h) (taken : s.access o = some next) :
    ∃ past', Accounts past' next (h.after s (.access o)) := by
  unfold State.access at taken
  cases stage : (s.nodes o).stage with
  | down => simp [stage] at taken
  | recovering =>
      simp only [stage] at taken
      obtain rfl := Option.some.inj taken
      simp only [History.after, stage]
      refine ⟨past, accounts.setNode rfl rfl rfl
        (fun _ differs => ⟨rfl, Function.update_of_ne differs _ _⟩) (accounts.snapshots o) ?_⟩
      intro osii isOsii
      obtain rfl := Option.some.inj isOsii
      simp only [History.register, Function.update_self]
      exact ⟨le_rfl, (getGenId_osiiOf _ _).trans (accounts.table o)⟩
  | copying i =>
      simp only [stage] at taken
      obtain rfl := Option.some.inj taken
      obtain ⟨snapshot, instances⟩ := (s.nodes o).copy_keeps i (s.osGenerationIds i)
      simp only [History.after, stage]
      exact ⟨past, accounts.copy i rfl rfl snapshot instances⟩
  | check i =>
      simp only [stage] at taken
      obtain rfl := Option.some.inj taken
      obtain ⟨snapshot, instances⟩ := (s.nodes o).check_keeps i (s.osHeartbeats i)
      simp only [History.after, stage]
      exact ⟨past, accounts.proceed rfl rfl snapshot instances⟩
  | expired i =>
      simp only [stage] at taken
      obtain rfl := Option.some.inj taken
      obtain ⟨past', written⟩ := @Accounts.write _ _ _ (s.bump i) _ accounts i _ rfl rfl
      simp only [History.after, stage]
      exact ⟨past', written.proceed rfl rfl rfl rfl⟩
  | refresh i =>
      simp only [stage] at taken
      obtain rfl := Option.some.inj taken
      simp only [History.after, stage]
      exact ⟨past, accounts.copy i rfl rfl rfl rfl⟩
  | idle | changed i | report i =>
      simp only [stage] at taken
      obtain rfl := Option.some.inj taken
      simp only [History.after, stage]
      exact ⟨past, accounts.proceed rfl rfl rfl rfl⟩

theorem Accounts.step {action : Action n} (accounts : Accounts past s h)
    (taken : (failureMachine n).step s action = some next) :
    ∃ past', Accounts past' next (h.after s action) := by
  cases action with
  | init o => exact accounts.init taken
  | recover o =>
      simp only [failureMachine, Option.ite_none_right_eq_some] at taken
      obtain ⟨_, same⟩ := taken
      obtain rfl := Option.some.inj same
      obtain ⟨past', written⟩ := @Accounts.write _ _ _ (s.bump o) _ accounts o _ rfl rfl
      exact ⟨past', written.reload .recovering rfl rfl⟩
  | access o => exact accounts.access taken
  | crash o =>
      simp only [failureMachine, Option.ite_none_left_eq_some] at taken
      obtain ⟨_, same⟩ := taken
      obtain rfl := Option.some.inj same
      exact ⟨past, accounts.reload .down rfl rfl⟩
  | panic o =>
      simp only [failureMachine, Option.ite_none_left_eq_some] at taken
      obtain ⟨_, same⟩ := taken
      obtain rfl := Option.some.inj same
      obtain ⟨past', written⟩ := @Accounts.write _ _ _ (s.bump o) _ accounts o _ rfl rfl
      exact ⟨past', written.reload .down rfl rfl⟩

/-- The message of a report, if the entry was not written between the two reads of it. -/
theorem Accounts.reported (accounts : Accounts past s h) {i : Fin n} {osii : Word}
    (isOsii : (s.nodes i).myOsii = some osii) (current : h.copied o i = h.registered i)
    (msg : Word) :
    getGenId (failureMsg msg i ((s.nodes o).osGenIdsSnapshot i)) = getGenId osii := by
  rw [failureMsg, getGenId_setMsgType, getGenId_setGenId, (accounts.snapshots o i).2, current,
    (accounts.instances i osii isOsii).2]

end Accounts

/-- A message about a machine that was down names its last instance. -/
def Notice.NamesInstance (notice : Notice n) : Prop :=
  ∀ osii, notice.crashed = some osii → getGenId notice.msg = getGenId osii

theorem Node.myOsii_of_crashed {node : Node n} {osii : Word} (crashed : node.crashed = some osii) :
    node.myOsii = some osii := by
  unfold Node.crashed at crashed
  split at crashed
  · exact crashed
  · exact crashed
  · cases crashed

/-- The messages after a step. -/
theorem sent_step {s next : State n} {action : Action n}
    (taken : (failureMachine n).step s action = some next) :
    next.sent = s.sent ∨ ∃ o i, action = .access o ∧ (s.nodes o).stage = .report i ∧
      next.sent = s.sent ++ [⟨o, i, failureMsg (s.nodes o).msg i ((s.nodes o).osGenIdsSnapshot i),
        (s.nodes i).crashed⟩] := by
  cases action with
  | access o =>
      simp only [failureMachine, State.access] at taken
      cases stage : (s.nodes o).stage with
      | down => simp [stage] at taken
      | report i =>
          simp only [stage] at taken
          obtain rfl := Option.some.inj taken
          exact .inr ⟨o, i, rfl, stage, rfl⟩
      | _ =>
          simp only [stage] at taken
          obtain rfl := Option.some.inj taken
          exact .inl rfl
  | init o | recover o =>
      simp only [failureMachine, Option.ite_none_right_eq_some] at taken
      obtain ⟨_, same⟩ := taken
      exact .inl (Option.some.inj same ▸ rfl)
  | crash o | panic o =>
      simp only [failureMachine, Option.ite_none_left_eq_some] at taken
      obtain ⟨_, same⟩ := taken
      exact .inl (Option.some.inj same ▸ rfl)

/-- Every message about a machine that is down carries the generation of its last instance, if
nobody writes the machine's entry of the table between the read of it by that instance and the
observer's last copy of it. -/
theorem failure_messages_name_instance {d : State n × History n}
    (reached : (datedMachine n).Reachable (fun d action _ => noWriteBetween d action = true) d) :
    ∀ notice ∈ d.1.sent, ∀ osii, notice.crashed = some osii →
      getGenId notice.msg = getGenId osii := by
  have inv : (∃ past, Accounts past d.1 d.2) ∧ ∀ notice ∈ d.1.sent, notice.NamesInstance := by
    refine @Machine.Reachable.invariant _ _ _ _ (fun d => (∃ past, Accounts past d.1 d.2) ∧
      ∀ notice ∈ d.1.sent, notice.NamesInstance) ?_ ?_ _ reached
    · exact ⟨⟨fun _ _ => 0, fun _ => rfl, fun _ => rfl, fun _ _ => ⟨le_rfl, rfl⟩, nofun⟩, nofun⟩
    rintro ⟨s, h⟩ action _ ⟨⟨past, accounts⟩, named⟩ taken allowed
    obtain ⟨next, stepped, rfl⟩ := Option.map_eq_some_iff.mp taken
    refine ⟨accounts.step stepped, ?_⟩
    rcases sent_step stepped with same | ⟨o, i, rfl, stage, sent⟩
    · simpa only [same] using named
    · intro notice member
      rw [sent] at member
      rcases List.mem_append.mp member with old | new
      · exact named notice old
      · rw [List.mem_singleton.mp new]
        intro osii crashed
        have current : h.copied o i = h.registered i := by
          dsimp only at stage crashed
          simp only [noWriteBetween, stage, crashed] at allowed
          simpa using allowed
        exact accounts.reported (Node.myOsii_of_crashed crashed) current _
  exact inv.2

/-- The accesses of a machine, `count` of them. -/
def accesses (o : Fin n) (count : Nat) : List (Action n) := List.replicate count (.access o)

/-- The second machine joins after the first has its generation, then the first crashes and is
reported. -/
def firstReported : List (Action 2) :=
  [.init 0, .recover 1] ++ accesses 1 3 ++ accesses 0 4 ++ [.crash 0] ++ accesses 1 14

theorem failure_messages_name_instance_firstReported :
    (((datedMachine 2).final firstReported).1.sent.map fun notice =>
      (notice.reported, notice.crashed)) = [(0, some (osiiOf 1 0))] ∧
    ∀ notice ∈ ((datedMachine 2).final firstReported).1.sent, ∀ osii,
      notice.crashed = some osii → getGenId notice.msg = getGenId osii := by
  refine ⟨by decide +kernel, failure_messages_name_instance ?_⟩
  exact Machine.reachable_final (fun d action _ => noWriteBetween d action)
    (fun _ _ _ met => met) firstReported (by decide +kernel)

/-- The second machine joins after the first one took its snapshot: it runs with generation 1,
is seen live, crashes, and is reported with generation 0. -/
theorem second_machine_reported_with_older_generation :
    let s := (failureMachine 2).final ([.init 0, .recover 1] ++ accesses 1 3 ++ accesses 1 4 ++
      accesses 0 5 ++ [.crash 1] ++ accesses 0 10)
    s.sent.map (fun notice => (notice.observer, notice.reported)) = [(0, 1)] ∧
      s.sent.map (fun notice => getOsId notice.msg) = [2] ∧
      s.sent.map (fun notice => getGenId notice.msg) = [0] ∧
      s.sent.map (fun notice => notice.crashed.map getGenId) = [some 1] := by
  decide +kernel

end Lupin.Cgroup.Failure
