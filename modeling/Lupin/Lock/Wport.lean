import Mathlib.Logic.Function.Basic
import Lupin.Lib.Handover
import Lupin.Lib.Transition
import Lupin.Lock.WportWord

/-!
# The W-port abortable lock

The processes 0 to W - 1 run `jj_wport_spin_enter` and `jj_wport_spin_exit`
against one status word, one sequence counter and one active set; every load,
store, fetch-add, fetch-sub and compare and swap on these is one step. Any
process may promote any other from what it has loaded, also while the other one
aborts.

The owner is never lost because an aborting process makes the free word change
before it gives up: a promoter that still has a chance with its compare and swap
loaded the word of the current sequence number, and the process it chose either
waits or is on its way to the same compare and swap.
-/

namespace Lupin.Lock.Wport

open Lupin.Transition

/-- Who called `jj_wport_spin_promote`. -/
inductive Caller where
  | tryenter
  | abort
  | exit
deriving DecidableEq

/-- The next atomic step of a process. -/
inductive Pc where
  | idle
  /-- `tryenter`: the first load of `csst`. -/
  | tryRead
  /-- `set_bit`: the load and the fetch-add. -/
  | setLoad
  | setAdd
  /-- `promote`: the loads of `csst` and `active`, and the compare and swap. -/
  | promoteRead (caller : Caller)
  | promoteLoad (caller : Caller) (s : BitVec 64) (owner : BitVec 8)
  | promoteCas (caller : Caller) (s : BitVec 64) (owner : BitVec 8) (peer : BitVec 64)
  /-- `tryenter`: the last load of `csst`. -/
  | tryCheck
  /-- `enter`: the load in the loop and the one after it. -/
  | spinRead
  | finalRead
  /-- `abort`: `unset_bit`, and the last load of `csst`. -/
  | abortUnsetLoad
  | abortUnsetSub
  | abortCheck
  | critical
  /-- `exit`: the load of `csst`, `unset_bit`, and the accesses to `seq` and `csst`. -/
  | exitRead
  | exitUnsetLoad (owner : BitVec 8)
  | exitUnsetSub (owner : BitVec 8)
  | exitSeqLoad (owner : BitVec 8)
  | exitSeqStore (owner : BitVec 8) (s : BitVec 64)
  | exitCsst (owner : BitVec 8) (s : BitVec 64)
deriving DecidableEq

structure State (ports : PortSize) where
  csst : BitVec 64
  seq : BitVec 64
  active : BitVec ports.wsize
  pc : Fin ports.wsize → Pc

inductive Action (ports : PortSize) where
  /-- Call `jj_wport_spin_enter`. -/
  | enter (process : Fin ports.wsize)
  /-- Call `jj_wport_spin_exit`. -/
  | exit (process : Fin ports.wsize)
  /-- One atomic step; `abortSignal` is the answer of the callback where it is asked. -/
  | advance (process : Fin ports.wsize) (abortSignal : Bool)

variable {ports : PortSize}

/-- The argument `flag` each caller passes to `promote`. -/
def Caller.flag : Caller → Bool
  | .abort => true
  | .tryenter | .exit => false

/-- Where a caller goes on after `promote`. -/
def Caller.resume : Caller → Pc
  | .tryenter => .tryCheck
  | .abort => .abortCheck
  | .exit => .idle

/-- The test `cs.b && cs.s == process_id`. -/
def ownedBy (csst : BitVec 64) (process : Nat) : Bool :=
  (decomposeWportCsst csst).b && (decomposeWportCsst csst).s == BitVec.ofNat 64 process

def State.setPc (σ : State ports) (process : Fin ports.wsize) (pc : Pc) : State ports :=
  { σ with pc := Function.update σ.pc process pc }

/-- The compare and swap of `promote`, `none` where composing a word stops at `BUG_ON`. -/
def promoteSwap (csst s : BitVec 64) (owner : BitVec 8) (peer : BitVec 64) :
    Option (BitVec 64) :=
  match composeWportCsst false s owner, composeWportCsst true peer (peer.setWidth 8) with
  | some expected, some desired => some (if csst = expected then desired else csst)
  | _, _ => none

/-- One atomic step of the lock's code. -/
def advanceProcess (σ : State ports) (p : Fin ports.wsize) (abortSignal : Bool) :
    Option (State ports) :=
  match σ.pc p with
  | .idle | .critical => none
  | .tryRead =>
      some (σ.setPc p (if ownedBy σ.csst p then .finalRead else .setLoad))
  | .setLoad =>
      some (σ.setPc p (if isSet σ.active p then .promoteRead .tryenter else .setAdd))
  | .setAdd =>
      some { σ.setPc p (.promoteRead .tryenter) with active := σ.active + bitMask _ p }
  | .promoteRead caller =>
      let status := decomposeWportCsst σ.csst
      some (σ.setPc p (if status.b then caller.resume
        else .promoteLoad caller status.s status.owner))
  | .promoteLoad caller s owner =>
      some (σ.setPc p
        (if σ.active ≠ 0 then
          .promoteCas caller s owner (BitVec.ofNat 64 (nextBit σ.active owner.toNat))
        else if caller.flag then .promoteCas caller s owner (BitVec.ofNat 64 p)
        else caller.resume))
  | .promoteCas caller s owner peer =>
      match promoteSwap σ.csst s owner peer with
      | none => none
      | some csst => some { σ.setPc p caller.resume with csst := csst }
  | .tryCheck => some (σ.setPc p (if ownedBy σ.csst p then .finalRead else .spinRead))
  | .spinRead =>
      some (σ.setPc p (if ownedBy σ.csst p || abortSignal then .finalRead else .spinRead))
  | .finalRead =>
      some (σ.setPc p (if ownedBy σ.csst p then .critical else .abortUnsetLoad))
  | .abortUnsetLoad =>
      some (σ.setPc p (if isSet σ.active p then .abortUnsetSub else .promoteRead .abort))
  | .abortUnsetSub =>
      some { σ.setPc p (.promoteRead .abort) with active := σ.active - bitMask _ p }
  | .abortCheck => some (σ.setPc p (if ownedBy σ.csst p then .critical else .idle))
  | .exitRead => some (σ.setPc p (.exitUnsetLoad (decomposeWportCsst σ.csst).owner))
  | .exitUnsetLoad owner =>
      some (σ.setPc p (if isSet σ.active p then .exitUnsetSub owner else .exitSeqLoad owner))
  | .exitUnsetSub owner =>
      some { σ.setPc p (.exitSeqLoad owner) with active := σ.active - bitMask _ p }
  | .exitSeqLoad owner => some (σ.setPc p (.exitSeqStore owner σ.seq))
  | .exitSeqStore owner s => some { σ.setPc p (.exitCsst owner s) with seq := s + 1 }
  | .exitCsst owner s =>
      match composeWportCsst false (s + 1) owner with
      | none => none
      | some csst => some { σ.setPc p (.promoteRead .exit) with csst := csst }

def step (σ : State ports) : Action ports → Option (State ports)
  | .enter p => if σ.pc p = .idle then some (σ.setPc p .tryRead) else none
  | .exit p => if σ.pc p = .critical then some (σ.setPc p .exitRead) else none
  | .advance p abortSignal => advanceProcess σ p abortSignal

/-- The lock after `jj_wport_spin_init`. -/
def lock (ports : PortSize) : Machine (State ports) (Action ports) where
  initial := ⟨wportWord false 1 0, 1, 0, fun _ => .idle⟩
  step := step

/-- The sequence counter stays below `WPORT_CSST_S_MAX`. -/
def seqInRange (_ : State ports) (_ : Action ports) (next : State ports) : Bool :=
  decide (next.seq < wportCsstSMax)

/-- Between the call of `enter` and its return. -/
def Pc.insideEnter : Pc → Bool
  | .promoteRead .exit | .promoteLoad .exit _ _ | .promoteCas .exit _ _ _ => false
  | .tryRead | .setLoad | .setAdd | .promoteRead _ | .promoteLoad _ _ _ | .promoteCas _ _ _ _
  | .tryCheck | .spinRead | .finalRead | .abortUnsetLoad | .abortUnsetSub | .abortCheck => true
  | _ => false

/-- In the critical section, or in `exit` before its store to `csst`. -/
def Pc.holds : Pc → Bool
  | .critical | .exitRead | .exitUnsetLoad _ | .exitUnsetSub _ | .exitSeqLoad _
  | .exitSeqStore _ _ | .exitCsst _ _ => true
  | _ => false

/-- At most one process is in the critical section, and the recorded owner is a
process that has not given up. -/
structure OwnerKept (σ : State ports) : Prop where
  exclusive : ∀ first second, σ.pc first = .critical → σ.pc second = .critical → first = second
  recorded : (decomposeWportCsst σ.csst).b = true →
    ∃ p : Fin ports.wsize, (decomposeWportCsst σ.csst).s = BitVec.ofNat 64 p ∧
      ((σ.pc p).insideEnter = true ∨ (σ.pc p).holds = true)
  /-- A process outside `enter` and `exit`, as after `enter` returned false, is not recorded. -/
  outside : ∀ p, σ.pc p = .idle → ownedBy σ.csst p = false

/-! ## What a process at each point has done -/

/-- Past the store to `seq` in `exit`, with the one to `csst` to come. -/
def Pc.storing : Pc → Bool
  | .exitCsst _ _ => true
  | _ => false

/-- Cannot leave the lock's code without looking at the word again. -/
def Pc.attends : Pc → Bool
  | .promoteRead .exit | .promoteLoad .exit _ _ | .promoteCas .exit _ _ _ => false
  | .idle | .tryRead | .setLoad | .setAdd => false
  | _ => true

/-- Will not give up while the free word stays at `s` and `owner`: it is still
waiting, or has loaded just this word for the swap its abort depends on. -/
def Pc.waits (s : BitVec 64) (owner : BitVec 8) : Pc → Bool
  | .promoteRead .exit | .promoteLoad .exit _ _ | .promoteCas .exit _ _ _ => false
  | .promoteLoad .abort s' owner' | .promoteCas .abort s' owner' _ => s' == s && owner' == owner
  | .promoteRead _ | .promoteLoad _ _ _ | .promoteCas _ _ _ _ => true
  | .tryCheck | .spinRead | .finalRead | .abortUnsetLoad | .abortUnsetSub => true
  | _ => false

/-- The free word a promoter has loaded. -/
def Pc.seen : Pc → Option (BitVec 64 × BitVec 8)
  | .promoteLoad _ s owner | .promoteCas _ s owner _ => some (s, owner)
  | _ => none

/-- The promoter's choice of a peer. -/
def Pc.choice : Pc → Option (BitVec 64 × BitVec 8 × BitVec 64)
  | .promoteCas _ s owner peer => some (s, owner, peer)
  | _ => none

/-- The points at which a process may have its bit in the active set. -/
def Pc.mayList : Pc → Bool
  | .promoteRead .tryenter | .promoteLoad .tryenter _ _ | .promoteCas .tryenter _ _ _ => true
  | .tryCheck | .spinRead | .finalRead | .abortUnsetLoad | .abortUnsetSub => true
  | .critical | .exitRead | .exitUnsetLoad _ | .exitUnsetSub _ => true
  | _ => false

def Pc.subtracts : Pc → Bool
  | .abortUnsetSub | .exitUnsetSub _ => true
  | _ => false

/-- A listed process that is not past `enter` waits, whatever the word is. -/
theorem Pc.waits_of_mayList {pc : Pc} (listed : pc.mayList = true) (outside : pc.holds = false)
    (s : BitVec 64) (owner : BitVec 8) : pc.waits s owner = true := by
  cases pc with
  | promoteRead caller | promoteLoad caller _ _ | promoteCas caller _ _ _ =>
      cases caller with
      | tryenter => rfl
      | abort | exit => exact absurd listed Bool.false_ne_true
  | tryCheck | spinRead | finalRead | abortUnsetLoad | abortUnsetSub => rfl
  | critical | exitRead | exitUnsetLoad | exitUnsetSub =>
      exact absurd outside.symm Bool.false_ne_true
  | _ => exact absurd listed Bool.false_ne_true

theorem Pc.attends_of_waits {pc : Pc} {s : BitVec 64} {owner : BitVec 8}
    (waiting : pc.waits s owner = true) : pc.attends = true := by
  cases pc with
  | promoteRead caller | promoteLoad caller _ _ | promoteCas caller _ _ _ =>
      cases caller with
      | tryenter | abort => rfl
      | exit => exact absurd waiting Bool.false_ne_true
  | idle | tryRead | setLoad | setAdd => exact absurd waiting Bool.false_ne_true
  | _ => rfl

theorem Pc.holds_of_storing {pc : Pc} (storing : pc.storing = true) : pc.holds = true := by
  cases pc with
  | exitCsst owner s => rfl
  | _ => exact absurd storing Bool.false_ne_true

theorem Pc.seen_of_choice {pc : Pc} {s : BitVec 64} {owner : BitVec 8} {peer : BitVec 64}
    (chosen : pc.choice = some (s, owner, peer)) : pc.seen = some (s, owner) := by
  cases pc with
  | promoteCas caller s' owner' peer' =>
      simp only [Pc.choice, Option.some.injEq, Prod.mk.injEq] at chosen
      simp only [Pc.seen, chosen.1, chosen.2.1]
  | _ => simp [Pc.choice] at chosen

/-! ## The status word -/

/-- The word that records process `p` as the owner. -/
def takenWord (p : Nat) : BitVec 64 := wportWord true (BitVec.ofNat 64 p) (BitVec.ofNat 8 p)

/-- The process with this id. -/
def processOf (ports : PortSize) (peer : BitVec 64) : Fin ports.wsize :=
  ⟨peer.toNat % ports.wsize, Nat.mod_lt _ ports.wsize_pos⟩

/-- Who has the lock. Free words are told apart by their sequence number and last owner. -/
def statusWord (ports : PortSize) (csst : BitVec 64) :
    Handover.Word (BitVec 64 × BitVec 8) (Fin ports.wsize) :=
  if (decomposeWportCsst csst).b then .taken (processOf ports (decomposeWportCsst csst).s)
  else .free ((decomposeWportCsst csst).s, (decomposeWportCsst csst).owner)

/-- The word is free, with this sequence number and last owner. -/
structure FreeAt (σ : State ports) (s : BitVec 64) (owner : BitVec 8) : Prop where
  seqBound : s.toNat < 2 ^ 56
  portBound : owner.toNat < 64
  free : σ.csst = wportWord false s owner

/-- The word is one the lock stores: free with fields in range, or taken. -/
def Stored (σ : State ports) : Prop :=
  (∃ s owner, FreeAt σ s owner) ∨ ∃ p : Fin ports.wsize, σ.csst = takenWord p

private theorem port_lt (p : Fin ports.wsize) : p.val < 64 := lt_of_lt_of_le p.2 ports.wsize_le

theorem decompose_takenWord (p : Fin ports.wsize) :
    decomposeWportCsst (takenWord p) = ⟨true, BitVec.ofNat 8 p, BitVec.ofNat 64 p⟩ := by
  have small := port_lt p
  apply decompose_wportWord
  · rw [BitVec.toNat_ofNat]
    omega
  · rw [BitVec.toNat_ofNat]
    omega

theorem processOf_ofNat (p : Fin ports.wsize) : processOf ports (BitVec.ofNat 64 p) = p := by
  have small := port_lt p
  apply Fin.ext
  simp only [processOf, BitVec.toNat_ofNat]
  rw [Nat.mod_eq_of_lt (a := p.val) (by omega), Nat.mod_eq_of_lt p.2]

section Words

variable {σ : State ports} {s s' : BitVec 64} {owner owner' : BitVec 8} {p q : Fin ports.wsize}

theorem statusWord_takenWord (p : Fin ports.wsize) :
    statusWord ports (takenWord p) = .taken p := by
  simp [statusWord, decompose_takenWord, processOf_ofNat]

theorem takenWord_injective (same : takenWord p = takenWord q) : p = q := by
  have words := congrArg (statusWord ports) same
  rw [statusWord_takenWord, statusWord_takenWord] at words
  exact Handover.Word.taken.inj words

theorem FreeAt.decompose (free : FreeAt σ s owner) :
    decomposeWportCsst σ.csst = ⟨false, owner, s⟩ := by
  rw [free.free, decompose_wportWord free.seqBound free.portBound]

theorem FreeAt.status (free : FreeAt σ s owner) : statusWord ports σ.csst = .free (s, owner) := by
  simp [statusWord, free.decompose]

theorem FreeAt.unique (free : FreeAt σ s owner) (free' : FreeAt σ s' owner') :
    s = s' ∧ owner = owner' := by
  have same := free.status.symm.trans free'.status
  exact Prod.mk.inj (Handover.Word.free.inj same)

theorem FreeAt.ne_taken (free : FreeAt σ s owner) (p : Fin ports.wsize) :
    σ.csst ≠ takenWord p := by
  intro same
  have words := free.status.symm.trans (congrArg (statusWord ports) same)
  rw [statusWord_takenWord] at words
  cases words

theorem Stored.free_iff (stored : Stored σ) :
    statusWord ports σ.csst = .free (s, owner) ↔ FreeAt σ s owner := by
  refine ⟨fun free => ?_, FreeAt.status⟩
  rcases stored with ⟨s', owner', isFree⟩ | ⟨q, taken⟩
  · obtain ⟨rfl, rfl⟩ := Prod.mk.inj (Handover.Word.free.inj (isFree.status.symm.trans free))
    exact isFree
  · rw [taken, statusWord_takenWord] at free
    cases free

theorem Stored.taken_iff (stored : Stored σ) :
    statusWord ports σ.csst = .taken p ↔ σ.csst = takenWord p := by
  refine ⟨fun taken => ?_, fun taken => taken ▸ statusWord_takenWord p⟩
  rcases stored with ⟨s, owner, free⟩ | ⟨q, isTaken⟩
  · exact nomatch free.status.symm.trans taken
  · rw [isTaken, statusWord_takenWord] at taken
    rw [isTaken, Handover.Word.taken.inj taken]

/-- The test the code makes is the one on whole words. -/
theorem Stored.ownedBy_iff (stored : Stored σ) (p : Fin ports.wsize) :
    ownedBy σ.csst p = true ↔ σ.csst = takenWord p := by
  constructor
  · intro owned
    rcases stored with ⟨s, owner, free⟩ | ⟨q, taken⟩
    · simp [ownedBy, free.decompose] at owned
    · rw [ownedBy, taken, decompose_takenWord, Bool.true_and, beq_iff_eq] at owned
      dsimp only at owned
      rw [taken, ← processOf_ofNat q, owned, processOf_ofNat]
  · intro taken
    rw [ownedBy, taken, decompose_takenWord]
    simp

end Words

/-! ## The invariant -/

/-- A point of the lock's code, as a stance towards the status word. -/
def Pc.stance (ports : PortSize) (pc : Pc) :
    Handover.Stance (BitVec 64 × BitVec 8) (Fin ports.wsize) where
  holds := pc.holds
  attends := pc.attends
  waits key := pc.waits key.1 key.2
  seen := pc.seen
  choice := pc.choice.map fun choice => processOf ports choice.2.2
  storing := pc.storing
  attends_of_waits _ := Pc.attends_of_waits
  holds_of_storing := Pc.holds_of_storing

/-- Free words come up in the order of their sequence numbers. -/
def rank (key : BitVec 64 × BitVec 8) : Nat := key.1.toNat

/-- What a process has read. -/
def Located (ports : PortSize) (seq : BitVec 64) : Pc → Prop
  | .promoteLoad _ _ owner => owner.toNat < 64
  | .promoteCas _ _ owner peer =>
      owner.toNat < 64 ∧ ∃ t : Fin ports.wsize, peer = BitVec.ofNat 64 t
  | .exitUnsetLoad owner | .exitUnsetSub owner | .exitSeqLoad owner => owner.toNat < 64
  | .exitSeqStore owner s => owner.toNat < 64 ∧ s = seq
  | .exitCsst owner s => owner.toNat < 64 ∧ s + 1 = seq
  | _ => True

structure Invariant (σ : State ports) : Prop where
  bound : σ.seq.toNat < 2 ^ 56 - 1
  stored : Stored σ
  handover : Handover.Invariant rank (statusWord ports σ.csst) σ.seq.toNat
    (Pc.stance ports ∘ σ.pc)
  located : ∀ p, Located ports σ.seq (σ.pc p)
  listed : ∀ p : Fin ports.wsize, σ.active.getLsbD p = true → (σ.pc p).mayList = true
  unlisting : ∀ p : Fin ports.wsize, (σ.pc p).subtracts = true → σ.active.getLsbD p = true

namespace Invariant

variable {σ : State ports} {p q : Fin ports.wsize}

theorem holder (inv : Invariant σ) (held : (σ.pc p).holds = true) : σ.csst = takenWord p :=
  inv.stored.taken_iff.mp (inv.handover.holder p held)

theorem not_taken (inv : Invariant σ) (unattended : (σ.pc p).attends = false) :
    σ.csst ≠ takenWord p := fun taken =>
  inv.handover.not_taken unattended (inv.stored.taken_iff.mpr taken)

theorem not_holds_of_free (inv : Invariant σ) {s : BitVec 64} {owner : BitVec 8}
    (free : FreeAt σ s owner) (p : Fin ports.wsize) : (σ.pc p).holds = false :=
  inv.handover.not_holds free.status p

/-- A loaded word was in range. -/
theorem seen_bounds (inv : Invariant σ) {s : BitVec 64} {owner : BitVec 8}
    (loaded : (σ.pc p).seen = some (s, owner)) : s.toNat < 2 ^ 56 ∧ owner.toNat < 64 := by
  have notNewer : s.toNat ≤ σ.seq.toNat := inv.handover.seen p (s, owner) loaded
  have bound := inv.bound
  refine ⟨by omega, ?_⟩
  have located := inv.located p
  cases current : σ.pc p with
  | promoteLoad caller s' owner' =>
      rw [current] at located loaded
      exact (Prod.mk.inj (Option.some.inj loaded)).2 ▸ located
  | promoteCas caller s' owner' peer =>
      rw [current] at located loaded
      exact (Prod.mk.inj (Option.some.inj loaded)).2 ▸ located.1
  | _ =>
      rw [current] at loaded
      exact nomatch loaded

/-- A choice is a process. -/
theorem exists_choice (inv : Invariant σ) {s : BitVec 64} {owner : BitVec 8} {peer : BitVec 64}
    (chosen : (σ.pc p).choice = some (s, owner, peer)) :
    ∃ t : Fin ports.wsize, peer = BitVec.ofNat 64 t := by
  have located := inv.located p
  cases current : σ.pc p with
  | promoteCas caller s' owner' peer' =>
      rw [current] at located chosen
      obtain ⟨_, _, rfl⟩ : s' = s ∧ owner' = owner ∧ peer' = peer := by
        simpa [Pc.choice] using chosen
      exact located.2
  | _ =>
      rw [current] at chosen
      exact nomatch chosen

end Invariant

/-! ## Preservation -/

/-- What the step of `p` to `pc` owes the word. -/
abbrev Moves (σ : State ports) (p : Fin ports.wsize) (pc : Pc) : Prop :=
  Handover.Move rank (statusWord ports σ.csst) σ.seq.toNat (Pc.stance ports ∘ σ.pc) p
    (pc.stance ports)

/-- What a step of `p` to `pc` owes when `csst` and `seq` stay as they are and the
active set becomes `active`. -/
structure Move (σ : State ports) (p : Fin ports.wsize) (pc : Pc) (active : BitVec ports.wsize) :
    Prop where
  moves : Moves σ p pc
  located : Located ports σ.seq pc
  others : ∀ i : Nat, i ≠ p → active.getLsbD i = σ.active.getLsbD i
  listed : active.getLsbD p = true → pc.mayList = true
  unlisting : pc.subtracts = true → active.getLsbD p = true

section Preservation

variable {σ : State ports} {p : Fin ports.wsize} {pc : Pc}

/-- With the active set unchanged. -/
theorem Move.keep (moves : Moves σ p pc) (located : Located ports σ.seq pc)
    (listed : σ.active.getLsbD p = true → pc.mayList = true)
    (unlisting : pc.subtracts = true → σ.active.getLsbD p = true) : Move σ p pc σ.active :=
  ⟨moves, located, fun _ _ => rfl, listed, unlisting⟩

/-- The active set after the step of `p`, which is listed at a point that allows it. -/
theorem Invariant.lists (inv : Invariant σ) {active : BitVec ports.wsize}
    (others : ∀ i : Nat, i ≠ p → active.getLsbD i = σ.active.getLsbD i)
    (listed : active.getLsbD p = true → pc.mayList = true)
    (unlisting : pc.subtracts = true → active.getLsbD p = true) :
    (∀ q : Fin ports.wsize, active.getLsbD q = true →
      (Function.update σ.pc p pc q).mayList = true) ∧
    ∀ q : Fin ports.wsize, (Function.update σ.pc p pc q).subtracts = true →
      active.getLsbD q = true := by
  have same : ∀ q, q ≠ p → active.getLsbD q = σ.active.getLsbD q := fun q different =>
    others q fun equal => different (Fin.ext equal)
  constructor
  · refine (Function.forall_update_iff σ.pc fun (q : Fin ports.wsize) (pc : Pc) =>
      active.getLsbD q = true → pc.mayList = true).mpr ⟨listed, fun q different bit => ?_⟩
    exact inv.listed q ((same q different).symm.trans bit)
  · refine (Function.forall_update_iff σ.pc fun (q : Fin ports.wsize) (pc : Pc) =>
      pc.subtracts = true → active.getLsbD q = true).mpr ⟨unlisting, fun q different bit => ?_⟩
    exact (same q different).trans (inv.unlisting q bit)

theorem located_update {seq : BitVec 64} (located : Located ports seq pc)
    (others : ∀ q ≠ p, Located ports seq (σ.pc q)) :
    ∀ q, Located ports seq (Function.update σ.pc p pc q) :=
  (Function.forall_update_iff σ.pc fun _ pc => Located ports seq pc).mpr ⟨located, others⟩

theorem Invariant.move (inv : Invariant σ) {active : BitVec ports.wsize}
    (change : Move σ p pc active) : Invariant { σ.setPc p pc with active := active } where
  bound := inv.bound
  stored := inv.stored.imp_left fun ⟨s, owner, free⟩ =>
    ⟨s, owner, free.seqBound, free.portBound, free.free⟩
  handover := by
    change Handover.Invariant _ _ _ (Pc.stance ports ∘ Function.update σ.pc p pc)
    rw [Function.comp_update]
    exact inv.handover.move change.moves
  located := located_update change.located fun q _ => inv.located q
  listed := (inv.lists change.others change.listed change.unlisting).1
  unlisting := (inv.lists change.others change.listed change.unlisting).2

/-- The choice of a promoter is stored: the peer becomes the recorded owner. -/
theorem Invariant.promoted (inv : Invariant σ) {t : Fin ports.wsize} {caller : Caller}
    {s : BitVec 64} {owner : BitVec 8}
    (current : σ.pc p = .promoteCas caller s owner (BitVec.ofNat 64 t)) (free : FreeAt σ s owner) :
    Invariant { σ.setPc p caller.resume with csst := takenWord t } := by
  have lists := @Invariant.lists _ σ p caller.resume inv σ.active (fun _ _ => rfl) (fun bit => by
    have before := inv.listed p bit
    rw [current] at before
    cases caller with
    | tryenter => rfl
    | abort | exit => exact absurd before Bool.false_ne_true) (by cases caller <;> nofun)
  refine ⟨inv.bound, .inr ⟨t, rfl⟩, ?_, ?_, lists.1, lists.2⟩
  · change Handover.Invariant _ (statusWord ports (takenWord t)) _
      (Pc.stance ports ∘ Function.update σ.pc p caller.resume)
    rw [Function.comp_update, statusWord_takenWord]
    refine inv.handover.promote (q := p) free.status ?_ ?_ ?_ ?_ ?_
    · simp [Pc.stance, current, Pc.seen]
    · simp [Pc.stance, current, Pc.choice, processOf_ofNat]
    · cases caller <;> rfl
    · cases caller <;> rfl
    · intro attending
      simp only [Function.comp_apply, Pc.stance, current] at attending
      cases caller with
      | tryenter | abort => rfl
      | exit => exact nomatch attending
  · refine located_update ?_ fun q _ => inv.located q
    cases caller <;> trivial

/-- The store to `seq` makes every loaded free word an old one. -/
theorem Invariant.seqStore (inv : Invariant σ) {owner : BitVec 8} {s : BitVec 64}
    (current : σ.pc p = .exitSeqStore owner s) (inRange : (s + 1).toNat < 2 ^ 56 - 1) :
    Invariant { σ.setPc p (.exitCsst owner s) with seq := s + 1 } := by
  have held : (σ.pc p).holds = true := by rw [current]; rfl
  have located := inv.located p
  rw [current] at located
  obtain ⟨portBound, rfl⟩ := located
  have larger : σ.seq.toNat < (σ.seq + 1).toNat := by
    have bound := inv.bound
    rw [BitVec.toNat_add]
    simp
    omega
  have unlisted : σ.active.getLsbD p ≠ true := by
    intro bit
    exact absurd (inv.listed p bit) (by rw [current]; exact Bool.false_ne_true)
  have lists := @Invariant.lists _ σ p (.exitCsst owner σ.seq) inv σ.active (fun _ _ => rfl)
    (fun bit => absurd bit unlisted) nofun
  refine ⟨inRange, .inr ⟨p, inv.holder held⟩, ?_, ?_, lists.1, lists.2⟩
  · change Handover.Invariant _ _ _
      (Pc.stance ports ∘ Function.update σ.pc p (.exitCsst owner σ.seq))
    rw [Function.comp_update]
    exact inv.handover.publish (p := p) held larger rfl rfl
  · refine located_update ⟨portBound, rfl⟩ fun q different => ?_
    -- only points past `enter` look at `seq`, and `p` is the only one there
    have outside : (σ.pc q).holds = false := by
      cases other : (σ.pc q).holds with
      | false => rfl
      | true => exact absurd (inv.handover.holder_unique (p := q) (q := p) other held) different
    have before := inv.located q
    cases place : σ.pc q <;> rw [place] at outside before <;> trivial

/-- The store of the free word in `exit`: no promoter has loaded it yet. -/
theorem Invariant.csstStore (inv : Invariant σ) {owner : BitVec 8} {s : BitVec 64}
    (current : σ.pc p = .exitCsst owner s) :
    Invariant { σ.setPc p (.promoteRead .exit) with csst := wportWord false σ.seq owner } := by
  have located := inv.located p
  rw [current] at located
  have bound := inv.bound
  have unlisted : σ.active.getLsbD p ≠ true := by
    intro bit
    exact absurd (inv.listed p bit) (by rw [current]; exact Bool.false_ne_true)
  have lists := @Invariant.lists _ σ p (.promoteRead .exit) inv σ.active (fun _ _ => rfl)
    (fun bit => absurd bit unlisted) nofun
  have freed : FreeAt { σ.setPc p (.promoteRead .exit) with
      csst := wportWord false σ.seq owner } σ.seq owner := ⟨by omega, located.1, rfl⟩
  refine ⟨inv.bound, .inl ⟨_, _, freed⟩, ?_, located_update trivial fun q _ => inv.located q,
    lists.1, lists.2⟩
  rw [freed.status]
  change Handover.Invariant _ _ _ (Pc.stance ports ∘ Function.update σ.pc p (.promoteRead .exit))
  rw [Function.comp_update]
  exact inv.handover.release (p := p) (by simp [Pc.stance, current, Pc.storing]) rfl rfl rfl

/-- The owner of a loaded free word is the current one. -/
theorem Invariant.decompose_free (inv : Invariant σ)
    (notTaken : (decomposeWportCsst σ.csst).b = false) :
    FreeAt σ (decomposeWportCsst σ.csst).s (decomposeWportCsst σ.csst).owner := by
  rcases inv.stored with ⟨s, owner, free⟩ | ⟨q, taken⟩
  · rw [free.decompose]
    exact free
  · rw [taken, decompose_takenWord] at notTaken
    exact absurd notTaken.symm Bool.false_ne_true

end Preservation

section Moves

variable {σ : State ports} {p : Fin ports.wsize} {pc : Pc}

/-- A process that is not in the active set goes on towards setting its bit. -/
theorem Invariant.approach (inv : Invariant σ) (unattended : (σ.pc p).attends = false)
    (unlisted : (σ.pc p).mayList = false)
    (after : pc = .tryRead ∨ pc = .setLoad ∨ pc = .setAdd) : Move σ p pc σ.active := by
  have notListed : σ.active.getLsbD p ≠ true := by
    intro bit
    exact absurd (inv.listed p bit) (by simp [unlisted])
  rcases after with rfl | rfl | rfl <;>
    exact .keep (inv.handover.approach unattended rfl rfl) trivial
      (fun bit => absurd bit notListed) nofun

/-- The points at which a listed process waits owe nothing. -/
theorem Move.linger (after : pc = .tryCheck ∨ pc = .spinRead ∨ pc = .finalRead ∨
    pc = .abortUnsetLoad) : Move σ p pc σ.active := by
  rcases after with rfl | rfl | rfl | rfl <;>
    exact .keep (.linger rfl rfl rfl fun _ => rfl) trivial (fun _ => rfl) nofun

/-- The recorded owner enters the critical section. -/
theorem Move.enter (taken : σ.csst = takenWord p) : Move σ p .critical σ.active :=
  .keep (.held (taken ▸ statusWord_takenWord p) rfl rfl rfl) trivial (fun _ => rfl) nofun

/-- A process past `enter` goes on in `exit`, before its store to `csst`. -/
theorem Invariant.exiting (inv : Invariant σ) (held : (σ.pc p).holds = true)
    (located : Located ports σ.seq pc) (noWord : pc.seen = none) (attends : pc.attends = true)
    (storing : pc.storing = false) (listed : σ.active.getLsbD p = true → pc.mayList = true)
    (unlisting : pc.subtracts = true → σ.active.getLsbD p = true) : Move σ p pc σ.active :=
  .keep (.held (inv.handover.holder p held) attends noWord storing) located listed unlisting

/-- `set_bit` adds the bit, which is clear. -/
theorem Invariant.setBit (inv : Invariant σ) (current : σ.pc p = .setAdd) :
    Move σ p (.promoteRead .tryenter) (σ.active + bitMask _ p) where
  moves := .linger rfl rfl rfl fun _ => rfl
  located := trivial
  others i different := by
    have clear : σ.active.getLsbD p = false := by
      cases bit : σ.active.getLsbD p with
      | false => rfl
      | true => exact absurd (inv.listed p bit) (by rw [current]; exact Bool.false_ne_true)
    simp [getLsbD_add_bitMask σ.active p.2 clear, different]
  listed _ := rfl
  unlisting := nofun

/-- `unset_bit` subtracts the bit, which is set. -/
theorem Invariant.unsetBit (inv : Invariant σ) (subtracting : (σ.pc p).subtracts = true)
    (moves : Moves σ p pc) (located : Located ports σ.seq pc) (done : pc.subtracts = false) :
    Move σ p pc (σ.active - bitMask _ p) where
  moves := moves
  located := located
  others i different := by
    simp [getLsbD_sub_bitMask σ.active p.2 (inv.unlisting p subtracting), different]
  listed bit := by
    rw [getLsbD_sub_bitMask σ.active p.2 (inv.unlisting p subtracting)] at bit
    simp at bit
  unlisting again := by simp [done] at again

/-- `promote` returns without a swap. -/
theorem Invariant.resume (inv : Invariant σ) (caller : Caller)
    (exits : caller = .exit → (σ.pc p).attends = false)
    (listing : (σ.pc p).mayList = true → caller = .tryenter)
    (aborts : caller = .abort → ∀ s owner, FreeAt σ s owner → (σ.pc p).waits s owner = false) :
    Move σ p caller.resume σ.active := by
  have listed : σ.active.getLsbD p = true → caller.resume.mayList = true := fun bit => by
    rw [listing (inv.listed p bit)]
    rfl
  cases caller with
  | tryenter => exact .keep (.linger rfl rfl rfl fun _ => rfl) trivial listed nofun
  | abort =>
      refine .keep (.plain nofun (fun _ => rfl) rfl rfl fun key free waiting => ?_) trivial listed
        nofun
      have quiet := aborts rfl key.1 key.2 (inv.stored.free_iff.mp free)
      exact absurd (quiet.symm.trans waiting) Bool.false_ne_true
  | exit => exact .keep (inv.handover.approach (exits rfl) rfl rfl) trivial listed nofun

/-- `promote` has loaded a free word and goes on to the active set. -/
theorem Invariant.loadWord (inv : Invariant σ) {caller : Caller}
    (current : σ.pc p = .promoteRead caller) {s : BitVec 64} {owner : BitVec 8}
    (free : FreeAt σ s owner) : Move σ p (.promoteLoad caller s owner) σ.active := by
  refine .keep (.load free.status rfl rfl rfl fun waiting => ?_) free.portBound
    (fun bit => ?_) nofun
  · simp only [Function.comp_apply, Pc.stance, current] at waiting
    cases caller with
    | tryenter => rfl
    | abort =>
        change (s == s && owner == owner) = true
        simp
    | exit => exact nomatch waiting
  · have before := inv.listed p bit
    rw [current] at before
    cases caller with
    | tryenter => rfl
    | abort | exit => exact absurd before Bool.false_ne_true

/-- `promote` has chosen a peer that waits. -/
theorem Invariant.choose (inv : Invariant σ) {caller : Caller} {s : BitVec 64} {owner : BitVec 8}
    (current : σ.pc p = .promoteLoad caller s owner) {t : Fin ports.wsize}
    (chosen : FreeAt σ s owner → (σ.pc t).waits s owner = true) :
    Move σ p (.promoteCas caller s owner (BitVec.ofNat 64 t)) σ.active := by
  have located := inv.located p
  rw [current] at located
  refine .keep (inv.handover.choose (s, owner) t ?_ rfl ?_ rfl ?_ ?_ fun free =>
    chosen (inv.stored.free_iff.mp free)) ⟨located, t, rfl⟩ (fun bit => ?_) nofun
  · simp [Pc.stance, current, Pc.seen]
  · intro attending
    simp only [Function.comp_apply, Pc.stance, current] at attending
    cases caller <;> exact attending
  · simp [Pc.stance, Pc.choice, processOf_ofNat]
  · intro key waiting
    simp only [Function.comp_apply, Pc.stance, current] at waiting
    cases caller <;> exact waiting
  · have before := inv.listed p bit
    rw [current] at before
    cases caller <;> exact before

end Moves

/-! ## Every step -/

/-- The load of the active set in `promote`. -/
theorem Invariant.loadActive {σ : State ports} (inv : Invariant σ) {p : Fin ports.wsize}
    {caller : Caller} {s : BitVec 64} {owner : BitVec 8}
    (current : σ.pc p = .promoteLoad caller s owner) :
    Move σ p (if σ.active ≠ 0 then
        .promoteCas caller s owner (BitVec.ofNat 64 (nextBit σ.active owner.toNat))
      else if caller.flag then .promoteCas caller s owner (BitVec.ofNat 64 p)
      else caller.resume) σ.active := by
  by_cases someone : σ.active ≠ 0
  · rw [if_pos someone]
    obtain ⟨bit, inRange⟩ := nextBit_isSet someone owner.toNat
    rw [isSet_eq_getLsbD _ inRange] at bit
    have listed := inv.listed ⟨_, inRange⟩ bit
    refine inv.choose (t := ⟨_, inRange⟩) current ?_
    intro free
    exact Pc.waits_of_mayList listed (inv.not_holds_of_free free _) s owner
  · rw [if_neg someone]
    cases caller with
    | abort =>
        refine inv.choose (t := p) current ?_
        intro _
        rw [current]
        change (s == s && owner == owner) = true
        simp
    | tryenter => exact inv.resume .tryenter nofun (fun _ => rfl) nofun
    | exit =>
        refine inv.resume .exit (fun _ => by rw [current]; rfl) (fun listing => ?_) nofun
        rw [current] at listing
        exact absurd listing Bool.false_ne_true

/-- The word a promoter wants to store for a process. -/
theorem composePeer (t : Fin ports.wsize) :
    composeWportCsst true (BitVec.ofNat 64 t.val) ((BitVec.ofNat 64 t.val).setWidth 8) =
      some (takenWord t) := by
  have small := port_lt t
  have asPort : (BitVec.ofNat 64 t.val).setWidth 8 = BitVec.ofNat 8 t.val := by
    apply BitVec.eq_of_toNat_eq
    simp only [BitVec.toNat_setWidth, BitVec.toNat_ofNat]
    omega
  rw [asPort]
  apply composeWportCsst_eq
  · rw [BitVec.toNat_ofNat]
    omega
  · rw [BitVec.toNat_ofNat]
    omega

/-- The swap stores the word for the peer, or leaves the word alone. -/
theorem promoteSwap_cases {csst before s peer : BitVec 64} {owner : BitVec 8}
    (seqBound : s.toNat < 2 ^ 56) (portBound : owner.toNat < 64)
    (swapped : promoteSwap before s owner peer = some csst) :
    before = wportWord false s owner ∧ composeWportCsst true peer (peer.setWidth 8) = some csst ∨
      before ≠ wportWord false s owner ∧ csst = before := by
  unfold promoteSwap at swapped
  rw [composeWportCsst_eq seqBound portBound] at swapped
  split at swapped
  next expected desired first second =>
    obtain rfl := Option.some.inj first
    by_cases same : before = wportWord false s owner
    · rw [if_pos same] at swapped
      exact .inl ⟨same, swapped ▸ second⟩
    · rw [if_neg same] at swapped
      exact .inr ⟨same, (Option.some.inj swapped).symm⟩
  · exact absurd swapped (by simp)

/-- The compare and swap of `promote`, whether or not it succeeds. -/
theorem Invariant.swap {σ : State ports} (inv : Invariant σ) {p : Fin ports.wsize}
    {caller : Caller} {s csst : BitVec 64} {owner : BitVec 8} {peer : BitVec 64}
    (current : σ.pc p = .promoteCas caller s owner peer)
    (swapped : promoteSwap σ.csst s owner peer = some csst) :
    Invariant { σ.setPc p caller.resume with csst := csst } := by
  obtain ⟨seqBound, portBound⟩ := inv.seen_bounds (p := p) (by rw [current]; rfl)
  rcases promoteSwap_cases seqBound portBound swapped with
    ⟨expected, desired⟩ | ⟨expected, unchanged⟩
  · have free : FreeAt σ s owner := ⟨seqBound, portBound, expected⟩
    have chosen : (σ.pc p).choice = some (s, owner, peer) := by
      rw [current]
      rfl
    obtain ⟨t, rfl⟩ := inv.exists_choice chosen
    rw [composePeer t] at desired
    obtain rfl := Option.some.inj desired
    exact inv.promoted current free
  · subst unchanged
    refine inv.move (inv.resume caller ?_ ?_ ?_)
    · rintro rfl
      rw [current]
      rfl
    · intro listing
      rw [current] at listing
      cases caller with
      | tryenter => rfl
      | abort | exit => exact absurd listing Bool.false_ne_true
    · -- an aborting process waits at its own word only, and that one is gone
      rintro rfl s' owner' free
      rw [current]
      change (s == s' && owner == owner') = false
      rw [Bool.eq_false_iff]
      intro same
      simp only [Bool.and_eq_true, beq_iff_eq] at same
      obtain ⟨rfl, rfl⟩ := same
      exact expected free.free

theorem Invariant.advance {σ next : State ports} (inv : Invariant σ) {p : Fin ports.wsize}
    {abortSignal : Bool} (taken : advanceProcess σ p abortSignal = some next)
    (inRange : next.seq.toNat < 2 ^ 56 - 1) : Invariant next := by
  have owned := inv.stored.ownedBy_iff p
  unfold advanceProcess at taken
  cases current : σ.pc p with
  | idle | critical => simp [current] at taken
  | tryRead =>
      simp only [current] at taken
      have notOwned : ¬ ownedBy σ.csst p = true := by
        intro mine
        exact inv.not_taken (by rw [current]; rfl) (owned.mp mine)
      rw [if_neg notOwned] at taken
      exact Option.some.inj taken ▸
        inv.move (inv.approach (by rw [current]; rfl) (by rw [current]; rfl) (by simp))
  | setLoad =>
      simp only [current] at taken
      have clear : ¬ isSet σ.active p = true := by
        rw [isSet_eq_getLsbD _ p.2]
        intro bit
        exact absurd (inv.listed p bit) (by rw [current]; exact Bool.false_ne_true)
      rw [if_neg clear] at taken
      exact Option.some.inj taken ▸
        inv.move (inv.approach (by rw [current]; rfl) (by rw [current]; rfl) (by simp))
  | setAdd =>
      simp only [current] at taken
      exact Option.some.inj taken ▸ inv.move (inv.setBit current)
  | promoteRead caller =>
      simp only [current] at taken
      cases status : (decomposeWportCsst σ.csst).b with
      | false =>
          simp only [status, Bool.false_eq_true, if_false] at taken
          exact Option.some.inj taken ▸
            inv.move (inv.loadWord current (inv.decompose_free status))
      | true =>
          simp only [status, if_true] at taken
          refine Option.some.inj taken ▸ inv.move (inv.resume caller ?_ ?_ ?_)
          · rintro rfl
            rw [current]
            rfl
          · intro listing
            rw [current] at listing
            cases caller with
            | tryenter => rfl
            | abort | exit => exact absurd listing Bool.false_ne_true
          · intro _ s owner free
            rw [free.decompose] at status
            exact absurd status Bool.false_ne_true
  | promoteLoad caller s owner =>
      simp only [current] at taken
      exact Option.some.inj taken ▸ inv.move (inv.loadActive current)
  | promoteCas caller s owner peer =>
      simp only [current] at taken
      split at taken
      · exact absurd taken (by simp)
      · rename_i csst swapped
        exact Option.some.inj taken ▸ inv.swap current swapped
  | tryCheck =>
      simp only [current] at taken
      refine Option.some.inj taken ▸ inv.move (.linger ?_)
      split <;> simp
  | spinRead =>
      simp only [current] at taken
      refine Option.some.inj taken ▸ inv.move (.linger ?_)
      split <;> simp
  | finalRead =>
      simp only [current] at taken
      split at taken
      · rename_i mine
        exact Option.some.inj taken ▸ inv.move (.enter (owned.mp mine))
      · exact Option.some.inj taken ▸ inv.move (.linger (by simp))
  | abortUnsetLoad =>
      simp only [current] at taken
      split at taken
      · rename_i bit
        rw [isSet_eq_getLsbD _ p.2] at bit
        exact Option.some.inj taken ▸ inv.move
          (.keep (.linger rfl rfl rfl fun _ => rfl) trivial (fun _ => rfl) (fun _ => bit))
      · rename_i clear
        rw [isSet_eq_getLsbD _ p.2] at clear
        exact Option.some.inj taken ▸ inv.move
          (.keep (.linger rfl rfl rfl fun _ => rfl) trivial (fun bit => absurd bit clear) nofun)
  | abortUnsetSub =>
      simp only [current] at taken
      exact Option.some.inj taken ▸ inv.move
        (inv.unsetBit (by rw [current]; rfl) (.linger rfl rfl rfl fun _ => rfl) trivial rfl)
  | abortCheck =>
      simp only [current] at taken
      split at taken
      · rename_i mine
        exact Option.some.inj taken ▸ inv.move (.enter (owned.mp mine))
      · rename_i notMine
        have unlisted : ¬ σ.active.getLsbD p = true := by
          intro bit
          exact absurd (inv.listed p bit) (by rw [current]; exact Bool.false_ne_true)
        have notTaken : statusWord ports σ.csst ≠ .taken p := fun word =>
          notMine (owned.mpr (inv.stored.taken_iff.mp word))
        refine Option.some.inj taken ▸ inv.move
          (.keep (.plain nofun (fun word => absurd word notTaken) rfl rfl fun key _ waiting => ?_)
            trivial (fun bit => absurd bit unlisted) nofun)
        rw [Function.comp_apply, current] at waiting
        exact nomatch waiting
  | exitRead =>
      simp only [current] at taken
      have held : (σ.pc p).holds = true := by rw [current]; rfl
      have small := port_lt p
      have portBound : (decomposeWportCsst σ.csst).owner.toNat < 64 := by
        rw [inv.holder held, decompose_takenWord, BitVec.toNat_ofNat]
        omega
      exact Option.some.inj taken ▸
        inv.move (inv.exiting held portBound rfl rfl rfl (fun _ => rfl) nofun)
  | exitUnsetLoad owner =>
      simp only [current] at taken
      have held : (σ.pc p).holds = true := by rw [current]; rfl
      have portBound := inv.located p
      rw [current] at portBound
      split at taken
      · rename_i bit
        rw [isSet_eq_getLsbD _ p.2] at bit
        exact Option.some.inj taken ▸ inv.move (inv.exiting held portBound rfl rfl rfl
          (fun _ => rfl) (fun _ => bit))
      · rename_i clear
        rw [isSet_eq_getLsbD _ p.2] at clear
        exact Option.some.inj taken ▸
          inv.move (inv.exiting held portBound rfl rfl rfl (fun bit => absurd bit clear) nofun)
  | exitUnsetSub owner =>
      simp only [current] at taken
      have held : (σ.pc p).holds = true := by rw [current]; rfl
      have portBound := inv.located p
      rw [current] at portBound
      exact Option.some.inj taken ▸ inv.move (inv.unsetBit (by rw [current]; rfl)
        (.held (inv.handover.holder p held) rfl rfl rfl) portBound rfl)
  | exitSeqLoad owner =>
      simp only [current] at taken
      have held : (σ.pc p).holds = true := by rw [current]; rfl
      have portBound := inv.located p
      rw [current] at portBound
      have unlisted : ¬ σ.active.getLsbD p = true := by
        intro bit
        exact absurd (inv.listed p bit) (by rw [current]; exact Bool.false_ne_true)
      exact Option.some.inj taken ▸ inv.move
        (inv.exiting held ⟨portBound, rfl⟩ rfl rfl rfl (fun bit => absurd bit unlisted) nofun)
  | exitSeqStore owner s =>
      simp only [current, Option.some.injEq] at taken
      subst taken
      exact inv.seqStore current inRange
  | exitCsst owner s =>
      simp only [current] at taken
      have located := inv.located p
      rw [current] at located
      have bound := inv.bound
      rw [located.2, composeWportCsst_eq (by omega) located.1] at taken
      exact Option.some.inj taken ▸ inv.csstStore current

theorem Invariant.step {σ next : State ports} (inv : Invariant σ) {action : Action ports}
    (taken : step σ action = some next) (inRange : seqInRange σ action next = true) :
    Invariant next := by
  cases action with
  | enter p =>
      simp only [Wport.step] at taken
      split at taken
      · rename_i idle
        exact Option.some.inj taken ▸
          inv.move (inv.approach (by rw [idle]; rfl) (by rw [idle]; rfl) (by simp))
      · exact absurd taken (by simp)
  | exit p =>
      simp only [Wport.step] at taken
      split at taken
      · rename_i inside
        exact Option.some.inj taken ▸ inv.move
          (inv.exiting (by rw [inside]; rfl) trivial rfl rfl rfl (fun _ => rfl) nofun)
      · exact absurd taken (by simp)
  | advance p abortSignal =>
      have maximum : wportCsstSMax.toNat = 2 ^ 56 - 1 := by decide
      have bound : next.seq.toNat < wportCsstSMax.toNat := by
        simpa [seqInRange, BitVec.lt_def] using inRange
      exact inv.advance taken (by omega)

theorem invariant_initial (ports : PortSize) : Invariant (lock ports).initial := by
  have free : FreeAt (lock ports).initial 1 0 := ⟨by simp, by simp, rfl⟩
  refine ⟨by simp [lock], .inl ⟨1, 0, free⟩, ?_, fun _ => trivial, ?_, nofun⟩
  · rw [free.status]
    refine ⟨fun key same => ?_, nofun, nofun, nofun, nofun, nofun⟩
    obtain rfl := Handover.Word.free.inj same
    rfl
  · intro p bit
    simp [lock] at bit

theorem Pc.insideEnter_or_holds {pc : Pc} (attends : pc.attends = true) :
    pc.insideEnter = true ∨ pc.holds = true := by
  cases pc with
  | promoteRead caller | promoteLoad caller _ _ | promoteCas caller _ _ _ =>
      cases caller with
      | tryenter | abort => exact .inl rfl
      | exit => exact absurd attends Bool.false_ne_true
  | tryCheck | spinRead | finalRead | abortUnsetLoad | abortUnsetSub | abortCheck =>
      exact .inl rfl
  | idle | tryRead | setLoad | setAdd => exact absurd attends Bool.false_ne_true
  | _ => exact .inr rfl

theorem Invariant.ownerKept {σ : State ports} (inv : Invariant σ) : OwnerKept σ where
  exclusive first second firstIn secondIn :=
    inv.handover.holder_unique (by simp [Pc.stance, firstIn, Pc.holds])
      (by simp [Pc.stance, secondIn, Pc.holds])
  recorded taken := by
    rcases inv.stored with ⟨s, owner, free⟩ | ⟨p, word⟩
    · rw [free.decompose] at taken
      exact absurd taken Bool.false_ne_true
    · have attends := inv.handover.recorded p (inv.stored.taken_iff.mpr word)
      refine ⟨p, ?_, Pc.insideEnter_or_holds attends⟩
      rw [word, decompose_takenWord]
  outside p idle := by
    rw [Bool.eq_false_iff]
    intro owned
    exact inv.not_taken (by rw [idle]; rfl) ((inv.stored.ownedBy_iff p).mp owned)

/-- While `seq` stays below `WPORT_CSST_S_MAX`, at most one process is in the
critical section and a recorded owner has not given up. -/
theorem owner_never_lost {σ : State ports}
    (reached : (lock ports).Reachable
      (fun σ action next => seqInRange σ action next = true) σ) : OwnerKept σ := by
  have inv : Invariant σ := by
    refine reached.invariant (invariant_initial ports) ?_
    intro state action next prior transition inRange
    exact prior.step transition inRange
  exact inv.ownerKept

def firstPort : Fin PortSize.w8.wsize := ⟨0, by decide⟩
def secondPort : Fin PortSize.w8.wsize := ⟨1, by decide⟩

/-- The first port enters; the second sets its bit, aborts, and gives up. -/
def enterAndAbort : List (Action .w8) :=
  .enter firstPort :: List.replicate 8 (.advance firstPort false) ++
    .enter secondPort :: List.replicate 11 (.advance secondPort true)

theorem owner_never_lost_enterAndAbort :
    ((lock .w8).final enterAndAbort).pc firstPort = .critical ∧
      ((lock .w8).final enterAndAbort).pc secondPort = .idle ∧
      OwnerKept ((lock .w8).final enterAndAbort) :=
  ⟨by decide, by decide, owner_never_lost
    (Machine.reachable_final seqInRange (fun _ _ _ => id) enterAndAbort (by decide))⟩

end Lupin.Lock.Wport
