import Mathlib.Logic.Function.Basic
import Lupin.Lib.Transition
import Lupin.Lock.Word

/-!
# The recoverable ttas lock under crashes, reboots and lock transfer

One shared word, any number of machines with the same CPU count. A CPU takes the
lock with `ttas_lock_with_gen`, gives it back with `ttas_unlock`, or takes it
over from a crashed machine with `ttas_lock_recover`; every load, compare and
swap and store of these is one step. Machines crash at any step and reboot with
the next generation. `suspects` records whether a machine has crashed since an
observer last saw it alive, which is all an observer knows when it helps.

`ttas_lock_recover_kern` compares the owner's machine only, so a helper can take
the lock from an instance that has rebooted since. `mutual_exclusion_of_dead_owner`
states what the lock does guarantee.
-/

namespace Lupin.Lock.Ttas

open Lupin.Transition

/-- Where one CPU is in the lock's code. The generation is the one the caller
read from its machine before calling. -/
inductive Pc where
  | idle
  /-- `ttas_recover_with_gen`: the load that asks "do I hold it already?". -/
  | recoverCheck (gen : BitVec 32)
  /-- `ttas_enter_with_gen`: the load of the inner loop. -/
  | spin (gen : BitVec 32)
  /-- `ttas_enter_with_gen`: the compare and swap from `UNLOCKED`. -/
  | acquire (gen : BitVec 32)
  | critical
  /-- `ttas_lock_recover_kern`: its load of the word, helping `old`. -/
  | helpRead (old : Nat) (gen : BitVec 32)
  /-- `ttas_lock_recover_kern`: its compare and swap from the loaded word. -/
  | helpCas (lockState : BitVec 64) (gen : BitVec 32)
deriving DecidableEq

structure State (topology : Topology) where
  csst : BitVec 64
  up : Nat → Bool
  gen : Nat → Nat
  suspects : Nat → Nat → Bool
  pc : Cpu topology → Pc

inductive Action (topology : Topology) where
  /-- Call `ttas_lock_with_gen`. -/
  | lock (cpu : Cpu topology)
  /-- Call `ttas_lock_recover` for a machine that crashed since it was last seen. -/
  | recover (cpu : Cpu topology) (old : Nat)
  /-- The next atomic step of the code a CPU is in; in the critical section that
  is `ttas_unlock`. -/
  | advance (cpu : Cpu topology)
  | crash (machine : Nat)
  | reboot (machine : Nat)
  /-- An observer sees a machine alive. -/
  | see (observer machine : Nat)

variable {topology : Topology}

/-- The 32 bit generation a machine passes to the lock functions. -/
def State.genId (σ : State topology) (machine : Nat) : BitVec 32 :=
  BitVec.ofNat 32 (σ.gen machine)

def State.setPc (σ : State topology) (cpu : Cpu topology) (pc : Pc) : State topology :=
  { σ with pc := Function.update σ.pc cpu pc }

/-- `old_process_id` in `ttas_lock_recover_kern`. -/
def oldProcessId (lockState : BitVec 64) : BitVec 16 :=
  (getOwnerId (decomposeCsStatus lockState).s).setWidth 16

/-- `old_machine_id_on_lock` in `ttas_lock_recover_kern`. -/
def oldMachineIdOnLock (topology : Topology) (lockState : BitVec 64) : Nat :=
  (oldProcessId lockState).toNat / topology.nrCpuIds + 1

/-- The test before the transfer's compare and swap. -/
def transferable (topology : Topology) (lockState : BitVec 64) (newmProcessId : BitVec 16)
    (old : Nat) : Bool :=
  oldProcessId lockState == newmProcessId || lockState == unlocked ||
    oldMachineIdOnLock topology lockState == old

/-- One atomic step of the lock's code on `cpu`, whose identifier is `procId`. -/
def advanceCpu (σ : State topology) (cpu : Cpu topology) (procId : BitVec 16) :
    Option (State topology) :=
  match σ.pc cpu with
  | .idle => none
  | .recoverCheck gen =>
      if σ.csst = lockValWithGen procId gen then some (σ.setPc cpu .critical)
      else some (σ.setPc cpu (.spin gen))
  | .spin gen =>
      if σ.csst = unlocked then some (σ.setPc cpu (.acquire gen))
      else some σ
  | .acquire gen =>
      if σ.csst = unlocked then
        some { σ.setPc cpu .critical with csst := lockValWithGen procId gen }
      else some (σ.setPc cpu (.spin gen))
  | .critical => some { σ.setPc cpu .idle with csst := unlocked }
  | .helpRead old gen =>
      if transferable topology σ.csst procId old then
        some (σ.setPc cpu (.helpCas σ.csst gen))
      else some (σ.setPc cpu .idle)
  | .helpCas lockState gen =>
      if σ.csst = lockState then
        some { σ.setPc cpu .critical with csst := lockValWithGen procId gen }
      else some (σ.setPc cpu .idle)

/-- One step of the pool. A CPU without an identifier stops at `BUG_ON`, so its
code takes no step. -/
def step (σ : State topology) : Action topology → Option (State topology)
  | .lock cpu =>
      if σ.up cpu.machineId = true ∧ σ.pc cpu = .idle then
        some (σ.setPc cpu (.recoverCheck (σ.genId cpu.machineId)))
      else none
  | .recover cpu old =>
      if σ.up cpu.machineId = true ∧ σ.pc cpu = .idle ∧ σ.suspects cpu.machineId old = true then
        some (σ.setPc cpu (.helpRead old (σ.genId cpu.machineId)))
      else none
  | .advance cpu =>
      if σ.up cpu.machineId = true then
        match cpu.processId with
        | none => none
        | some procId => advanceCpu σ cpu procId
      else none
  | .crash machine =>
      if σ.up machine = true then
        some { σ with
          up := Function.update σ.up machine false
          suspects := fun observer other => other == machine || σ.suspects observer other
          pc := fun cpu => if cpu.machineId = machine then .idle else σ.pc cpu }
      else none
  | .reboot machine =>
      if σ.up machine = false then
        some { σ with
          up := Function.update σ.up machine true
          gen := Function.update σ.gen machine (σ.gen machine + 1) }
      else none
  | .see observer machine =>
      if σ.up observer = true ∧ σ.up machine = true then
        some { σ with suspects := fun seer other =>
          if seer = observer ∧ other = machine then false else σ.suspects seer other }
      else none

/-- The pool starting unlocked with every CPU outside the lock's code. -/
def pool (topology : Topology) (up : Nat → Bool) (gen : Nat → Nat) :
    Machine (State topology) (Action topology) where
  initial := ⟨unlocked, up, gen, fun _ _ => false, fun _ => .idle⟩
  step := step

/-- A CPU of an up machine is inside the critical section. -/
def InCritical (σ : State topology) (cpu : Cpu topology) : Prop :=
  σ.up cpu.machineId = true ∧ σ.pc cpu = .critical

/-- At most one CPU of an up machine is inside the critical section. -/
def MutualExclusion (σ : State topology) : Prop :=
  ∀ first second, InCritical σ first → InCritical σ second → first = second

/-- The lock word records the instance of a machine that is running now: the
machine is up, with the generation stored in the word. -/
def recordsLiveInstance (σ : State topology) : Bool :=
  σ.up (oldMachineIdOnLock topology σ.csst) &&
    getOwnerGen (decomposeCsStatus σ.csst).s ==
      (σ.genId (oldMachineIdOnLock topology σ.csst)).setWidth 64

/-- A step is fair to live owners: a helper that goes on to the compare and swap
has not read a word of a running instance, and no generation wraps around. -/
def deadOwnerOnly (σ : State topology) (action : Action topology) (_ : State topology) : Bool :=
  match action with
  | .advance cpu =>
      match σ.pc cpu, cpu.processId with
      | .helpRead old _, some procId =>
          !transferable topology σ.csst procId old || σ.csst == unlocked ||
            !recordsLiveInstance σ
      | _, _ => true
  | .reboot machine => decide (σ.gen machine + 1 < 2 ^ 32)
  | _ => true

/-! ## What a step can do -/

/-- The owner and generation of a word determine it. -/
theorem lockValWithGen_inj {procId procId' : BitVec 16} {gen gen' : BitVec 32}
    (equal : lockValWithGen procId gen = lockValWithGen procId' gen') :
    procId = procId' ∧ gen = gen' := by
  constructor
  · have ids := congrArg (fun word => getOwnerId (decomposeCsStatus word).s) equal
    simp only [getOwnerId_lockValWithGen] at ids
    have narrow := congrArg (fun word => word.setWidth 16) ids
    simpa using narrow
  · have gens := congrArg (fun word => getOwnerGen (decomposeCsStatus word).s) equal
    simp only [getOwnerGen_lockValWithGen] at gens
    have narrow := congrArg (fun word => word.setWidth 32) gens
    simpa using narrow

@[simp] theorem oldProcessId_lockValWithGen (procId : BitVec 16) (gen : BitVec 32) :
    oldProcessId (lockValWithGen procId gen) = procId := by
  simp [oldProcessId, getOwnerId_lockValWithGen]

theorem oldMachineIdOnLock_lockValWithGen {cpu : Cpu topology} {procId : BitVec 16}
    (issued : cpu.processId = some procId) (gen : BitVec 32) :
    oldMachineIdOnLock topology (lockValWithGen procId gen) = cpu.machineId := by
  unfold oldMachineIdOnLock
  rw [oldProcessId_lockValWithGen, machine_of_processId cpu issued]

/-- The generation a CPU inside the lock's code carries with it. -/
def Pc.carried : Pc → Option (BitVec 32)
  | .recoverCheck gen | .spin gen | .acquire gen | .helpRead _ gen | .helpCas _ gen => some gen
  | .idle | .critical => none

/-- Everything one step of the lock's code can do to the word and to its CPU. -/
inductive Effect (σ : State topology) (cpu : Cpu topology) (procId : BitVec 16) :
    State topology → Prop where
  | stay : Effect σ cpu procId σ
  /-- Move on inside the code, or leave it, with the word untouched. -/
  | move {pc : Pc} (notCritical : pc ≠ .critical)
      (notHelping : ∀ lockState gen, pc ≠ .helpCas lockState gen)
      (carries : ∀ gen, pc.carried = some gen → (σ.pc cpu).carried = some gen) :
      Effect σ cpu procId (σ.setPc cpu pc)
  | reenter {gen : BitVec 32} (owned : σ.csst = lockValWithGen procId gen)
      (current : σ.pc cpu = .recoverCheck gen) : Effect σ cpu procId (σ.setPc cpu .critical)
  | enter {gen : BitVec 32} (free : σ.csst = unlocked) (current : σ.pc cpu = .acquire gen) :
      Effect σ cpu procId { σ.setPc cpu .critical with csst := lockValWithGen procId gen }
  | leave (current : σ.pc cpu = .critical) :
      Effect σ cpu procId { σ.setPc cpu .idle with csst := unlocked }
  | help {old : Nat} {gen : BitVec 32} (current : σ.pc cpu = .helpRead old gen)
      (allowed : transferable topology σ.csst procId old = true) :
      Effect σ cpu procId (σ.setPc cpu (.helpCas σ.csst gen))
  | transfer {gen : BitVec 32} (current : σ.pc cpu = .helpCas σ.csst gen) :
      Effect σ cpu procId { σ.setPc cpu .critical with csst := lockValWithGen procId gen }

theorem advanceCpu_effect {σ next : State topology} {cpu : Cpu topology} {procId : BitVec 16}
    (taken : advanceCpu σ cpu procId = some next) : Effect σ cpu procId next := by
  unfold advanceCpu at taken
  cases current : σ.pc cpu with
  | idle => simp [current] at taken
  | recoverCheck gen =>
      simp only [current] at taken
      split at taken
      · rename_i owned
        exact Option.some.inj taken ▸ .reenter owned current
      · exact Option.some.inj taken ▸ .move (by simp) (by simp) (by simp [current, Pc.carried])
  | spin gen =>
      simp only [current] at taken
      split at taken
      · exact Option.some.inj taken ▸ .move (by simp) (by simp) (by simp [current, Pc.carried])
      · exact Option.some.inj taken ▸ .stay
  | acquire gen =>
      simp only [current] at taken
      split at taken
      · rename_i free
        exact Option.some.inj taken ▸ .enter free current
      · exact Option.some.inj taken ▸ .move (by simp) (by simp) (by simp [current, Pc.carried])
  | critical =>
      simp only [current] at taken
      exact Option.some.inj taken ▸ .leave current
  | helpRead old gen =>
      simp only [current] at taken
      split at taken
      · rename_i allowed
        exact Option.some.inj taken ▸ .help current allowed
      · exact Option.some.inj taken ▸ .move (by simp) (by simp) (by simp [current, Pc.carried])
  | helpCas lockState gen =>
      simp only [current] at taken
      split at taken
      · rename_i same
        subst same
        exact Option.some.inj taken ▸ .transfer current
      · exact Option.some.inj taken ▸ .move (by simp) (by simp) (by simp [current, Pc.carried])

/-! ## The invariant -/

/-- A word written by an instance of a machine, at most as new as the machine. -/
structure Recorded (σ : State topology) (word : BitVec 64) (cpu : Cpu topology) (gen : Nat) :
    Prop where
  owner : ∃ procId, cpu.processId = some procId ∧
    word = lockValWithGen procId (BitVec.ofNat 32 gen)
  notNewer : gen ≤ σ.gen cpu.machineId

/-- The instance that wrote the word runs no more. -/
def Gone (σ : State topology) (cpu : Cpu topology) (gen : Nat) : Prop :=
  gen < σ.gen cpu.machineId ∨ gen = σ.gen cpu.machineId ∧ σ.up cpu.machineId = false

structure Invariant (σ : State topology) : Prop where
  /-- A CPU inside the critical section owns the word with its machine's generation. -/
  holder : ∀ cpu, InCritical σ cpu → ∃ procId, cpu.processId = some procId ∧
    σ.csst = lockValWithGen procId (σ.genId cpu.machineId)
  recorded : σ.csst = unlocked ∨ ∃ cpu gen, Recorded σ σ.csst cpu gen
  /-- What a helper is about to swap out is free or belongs to an instance that is gone. -/
  helper : ∀ cpu lockState gen, σ.pc cpu = .helpCas lockState gen →
    lockState = unlocked ∨ ∃ owner old, Recorded σ lockState owner old ∧ Gone σ owner old
  carried : ∀ cpu gen, σ.up cpu.machineId = true → (σ.pc cpu).carried = some gen →
    gen = σ.genId cpu.machineId
  bounded : ∀ machine, σ.gen machine < 2 ^ 32
  /-- A down machine runs no code. -/
  stopped : ∀ cpu, σ.up cpu.machineId = false → σ.pc cpu = .idle

theorem Invariant.mutualExclusion {σ : State topology} (inv : Invariant σ) :
    MutualExclusion σ := by
  intro first second firstIn secondIn
  obtain ⟨firstId, firstIssued, firstWord⟩ := inv.holder first firstIn
  obtain ⟨secondId, secondIssued, secondWord⟩ := inv.holder second secondIn
  have same := (lockValWithGen_inj (firstWord.symm.trans secondWord)).1
  subst same
  exact processId_injective firstIssued secondIssued

/-- Nobody of an up machine is inside while the word is free. -/
theorem Invariant.none_of_unlocked {σ : State topology} (inv : Invariant σ)
    (free : σ.csst = unlocked) (cpu : Cpu topology) : ¬ InCritical σ cpu := by
  intro inside
  obtain ⟨procId, _, word⟩ := inv.holder cpu inside
  exact lockValWithGen_ne_unlocked _ _ (word.symm.trans free)

/-- Nobody of an up machine is inside while the word belongs to an instance that is gone. -/
theorem Invariant.none_of_gone {σ : State topology} (inv : Invariant σ)
    {owner : Cpu topology} {old : Nat} (written : Recorded σ σ.csst owner old)
    (gone : Gone σ owner old) (cpu : Cpu topology) : ¬ InCritical σ cpu := by
  intro inside
  obtain ⟨procId, issued, word⟩ := inv.holder cpu inside
  obtain ⟨ownerId, ownerIssued, ownerWord⟩ := written.owner
  obtain ⟨sameId, sameGen⟩ := lockValWithGen_inj (word.symm.trans ownerWord)
  subst sameId
  obtain rfl := processId_injective issued ownerIssued
  have values := congrArg BitVec.toNat sameGen
  simp only [State.genId, BitVec.toNat_ofNat] at values
  have bound := inv.bounded cpu.machineId
  have oldBound := written.notNewer
  rw [Nat.mod_eq_of_lt bound, Nat.mod_eq_of_lt (by omega)] at values
  rcases gone with older | ⟨_, down⟩
  · omega
  · simp [inside.1] at down

/-- What the guard leaves a helper with: a free word, or one of a gone instance. -/
theorem Invariant.gone_of_guard {σ : State topology} (inv : Invariant σ)
    (dead : σ.csst = unlocked ∨ recordsLiveInstance σ = false) :
    σ.csst = unlocked ∨ ∃ owner old, Recorded σ σ.csst owner old ∧ Gone σ owner old := by
  rcases dead with free | notLive
  · exact .inl free
  · rcases inv.recorded with free | ⟨owner, old, written⟩
    · exact .inl free
    · refine .inr ⟨owner, old, written, ?_⟩
      obtain ⟨ownerId, issued, word⟩ := written.owner
      unfold recordsLiveInstance at notLive
      rw [word, oldMachineIdOnLock_lockValWithGen issued, getOwnerGen_lockValWithGen] at notLive
      have older := written.notNewer
      by_cases equal : old = σ.gen owner.machineId
      · refine .inr ⟨equal, ?_⟩
        simpa [State.genId, equal] using notLive
      · exact .inl (by omega)

/-- A recorded word stays recorded, and gone instances stay gone, while
generations only grow and a machine that comes up does so with a new one. -/
theorem Recorded.mono {σ next : State topology} {word : BitVec 64} {cpu : Cpu topology} {gen : Nat}
    (written : Recorded σ word cpu gen)
    (grows : ∀ machine, σ.gen machine ≤ next.gen machine) : Recorded next word cpu gen :=
  ⟨written.owner, le_trans written.notNewer (grows _)⟩

theorem Gone.mono {σ next : State topology} {cpu : Cpu topology} {gen : Nat}
    (gone : Gone σ cpu gen)
    (grows : ∀ machine, σ.gen machine < next.gen machine ∨
      σ.gen machine = next.gen machine ∧ (σ.up machine = false → next.up machine = false)) :
    Gone next cpu gen := by
  rcases grows cpu.machineId with grown | ⟨same, stays⟩
  · rcases gone with older | ⟨equal, _⟩
    · exact .inl (by omega)
    · exact .inl (by omega)
  · rcases gone with older | ⟨equal, down⟩
    · exact .inl (by omega)
    · exact .inr ⟨by omega, stays down⟩

/-! ## Preservation -/

/-- One CPU moves and the word changes: the obligations a step of the code leaves. -/
theorem Invariant.update {σ : State topology} (inv : Invariant σ) {cpu : Cpu topology} {pc : Pc}
    {word : BitVec 64} (running : σ.up cpu.machineId = true)
    (holder : ∀ other, InCritical (σ.setPc cpu pc) other → ∃ procId,
      other.processId = some procId ∧ word = lockValWithGen procId (σ.genId other.machineId))
    (recorded : word = unlocked ∨ ∃ owner gen, Recorded σ word owner gen)
    (helper : ∀ lockState gen, pc = .helpCas lockState gen →
      lockState = unlocked ∨ ∃ owner old, Recorded σ lockState owner old ∧ Gone σ owner old)
    (carries : ∀ gen, pc.carried = some gen → gen = σ.genId cpu.machineId) :
    Invariant { σ.setPc cpu pc with csst := word } where
  holder := holder
  recorded := recorded.imp_right fun ⟨owner, gen, written⟩ =>
    ⟨owner, gen, written.mono fun _ => le_rfl⟩
  helper other lockState gen current := by
    have source : lockState = unlocked ∨
        ∃ owner old, Recorded σ lockState owner old ∧ Gone σ owner old := by
      by_cases same : other = cpu
      · subst same
        exact helper lockState gen (by simpa [State.setPc] using current)
      · exact inv.helper other lockState gen (by simpa [State.setPc, same] using current)
    exact source.imp_right fun ⟨owner, old, written, gone⟩ =>
      ⟨owner, old, written.mono fun _ => le_rfl, gone⟩
  carried other gen otherUp current := by
    by_cases same : other = cpu
    · subst same
      exact carries gen (by simpa [State.setPc] using current)
    · exact inv.carried other gen otherUp (by simpa [State.setPc, same] using current)
  bounded := inv.bounded
  stopped other down := by
    have different : other ≠ cpu := by
      rintro rfl
      simp [State.setPc, running] at down
    simpa [State.setPc, different] using inv.stopped other down

/-- Another CPU's place is not changed by a move of `cpu`. -/
theorem InCritical.of_setPc {σ : State topology} {cpu other : Cpu topology} {pc : Pc}
    (inside : InCritical (σ.setPc cpu pc) other) (different : other ≠ cpu) : InCritical σ other :=
  ⟨inside.1, by simpa [State.setPc, different] using inside.2⟩

theorem InCritical.ne_of_setPc {σ : State topology} {cpu other : Cpu topology} {pc : Pc}
    (inside : InCritical (σ.setPc cpu pc) other) (notCritical : pc ≠ .critical) : other ≠ cpu := by
  rintro rfl
  exact notCritical (by simpa [State.setPc] using inside.2)

/-- Moving a CPU outside the critical section leaves the word to its owner. -/
theorem Invariant.setPc {σ : State topology} (inv : Invariant σ) {cpu : Cpu topology} {pc : Pc}
    (running : σ.up cpu.machineId = true) (notCritical : pc ≠ .critical)
    (helper : ∀ lockState gen, pc = .helpCas lockState gen →
      lockState = unlocked ∨ ∃ owner old, Recorded σ lockState owner old ∧ Gone σ owner old)
    (carries : ∀ gen, pc.carried = some gen → gen = σ.genId cpu.machineId) :
    Invariant (σ.setPc cpu pc) :=
  inv.update running
    (fun other inside => inv.holder other (inside.of_setPc (inside.ne_of_setPc notCritical)))
    inv.recorded helper carries

/-- A CPU that finds or installs its own word while nobody else is inside enters alone. -/
theorem Invariant.install {σ : State topology} (inv : Invariant σ) {cpu : Cpu topology}
    {procId : BitVec 16} (running : σ.up cpu.machineId = true)
    (issued : cpu.processId = some procId)
    (alone : ∀ other, InCritical σ other → other = cpu) :
    Invariant { σ.setPc cpu .critical with
      csst := lockValWithGen procId (σ.genId cpu.machineId) } := by
  refine inv.update running (fun other inside => ?_)
    (.inr ⟨cpu, σ.gen cpu.machineId, ⟨procId, issued, rfl⟩, le_rfl⟩) (by simp)
    (by simp [Pc.carried])
  by_cases same : other = cpu
  · subst same
    exact ⟨procId, issued, rfl⟩
  · exact absurd (alone other (inside.of_setPc same)) same

/-- The unlock store of the CPU inside leaves nobody inside. -/
theorem Invariant.release {σ : State topology} (inv : Invariant σ) {cpu : Cpu topology}
    (inside : InCritical σ cpu) :
    Invariant { σ.setPc cpu .idle with csst := unlocked } := by
  refine inv.update inside.1 (fun other otherIn => ?_) (.inl rfl) (by simp) (by simp [Pc.carried])
  have different := otherIn.ne_of_setPc (by simp)
  exact absurd (inv.mutualExclusion other cpu (otherIn.of_setPc different) inside) different

/-- Every step of the lock's code keeps the invariant when a helper reads only
words of gone instances. -/
theorem Invariant.effect {σ next : State topology} (inv : Invariant σ) {cpu : Cpu topology}
    {procId : BitVec 16} (running : σ.up cpu.machineId = true)
    (issued : cpu.processId = some procId)
    (taken : Effect σ cpu procId next)
    (dead : ∀ old gen, σ.pc cpu = .helpRead old gen →
      transferable topology σ.csst procId old = true →
        σ.csst = unlocked ∨ recordsLiveInstance σ = false) : Invariant next := by
  cases taken with
  | stay => exact inv
  | @move pc notCritical notHelping carries =>
      exact inv.setPc running notCritical
        (fun lockState gen equal => absurd equal (notHelping lockState gen))
        (fun gen moved => inv.carried cpu gen running (carries gen moved))
  | @reenter gen owned current =>
      obtain rfl := inv.carried cpu gen running (by rw [current]; rfl)
      have entered := inv.install running issued (fun other inside => by
        obtain ⟨otherId, otherIssued, word⟩ := inv.holder other inside
        have same := (lockValWithGen_inj (word.symm.trans owned)).1
        subst same
        exact processId_injective otherIssued issued)
      rwa [← owned] at entered
  | @enter gen free current =>
      obtain rfl := inv.carried cpu gen running (by rw [current]; rfl)
      exact inv.install running issued
        (fun other inside => absurd inside (inv.none_of_unlocked free other))
  | leave current => exact inv.release ⟨running, current⟩
  | @help old gen current allowed =>
      refine inv.setPc running (by simp) (fun lockState helperGen equal => ?_)
        (fun carriedGen moved => inv.carried cpu carriedGen running ?_)
      · obtain ⟨rfl, -⟩ := Pc.helpCas.inj equal
        exact inv.gone_of_guard (dead old gen current allowed)
      · rw [current]
        exact moved
  | @transfer gen current =>
      obtain rfl := inv.carried cpu gen running (by rw [current]; rfl)
      refine inv.install running issued (fun other inside => absurd inside ?_)
      rcases inv.helper cpu _ _ current with free | ⟨owner, old, written, gone⟩
      · exact inv.none_of_unlocked free other
      · exact inv.none_of_gone written gone other

/-- A crash clears the machine's CPUs and loses nothing of the word. -/
theorem Invariant.crash {σ : State topology} (inv : Invariant σ) (machine : Nat) :
    Invariant { σ with
      up := Function.update σ.up machine false
      suspects := fun observer other => other == machine || σ.suspects observer other
      pc := fun cpu => if cpu.machineId = machine then .idle else σ.pc cpu } where
  holder cpu inside := by
    have notHere : cpu.machineId ≠ machine := by
      intro here
      simp [InCritical, here] at inside
    exact inv.holder cpu ⟨by simpa [notHere] using inside.1, by simpa [notHere] using inside.2⟩
  recorded := inv.recorded.imp_right fun ⟨owner, gen, written⟩ =>
    ⟨owner, gen, written.mono fun _ => le_rfl⟩
  helper cpu lockState gen current := by
    have before : σ.pc cpu = .helpCas lockState gen := by
      by_cases here : cpu.machineId = machine
      · simp [here] at current
      · simpa [here] using current
    refine (inv.helper cpu lockState gen before).imp_right fun ⟨owner, old, written, gone⟩ =>
      ⟨owner, old, written.mono fun _ => le_rfl, gone.mono fun other => .inr ⟨rfl, fun down => ?_⟩⟩
    by_cases here : other = machine
    · simp [here]
    · simpa [here] using down
  carried cpu gen running current := by
    have notHere : cpu.machineId ≠ machine := by
      intro here
      simp [here] at running
    exact inv.carried cpu gen (by simpa [notHere] using running) (by simpa [notHere] using current)
  bounded := inv.bounded
  stopped cpu down := by
    by_cases here : cpu.machineId = machine
    · simp [here]
    · simpa [here] using inv.stopped cpu (by simpa [here] using down)

/-- A reboot takes a new generation, so every word the machine left behind is
one of a gone instance. -/
theorem Invariant.reboot {σ : State topology} (inv : Invariant σ) {machine : Nat}
    (down : σ.up machine = false) (room : σ.gen machine + 1 < 2 ^ 32) :
    Invariant { σ with
      up := Function.update σ.up machine true
      gen := Function.update σ.gen machine (σ.gen machine + 1) } where
  holder cpu inside := by
    have notHere : cpu.machineId ≠ machine := by
      intro here
      have idle := inv.stopped cpu (by rw [here]; exact down)
      exact absurd (idle.symm.trans inside.2) (by simp)
    obtain ⟨procId, issued, word⟩ := inv.holder cpu
      ⟨by simpa [notHere] using inside.1, inside.2⟩
    exact ⟨procId, issued, by simpa [State.genId, notHere] using word⟩
  recorded := inv.recorded.imp_right fun ⟨owner, gen, written⟩ =>
    ⟨owner, gen, written.mono fun other => by
      by_cases here : other = machine
      · simp [here]
      · simp [here]⟩
  helper cpu lockState gen current :=
    (inv.helper cpu lockState gen current).imp_right fun ⟨owner, old, written, gone⟩ =>
      ⟨owner, old, written.mono fun other => by
          by_cases here : other = machine
          · simp [here]
          · simp [here],
        gone.mono fun other => by
          by_cases here : other = machine
          · exact .inl (by simp [here])
          · exact .inr ⟨by simp [here], by simp [here]⟩⟩
  carried cpu gen running current := by
    have notHere : cpu.machineId ≠ machine := by
      intro here
      have idle := inv.stopped cpu (by rw [here]; exact down)
      rw [show σ.pc cpu = .idle from idle] at current
      simp [Pc.carried] at current
    have before := inv.carried cpu gen (by simpa [notHere] using running) current
    simpa [State.genId, notHere] using before
  bounded other := by
    by_cases here : other = machine
    · simpa [here] using room
    · simpa [here] using inv.bounded other
  stopped cpu cpuDown := by
    have notHere : cpu.machineId ≠ machine := by
      intro here
      simp [here] at cpuDown
    exact inv.stopped cpu (by simpa [notHere] using cpuDown)

/-- One step of the pool that meets the guard keeps the invariant. -/
theorem Invariant.step {σ next : State topology} {action : Action topology}
    (inv : Invariant σ) (taken : step σ action = some next)
    (allowed : deadOwnerOnly σ action next = true) : Invariant next := by
  cases action with
  | lock cpu =>
      simp only [Ttas.step] at taken
      split at taken
      · rename_i enabled
        obtain rfl := Option.some.inj taken
        exact inv.setPc enabled.1 (by simp) (by simp) (by simp [Pc.carried])
      · simp at taken
  | recover cpu old =>
      simp only [Ttas.step] at taken
      split at taken
      · rename_i enabled
        obtain rfl := Option.some.inj taken
        exact inv.setPc enabled.1 (by simp) (by simp) (by simp [Pc.carried])
      · simp at taken
  | advance cpu =>
      simp only [Ttas.step] at taken
      split at taken
      · rename_i running
        cases issued : cpu.processId with
        | none => simp [issued] at taken
        | some procId =>
            simp only [issued] at taken
            refine inv.effect running issued (advanceCpu_effect taken)
              (fun old gen current transfers => ?_)
            simpa [deadOwnerOnly, current, issued, transfers] using allowed
      · simp at taken
  | crash machine =>
      simp only [Ttas.step] at taken
      split at taken
      · obtain rfl := Option.some.inj taken
        exact inv.crash machine
      · simp at taken
  | reboot machine =>
      simp only [Ttas.step] at taken
      split at taken
      · rename_i down
        obtain rfl := Option.some.inj taken
        exact inv.reboot down (by simpa [deadOwnerOnly] using allowed)
      · simp at taken
  | see observer machine =>
      simp only [Ttas.step] at taken
      split at taken
      · obtain rfl := Option.some.inj taken
        exact ⟨inv.holder, inv.recorded.imp_right fun ⟨owner, gen, written⟩ =>
            ⟨owner, gen, written.mono fun _ => le_rfl⟩,
          fun cpu lockState gen current => (inv.helper cpu lockState gen current).imp_right
            fun ⟨owner, old, written, gone⟩ =>
              ⟨owner, old, written.mono fun _ => le_rfl, gone⟩,
          inv.carried, inv.bounded, inv.stopped⟩
      · simp at taken

/-- The invariant holds in every state of a guarded run. -/
theorem invariant_of_reachable {up : Nat → Bool} {gen : Nat → Nat}
    (bounded : ∀ machine, gen machine < 2 ^ 32) {σ : State topology}
    (reached : (pool topology up gen).Reachable (fun σ a next => deadOwnerOnly σ a next = true) σ) :
    Invariant σ := by
  refine reached.invariant ?_ (fun inv taken allowed => inv.step taken allowed)
  exact {
    holder := fun cpu inside => absurd inside.2 (by simp [pool])
    recorded := .inl rfl
    helper := fun cpu lockState gen current => absurd current (by simp [pool])
    carried := fun cpu gen _ current => by simp [pool, Pc.carried] at current
    bounded := bounded
    stopped := fun cpu _ => rfl }

/-- Mutual exclusion along every run in which a helper's transfer never reads
the word of a running instance. -/
theorem mutual_exclusion_of_dead_owner {up : Nat → Bool} {gen : Nat → Nat}
    (bounded : ∀ machine, gen machine < 2 ^ 32) {σ : State topology}
    (reached : (pool topology up gen).Reachable (fun σ a next => deadOwnerOnly σ a next = true) σ) :
    MutualExclusion σ :=
  (invariant_of_reachable bounded reached).mutualExclusion

/-! ## Two machines with one CPU each -/

/-- Machine 1 takes the lock, crashes and reboots, and takes its own lock over. -/
def recoverOwnLock : List (Action uniprocessors) :=
  [.lock firstCpu, .advance firstCpu, .advance firstCpu, .advance firstCpu, .crash 1, .reboot 1,
    .recover firstCpu 1, .advance firstCpu, .advance firstCpu]

/-- Machine 2, which noticed the crash, then helps as well. -/
def helpTooLate : List (Action uniprocessors) :=
  recoverOwnLock ++ [.recover secondCpu 1, .advance secondCpu, .advance secondCpu]

def uniprocessorPool : Machine (State uniprocessors) (Action uniprocessors) :=
  pool uniprocessors (fun _ => true) (fun _ => 0)

/-- A run in which only the rebooted owner recovers meets the guard. -/
theorem mutual_exclusion_of_dead_owner_recovered :
    InCritical (uniprocessorPool.final recoverOwnLock) firstCpu ∧
      MutualExclusion (uniprocessorPool.final recoverOwnLock) :=
  ⟨by unfold InCritical; decide,
    mutual_exclusion_of_dead_owner (fun _ => by simp)
      (Machine.reachable_final deadOwnerOnly (fun _ _ _ => id) recoverOwnLock (by decide))⟩

/-- Without the guard two machines are inside at once: the helper compares the
owner's machine, which is the one it suspects, and not the generation. -/
theorem late_helper_robs_rebooted_owner :
    ¬ ∀ (topology : Topology) (up : Nat → Bool) (gen : Nat → Nat) (σ : State topology),
      (∀ machine, gen machine < 2 ^ 32) →
      (pool topology up gen).Reachable (fun _ _ _ => True) σ → MutualExclusion σ := by
  intro claimed
  have exclusive := claimed uniprocessors (fun _ => true) (fun _ => 0) _ (fun _ => by simp)
    (Machine.reachable_final (fun _ _ _ => true) (fun _ _ _ _ => trivial) helpTooLate (by decide))
  have same := exclusive firstCpu secondCpu (by unfold InCritical; decide)
    (by unfold InCritical; decide)
  exact absurd same (by decide)

end Lupin.Lock.Ttas
