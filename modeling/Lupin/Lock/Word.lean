import Mathlib.Data.Nat.Bitwise
import Mathlib.Tactic.Common

/-!
# The ttas lock word and the identities stored in it

A locked ttas word carries the lock bit 62 and below it the owner: a 16 bit
process identifier, with a 32 bit generation under it in the recoverable
variant. Bit 63 is the dirty bit of the cache-line build and stays clear here.
-/

namespace Lupin.Lock

/-- The value of `csst` when nobody holds the lock. -/
def unlocked : BitVec 64 := 0

def csstBMask : BitVec 64 := 1#64 <<< 62
def csstSMask : BitVec 64 := (1#64 <<< 62) - 1

/-- `compose_cs_status`. -/
def composeCsStatus (b : Bool) (s : BitVec 64) : BitVec 64 :=
  if b then csstBMask ||| s else csstSMask &&& s

/-- The fields `decompose_cs_status` fills in. -/
structure CsStatus where
  b : BitVec 64
  s : BitVec 64

/-- `decompose_cs_status`. -/
def decomposeCsStatus (csStatus : BitVec 64) : CsStatus where
  b := csStatus &&& csstBMask
  s := csStatus &&& csstSMask

/-- `compose_owner_gen`: the owner above its generation. -/
def composeOwnerGen (procId : BitVec 16) (gen : BitVec 32) : BitVec 64 :=
  (procId.setWidth 64 <<< 32) ||| gen.setWidth 64

def ownerIdMask : BitVec 64 := 0xffff#64 <<< 32
def ownerGenMask : BitVec 64 := 0xffffffff#64

/-- The macro `GET_OWNER_ID`. -/
def getOwnerId (s : BitVec 64) : BitVec 64 := (s &&& ownerIdMask) >>> 32

/-- The macro `GET_OWNER_GEN`. -/
def getOwnerGen (s : BitVec 64) : BitVec 64 := s &&& ownerGenMask

/-- The word `ttas_enter_with_gen` installs. -/
def lockValWithGen (procId : BitVec 16) (gen : BitVec 32) : BitVec 64 :=
  composeCsStatus true (composeOwnerGen procId gen)

/-- The word `ttas_enter` installs: the identifier alone. -/
def lockVal (procId : BitVec 16) : BitVec 64 :=
  composeCsStatus true (procId.setWidth 64)

/-- A 64 bit mask is known from its bits inside the word. -/
theorem getLsbD_mask (mask : BitVec 64) (range : Nat → Bool)
    (inside : ∀ i < 64, mask.getLsbD i = range i) (outside : ∀ i, 64 ≤ i → range i = false)
    (i : Nat) : mask.getLsbD i = range i := by
  by_cases inWord : i < 64
  · exact inside i inWord
  · rw [BitVec.getLsbD_of_ge _ _ (by omega), outside i (by omega)]

private theorem getLsbD_csstSMask (i : Nat) : csstSMask.getLsbD i = decide (i < 62) :=
  getLsbD_mask csstSMask (fun i => decide (i < 62)) (by decide) (fun i high => by simp; omega) i

private theorem getLsbD_csstBMask (i : Nat) : csstBMask.getLsbD i = decide (i = 62) :=
  getLsbD_mask csstBMask (fun i => decide (i = 62)) (by decide) (fun i high => by simp; omega) i

/-- A sequence number or an owner in range is read back from the composed word. -/
theorem decompose_composeCsStatus {s : BitVec 64} (b : Bool) (bound : s.toNat < 2 ^ 62) :
    decomposeCsStatus (composeCsStatus b s) = ⟨if b then csstBMask else 0, s⟩ := by
  have high : ∀ i, 62 ≤ i → s.getLsbD i = false := fun i above =>
    Nat.testBit_eq_false_of_lt (lt_of_lt_of_le bound (Nat.pow_le_pow_right (by decide) above))
  have flag : composeCsStatus b s &&& csstBMask = if b then csstBMask else 0 := by
    apply BitVec.eq_of_getLsbD_eq
    intro i _
    rw [BitVec.getLsbD_and, getLsbD_csstBMask]
    by_cases bit : i = 62
    · subst bit
      cases b with
      | false =>
          have noFlag : csstSMask.getLsbD 62 = false := getLsbD_csstSMask 62
          rw [composeCsStatus, if_neg Bool.false_ne_true, BitVec.getLsbD_and, noFlag]
          simp
      | true => simp [composeCsStatus, getLsbD_csstBMask]
    · cases b <;> simp [getLsbD_csstBMask, bit]
  have value : composeCsStatus b s &&& csstSMask = s := by
    apply BitVec.eq_of_getLsbD_eq
    intro i _
    by_cases low : i < 62
    · have noFlag : i ≠ 62 := by omega
      cases b <;> simp [composeCsStatus, getLsbD_csstBMask, getLsbD_csstSMask, low, noFlag]
    · rw [high i (by omega)]
      simp [getLsbD_csstSMask, low]
  rw [decomposeCsStatus, flag, value]

private theorem getLsbD_ownerIdMask (i : Nat) :
    ownerIdMask.getLsbD i = decide (32 ≤ i ∧ i < 48) :=
  getLsbD_mask ownerIdMask (fun i => decide (32 ≤ i ∧ i < 48)) (by decide)
    (fun i high => by simp; omega) i

private theorem getLsbD_ownerGenMask (i : Nat) : ownerGenMask.getLsbD i = decide (i < 32) :=
  getLsbD_mask ownerGenMask (fun i => decide (i < 32)) (by decide)
    (fun i high => by simp; omega) i

/-- The owner is read back from the word it was locked with. -/
theorem getOwnerId_lockValWithGen (procId : BitVec 16) (gen : BitVec 32) :
    getOwnerId (decomposeCsStatus (lockValWithGen procId gen)).s = procId.setWidth 64 := by
  apply BitVec.eq_of_getLsbD_eq
  intro i bounded
  simp only [getOwnerId, decomposeCsStatus, lockValWithGen, composeCsStatus, composeOwnerGen,
    if_true, BitVec.getLsbD_ushiftRight, BitVec.getLsbD_and, BitVec.getLsbD_or,
    BitVec.getLsbD_shiftLeft, BitVec.getLsbD_setWidth, getLsbD_csstSMask,
    getLsbD_ownerIdMask, getLsbD_csstBMask]
  by_cases low : i < 16
  · have noBit : ¬ 32 + i = 62 := by omega
    have inMask : 32 + i < 62 ∧ 32 + i < 48 ∧ 32 + i < 64 ∧ ¬ 32 + i < 32 := by omega
    simp [noBit, inMask, bounded]
  · have noId : procId.getLsbD i = false := BitVec.getLsbD_of_ge _ _ (by omega)
    have outside : ¬ 32 + i < 48 := by omega
    simp [noId, outside]

/-- The generation is read back from the word it was locked with. -/
theorem getOwnerGen_lockValWithGen (procId : BitVec 16) (gen : BitVec 32) :
    getOwnerGen (decomposeCsStatus (lockValWithGen procId gen)).s = gen.setWidth 64 := by
  apply BitVec.eq_of_getLsbD_eq
  intro i bounded
  simp only [getOwnerGen, decomposeCsStatus, lockValWithGen, composeCsStatus, composeOwnerGen,
    if_true, BitVec.getLsbD_and, BitVec.getLsbD_or, BitVec.getLsbD_shiftLeft,
    BitVec.getLsbD_setWidth, getLsbD_csstSMask, getLsbD_ownerGenMask, getLsbD_csstBMask]
  by_cases low : i < 32
  · have noBit : ¬ i = 62 := by omega
    have inMask : i < 62 := by omega
    simp [noBit, inMask, low, bounded]
  · have noGen : gen.getLsbD i = false := BitVec.getLsbD_of_ge _ _ (by omega)
    simp [noGen, low]

/-- A word with the lock bit is not the unlocked word. -/
theorem composeCsStatus_ne_unlocked (s : BitVec 64) : composeCsStatus true s ≠ unlocked := by
  intro equal
  have bit := congrArg (fun word => word.getLsbD 62) equal
  simp only [composeCsStatus, unlocked, if_true, BitVec.getLsbD_or, getLsbD_csstBMask] at bit
  simp at bit

theorem lockValWithGen_ne_unlocked (procId : BitVec 16) (gen : BitVec 32) :
    lockValWithGen procId gen ≠ unlocked :=
  composeCsStatus_ne_unlocked _

theorem lockVal_ne_unlocked (procId : BitVec 16) : lockVal procId ≠ unlocked :=
  composeCsStatus_ne_unlocked _

/-- The CPUs of a pool: every participating machine has the same number of them,
and the product with a 16 bit machine id stays in 32 bits. -/
structure Topology where
  nrCpuIds : Nat
  positive : 0 < nrCpuIds
  bounded : nrCpuIds ≤ 65536

/-- `get_process_identifier` for CPU `cpuId` and a machine id of at least 1;
`none` is the refusal of more than `U16_MAX` CPUs in total. -/
def getProcessIdentifier (topology : Topology) (machineId cpuId : Nat) : Option (BitVec 16) :=
  let cpuGlobalId := (topology.nrCpuIds * (machineId - 1) + cpuId) % 2 ^ 32
  if cpuGlobalId > 65535 then none else some (BitVec.ofNat 16 cpuGlobalId)

/-- A CPU of some participating machine. -/
structure Cpu (topology : Topology) where
  machineId : Nat
  cpuId : Nat
  machineId_pos : 1 ≤ machineId
  machineId_lt : machineId < 65536
  cpuId_lt : cpuId < topology.nrCpuIds
deriving DecidableEq

namespace Cpu

variable {topology : Topology}

@[ext] theorem ext {left right : Cpu topology} (machines : left.machineId = right.machineId)
    (cpus : left.cpuId = right.cpuId) : left = right := by
  cases left
  cases right
  cases machines
  cases cpus
  rfl

/-- The identifier a CPU derives for itself under its own machine id. -/
def processId (cpu : Cpu topology) : Option (BitVec 16) :=
  getProcessIdentifier topology cpu.machineId cpu.cpuId

end Cpu

/-! Machines with one CPU each, and the CPUs of the first three. -/

def uniprocessors : Topology := ⟨1, by decide, by decide⟩

def firstCpu : Cpu uniprocessors := ⟨1, 0, by decide, by decide, by decide⟩
def secondCpu : Cpu uniprocessors := ⟨2, 0, by decide, by decide, by decide⟩
def thirdCpu : Cpu uniprocessors := ⟨3, 0, by decide, by decide, by decide⟩

/-- The value of an issued identifier, with no wrap-around left in it. -/
theorem toNat_of_getProcessIdentifier {topology : Topology} {machineId cpuId : Nat}
    {procId : BitVec 16} (machineBound : machineId < 65536)
    (cpuBound : cpuId < topology.nrCpuIds)
    (issued : getProcessIdentifier topology machineId cpuId = some procId) :
    procId.toNat = topology.nrCpuIds * (machineId - 1) + cpuId := by
  have product : topology.nrCpuIds * (machineId - 1) ≤ 65536 * 65534 :=
    Nat.mul_le_mul topology.bounded (by omega)
  have noWrap : topology.nrCpuIds * (machineId - 1) + cpuId < 2 ^ 32 := by
    have := topology.bounded
    omega
  unfold getProcessIdentifier at issued
  simp only [Nat.mod_eq_of_lt noWrap] at issued
  split at issued
  · exact absurd issued (by simp)
  · rename_i small
    have value := Option.some.inj issued
    rw [← value, BitVec.toNat_ofNat]
    exact Nat.mod_eq_of_lt (by omega)

/-- `old_process_id / nr_cpu_ids + 1` recovers the machine of an identifier. -/
theorem machine_of_processId {topology : Topology} (cpu : Cpu topology) {procId : BitVec 16}
    (issued : cpu.processId = some procId) :
    procId.toNat / topology.nrCpuIds + 1 = cpu.machineId := by
  have value := toNat_of_getProcessIdentifier cpu.machineId_lt cpu.cpuId_lt issued
  rw [value, Nat.add_comm (topology.nrCpuIds * _), Nat.add_mul_div_left _ _ topology.positive,
    Nat.div_eq_of_lt cpu.cpuId_lt]
  have := cpu.machineId_pos
  omega

/-- Different CPUs have different identifiers. -/
theorem processId_injective {topology : Topology} {left right : Cpu topology}
    {procId : BitVec 16} (leftIssued : left.processId = some procId)
    (rightIssued : right.processId = some procId) : left = right := by
  have machines : left.machineId = right.machineId := by
    rw [← machine_of_processId left leftIssued, ← machine_of_processId right rightIssued]
  have leftValue := toNat_of_getProcessIdentifier left.machineId_lt left.cpuId_lt leftIssued
  have rightValue := toNat_of_getProcessIdentifier right.machineId_lt right.cpuId_lt rightIssued
  apply Cpu.ext machines
  rw [machines] at leftValue
  omega

end Lupin.Lock
