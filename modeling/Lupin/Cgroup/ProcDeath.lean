import Mathlib.Data.BitVec
import Mathlib.Tactic.Common

/-!
# Words that report the death of a process

A process registers a logical id. When it dies, every machine gets a word with its pid
in bits 31-0 and the logical id in bits 47-32.
-/

namespace Lupin.Cgroup

/-! ## The words -/

def procdeathPidMask : BitVec 64 := 0xffffffff
def procdeathLogicalidMask : BitVec 64 := 0xff00000000

/-- `procdeath_get_pid`. -/
def procdeathGetPid (val : BitVec 64) : BitVec 32 :=
  ((val &&& procdeathPidMask) >>> 0).setWidth 32

/-- `procdeath_get_logicalid`. -/
def procdeathGetLogicalid (val : BitVec 64) : BitVec 16 :=
  ((val &&& procdeathLogicalidMask) >>> 32).setWidth 16

/-- `compose_procdeath`; a `pid_t` is signed. -/
def composeProcdeath (pid : BitVec 32) (logicalId : BitVec 16) : BitVec 64 :=
  pid.signExtend 64 <<< 0 ||| logicalId.setWidth 64 <<< 32

/-! ## Registration and notification -/

/-- The fields of `struct meta_dram` that notification reads. -/
structure Host where
  totalMachines : Nat
  machineId : Nat

/-- `struct vcxl_task_robust_node`; `task` is the address of the task. -/
structure RobustNode where
  task : Nat
  metaDram : Host
  userProcId : BitVec 16

/-- `do_register_process` by `current`: the chain of its bucket, and the result. -/
def doRegisterProcess (chain : List RobustNode) (metaDram : Host) (current : Nat)
    (uprocLogicalId : BitVec 16) : List RobustNode × Int :=
  let node : RobustNode := ⟨current, metaDram, uprocLogicalId⟩
  match chain.findIdx? (·.task = current) with
  | some i => (chain.set i node, 0)
  | none => (node :: chain, 0)

/-- Where a word goes: to the queue of another machine, or to the local listeners. -/
inductive Recipient where
  | machine (id : Nat)
  | local_
deriving DecidableEq

/-- The words `notify_proc_death_to_other_machine` sends for a task with this pid. -/
def notifyProcDeathToOtherMachine (chain : List RobustNode) (tsk : Nat) (proc : BitVec 32) :
    List (Recipient × BitVec 64) :=
  match chain.find? (·.task = tsk) with
  | none => []
  | some node =>
      (List.range node.metaDram.totalMachines).map fun i =>
        (if i + 1 ≠ node.metaDram.machineId then .machine (i + 1) else .local_,
          composeProcdeath proc node.userProcId)

/-! ## What arrives -/

section Words

variable (pid : BitVec 32) (logicalId : BitVec 16)

theorem procdeathGetPid_compose : procdeathGetPid (composeProcdeath pid logicalId) = pid := by
  ext i inside
  have mask : ∀ i < 32, procdeathPidMask.getLsbD i = true := by decide
  simp [procdeathGetPid, composeProcdeath, BitVec.getLsbD_signExtend, mask i inside, inside]
  omega

variable {pid} in
/-- Eight bits of the logical id come back. -/
theorem procdeathGetLogicalid_compose (notNegative : pid.msb = false) :
    procdeathGetLogicalid (composeProcdeath pid logicalId) = logicalId &&& 0xff := by
  refine BitVec.eq_of_getLsbD_eq fun i inside => ?_
  have mask : ∀ i < 16, procdeathLogicalidMask.getLsbD (32 + i) = (0xff#16).getLsbD i := by decide
  have high : 32 + i < 64 ∧ ¬ 32 + i < 32 ∧ i < 64 := by omega
  simp only [procdeathGetLogicalid, composeProcdeath, BitVec.getLsbD_setWidth,
    BitVec.getLsbD_ushiftRight, BitVec.getLsbD_and, BitVec.getLsbD_or, BitVec.shiftLeft_zero,
    BitVec.getLsbD_shiftLeft, BitVec.getLsbD_signExtend, notNegative, mask i inside]
  simp [high, inside]

end Words

theorem and_low_byte_eq_iff (logicalId : BitVec 16) :
    logicalId &&& 0xff = logicalId ↔ logicalId.toNat < 256 := by
  have low : (logicalId &&& 0xff).toNat = logicalId.toNat % 2 ^ 8 := by
    rw [BitVec.toNat_and]
    exact Nat.and_two_pow_sub_one_eq_mod _ 8
  rw [← BitVec.toNat_inj, low]
  omega

/-- The first element with a property is replaced by another one that has it. -/
theorem find?_set_findIdx? {α : Type} {property : α → Bool} {chain : List α} {i : Nat}
    (found : chain.findIdx? property = some i) {node : α} (holds : property node = true) :
    (chain.set i node).find? property = some node := by
  induction chain generalizing i with
  | nil => simp at found
  | cons first rest inductionHypothesis =>
      rw [List.findIdx?_cons] at found
      cases first? : property first with
      | true =>
          obtain rfl : 0 = i := by simpa [first?] using found
          rw [List.set_cons_zero, List.find?_cons_of_pos holds]
      | false =>
          obtain ⟨j, foundLater, rfl⟩ : ∃ j, rest.findIdx? property = some j ∧ j + 1 = i := by
            simpa [first?] using found
          rw [List.set_cons_succ, List.find?_cons_of_neg (by simp [first?])]
          exact inductionHypothesis foundLater

/-- A process that has registered is found by its own node. -/
theorem find_doRegisterProcess (chain : List RobustNode) (metaDram : Host) (current : Nat)
    (uprocLogicalId : BitVec 16) :
    (doRegisterProcess chain metaDram current uprocLogicalId).1.find? (·.task = current) =
      some ⟨current, metaDram, uprocLogicalId⟩ := by
  unfold doRegisterProcess
  cases found : chain.findIdx? (·.task = current) with
  | none => simp
  | some i => exact find?_set_findIdx? found (by simp)

/-- Every logical id can be registered, the words sent for the process are composed of it, and
pid and logical id come back from them exactly if the logical id is below 256. -/
theorem procdeath_roundtrips_iff {pid : BitVec 32} (notNegative : pid.msb = false)
    (logicalId : BitVec 16) (chain : List RobustNode) (metaDram : Host) (current : Nat) :
    (doRegisterProcess chain metaDram current logicalId).2 = 0 ∧
    (∀ notice ∈ notifyProcDeathToOtherMachine
        (doRegisterProcess chain metaDram current logicalId).1 current pid,
      notice.2 = composeProcdeath pid logicalId) ∧
    (procdeathGetPid (composeProcdeath pid logicalId) = pid ∧
        procdeathGetLogicalid (composeProcdeath pid logicalId) = logicalId ↔
      logicalId.toNat < 256) := by
  refine ⟨?_, ?_, ?_⟩
  · unfold doRegisterProcess
    split <;> rfl
  · intro notice sent
    rw [notifyProcDeathToOtherMachine, find_doRegisterProcess] at sent
    obtain ⟨i, _, rfl⟩ := List.mem_map.mp sent
    rfl
  · rw [procdeathGetPid_compose, procdeathGetLogicalid_compose logicalId notNegative,
      and_low_byte_eq_iff]
    exact and_iff_right rfl

theorem procdeath_roundtrips_iff_255 :
    procdeathGetPid (composeProcdeath 1234 255) = 1234 ∧
      procdeathGetLogicalid (composeProcdeath 1234 255) = 255 :=
  (procdeath_roundtrips_iff (by decide) 255 [] ⟨2, 1⟩ 4096).2.2.mpr (by decide)

/-- The mask of the logical id has eight bits: id 256 comes back as 0. -/
theorem logicalid_256_lost :
    (doRegisterProcess [] ⟨2, 1⟩ 4096 256).2 = 0 ∧
      notifyProcDeathToOtherMachine (doRegisterProcess [] ⟨2, 1⟩ 4096 256).1 4096 1234 =
        [(.local_, composeProcdeath 1234 256), (.machine 2, composeProcdeath 1234 256)] ∧
      procdeathGetLogicalid (composeProcdeath 1234 256) = 0 := by
  decide

end Lupin.Cgroup
