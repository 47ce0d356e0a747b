import Lupin.Cgroup.Groups

/-!
# Members that fail and members that are swept

`notify_proc_failure` takes a process out of the table and reports it;
`recover_cxlcg_meta` takes out what the machine has left there before it went down. Both
look at the entries that are in use only, and the first of them matches tasks by an
address that means something on one machine only.
-/

namespace Lupin.Cgroup

open Lupin.Transition

/-- `VCXL_MAX_SUPPORTED_MACHINES`. -/
def vcxlMaxSupportedMachines : Nat := 16

def msgTypeProcFailure : Word := 2

/-! ## The operations -/

/-- The message about a member that has failed. -/
def procFailureMsg (procId : GlobalProcId) : Word :=
  setMsgType (setProcId procId.osii procId.localProcId) msgTypeProcFailure

/-- The comparison of a slot with the group leader of a task. -/
def MemberProc.ledBy (slot : MemberProc) (groupLeader : Nat) : Bool :=
  slot.inUse && slot.tsk == some groupLeader

/-- The slot `notify_proc_failure` finds: the first in use with this group leader, in the first
entry in use that has one. -/
def failureSlot (t : Table) (groupLeader : Nat) : Option (Fin maxGroupNum × Fin maxProcPerGroup) :=
  (List.finRange maxGroupNum).findSome? fun g =>
    if (t g).inUse then ((t g).findSlot (·.ledBy groupLeader)).map (g, ·) else none

/-- `notify_proc_failure` for a task with this group leader: the table after the call and the
message. -/
def notifyProcFailure (t : Table) (groupLeader : Nat) : Table × Option Word :=
  match failureSlot t groupLeader with
  | none => (t, none)
  | some (g, i) =>
      (t.setSlot g i { (t g).procs i with inUse := false, tsk := none },
        some (procFailureMsg ((t g).procs i).procId))

/-- The loop of `recover_cxlcg_meta` over the slots of an entry. -/
def CxlcgEntry.sweep (entry : CxlcgEntry) (machineId : BitVec 32) : CxlcgEntry :=
  { entry with
    procs := fun i =>
      if (entry.procs i).inUse && getOsId (entry.procs i).procId.osii == machineId then
        MemberProc.zero
      else entry.procs i }

/-- The part of `recover_cxlcg_meta` that removes dead processes. -/
def recoverCxlcgMeta (t : Table) (machineId : BitVec 32) : Table := fun g =>
  if (t g).inUse then (t g).sweep machineId else t g

/-- What machines do to the table. -/
inductive TableAction where
  | request (request : Request)
  | procFailure (groupLeader : Nat)

/-- Requests and process failures, one after the other. -/
def tableMachine : Machine Table TableAction where
  initial := fun _ => CxlcgEntry.zero
  step t
    | .request request => some (t.after request)
    | .procFailure groupLeader => some (notifyProcFailure t groupLeader).1

/-! ## The message -/

/-- The message is about this member. -/
structure Identifies (msg : Word) (machineId : Nat) (gen : BitVec 32) (localProcId : Word) :
    Prop where
  msgType : getMsgType msg = msgTypeProcFailure.setWidth 32
  osId : (getOsId msg).toNat = machineId
  genId : getGenId msg = gen
  procId : localProcId.toNat < 2 ^ 16 → (getProcId msg).toNat = localProcId.toNat

section Message

variable {machineId : Nat} (small : machineId ≤ vcxlMaxSupportedMachines) (gen : BitVec 32)
  (localProcId : Word)

include small

theorem toNat_procFailureMsg :
    (procFailureMsg ⟨osiiOf machineId gen, localProcId⟩).toNat =
      (machineId * 2 ^ 48 + gen.toNat + localProcId.toNat * 2 ^ 32) % 2 ^ 62 + 2 ^ 63 := by
  have genBound := gen.isLt
  have osii := toNat_osiiOf (lt_of_le_of_lt small (by decide)) gen
  have two : msgTypeProcFailure.toNat = 2 := rfl
  rw [procFailureMsg, toNat_setMsgType, toNat_setProcId (by rw [osii]; omega), osii, two]
  dsimp only
  omega

/-- The local process id runs into the OS id above it. -/
theorem identifies_procFailureMsg_iff :
    Identifies (procFailureMsg ⟨osiiOf machineId gen, localProcId⟩) machineId gen localProcId ↔
      localProcId.toNat / 2 ^ 16 % 2 ^ 14 = 0 := by
  have genBound := gen.isLt
  have msg := toNat_procFailureMsg small gen localProcId
  have osId := toNat_getOsId (procFailureMsg ⟨osiiOf machineId gen, localProcId⟩)
  unfold vcxlMaxSupportedMachines at small
  rw [msg] at osId
  constructor
  · intro identifies
    have same := identifies.osId
    omega
  · intro inside
    refine ⟨BitVec.eq_of_toNat_eq ?_, by omega, BitVec.eq_of_toNat_eq ?_, fun fits => ?_⟩
    · rw [toNat_getMsgType, msg]
      change _ = 2
      omega
    · rw [toNat_getGenId, msg]
      omega
    · rw [toNat_getProcId, msg]
      omega

end Message

/-- The message about a member that joined on a machine identifies it exactly if bits 29-16 of
its local process id are zero. -/
theorem failure_message_identifies_iff {machineId : Nat}
    (small : machineId ≤ vcxlMaxSupportedMachines) (gen : BitVec 32) (localProcId : Word)
    {t : Table} {groupLeader : Nat} {g : Fin maxGroupNum} {i : Fin maxProcPerGroup}
    (found : failureSlot t groupLeader = some (g, i))
    (joined : ((t g).procs i).procId = ⟨osiiOf machineId gen, localProcId⟩) :
    ∃ msg, (notifyProcFailure t groupLeader).2 = some msg ∧
      (Identifies msg machineId gen localProcId ↔ localProcId.toNat / 2 ^ 16 % 2 ^ 14 = 0) := by
  refine ⟨_, ?_, identifies_procFailureMsg_iff small gen localProcId⟩
  rw [notifyProcFailure, found, ← joined]

def firstSlot : Fin maxProcPerGroup := ⟨0, by decide⟩

/-- The table in which a process of machine 2 has joined a group, with this local id. -/
def joinedTable (localProcId : Word) : Table :=
  tableMachine.final [.request (.create [65, 0]),
    .request (.join (osiiOf 2 7) 4096 [65, 0] localProcId)]

theorem failure_message_identifies_iff_1234 :
    ∃ msg, (notifyProcFailure (joinedTable 1234) 4096).2 = some msg ∧
      Identifies msg 2 7 1234 := by
  obtain ⟨msg, sent, identifies⟩ := @failure_message_identifies_iff 2 (by decide) 7 1234
    (joinedTable 1234) 4096 (groupOf [65, 0]) firstSlot (by decide +kernel) (by decide +kernel)
  exact ⟨msg, sent, identifies.mpr (by decide)⟩

/-- Local id 65536 of a process on machine 2 is reported as one of machine 3. -/
theorem large_localProcId_names_other_machine :
    ((notifyProcFailure (joinedTable 65536) 4096).2.map fun msg =>
      (getMsgType msg, getOsId msg, getGenId msg)) = some (2, 3, 7) := by
  decide +kernel

/-! ## Which slots a failure takes out of use -/

abbrev SlotIndex := Fin maxGroupNum × Fin maxProcPerGroup

def Table.slot (t : Table) (s : SlotIndex) : MemberProc := (t s.1).procs s.2

/-- The slot and its entry are in use, with this group leader. -/
def Matches (t : Table) (groupLeader : Nat) (s : SlotIndex) : Prop :=
  (t s.1).inUse = true ∧ (t.slot s).inUse = true ∧ (t.slot s).tsk = some groupLeader

/-- The member in the slot is of this machine. -/
def OwnedBy (t : Table) (machineId : BitVec 32) (s : SlotIndex) : Prop :=
  getOsId (t.slot s).procId.osii = machineId

/-- The order of the loops over the table. -/
def SlotIndex.Before (s s' : SlotIndex) : Prop := s.1 < s'.1 ∨ s.1 = s'.1 ∧ s.2 ≤ s'.2

/-- The failure takes the machine's own members with this group leader out of use, and changes
no other slot. -/
def RemovesExactly (t : Table) (groupLeader : Nat) (machineId : BitVec 32) : Prop :=
  ∀ s, (Matches t groupLeader s ∧ OwnedBy t machineId s →
      ((notifyProcFailure t groupLeader).1.slot s).inUse = false) ∧
    (¬ (Matches t groupLeader s ∧ OwnedBy t machineId s) →
      (notifyProcFailure t groupLeader).1.slot s = t.slot s)

section Search

variable {t : Table} {groupLeader : Nat} {s s' : SlotIndex}

theorem SlotIndex.Before.antisymm (forth : s.Before s') (back : s'.Before s) : s = s' := by
  obtain ⟨g, i⟩ := s
  obtain ⟨g', i'⟩ := s'
  unfold SlotIndex.Before at forth back
  dsimp only at forth back
  rw [Prod.mk.injEq, Fin.ext_iff, Fin.ext_iff]
  omega

/-- The first index with a property in a range. -/
theorem find?_finRange_le {n : Nat} {property : Fin n → Bool} {i j : Fin n}
    (found : (List.finRange n).find? property = some i) (holds : property j = true) : i ≤ j := by
  obtain ⟨_, before, behind, whole, others⟩ := List.find?_eq_some_iff_append.mp found
  have ordered := List.pairwise_lt_finRange n
  have member := List.mem_finRange j
  rw [whole] at ordered member
  rcases List.mem_append.mp member with earlier | later
  · have := others j earlier
    simp [holds] at this
  · rcases List.mem_cons.mp later with rfl | later
    · exact le_rfl
    · exact (List.rel_of_pairwise_cons (List.pairwise_append.mp ordered).2.1 later).le

theorem ledBy_iff {slot : MemberProc} :
    slot.ledBy groupLeader = true ↔ slot.inUse = true ∧ slot.tsk = some groupLeader := by
  rw [MemberProc.ledBy, Bool.and_eq_true, beq_iff_eq]

theorem failureSlot_eq_none (found : failureSlot t groupLeader = none) :
    ¬ Matches t groupLeader s := by
  rintro ⟨entryUsed, used, leader⟩
  have empty := List.findSome?_eq_none_iff.mp found s.1 (List.mem_finRange _)
  rw [if_pos entryUsed, Option.map_eq_none_iff, CxlcgEntry.findSlot_eq_none] at empty
  have holds : (t.slot s).ledBy groupLeader = true := ledBy_iff.mpr ⟨used, leader⟩
  exact absurd (holds.symm.trans (empty s.2)) (by decide)

/-- The slot that is found is the first match. -/
theorem failureSlot_eq_some (found : failureSlot t groupLeader = some s) :
    Matches t groupLeader s ∧ ∀ s', Matches t groupLeader s' → s.Before s' := by
  obtain ⟨before, g, behind, whole, here, others⟩ := List.findSome?_eq_some_iff.mp found
  have entryUsed : (t g).inUse = true := by
    by_contra unused
    simp [unused] at here
  rw [if_pos entryUsed] at here
  obtain ⟨i, first, rfl⟩ := Option.map_eq_some_iff.mp here
  refine ⟨⟨entryUsed, ledBy_iff.mp (CxlcgEntry.findSlot_eq_some first)⟩,
    fun s' ⟨entryUsed', led⟩ => ?_⟩
  have holds : ((t s'.1).procs s'.2).ledBy groupLeader = true := ledBy_iff.mpr led
  have ordered := List.pairwise_lt_finRange maxGroupNum
  have member := List.mem_finRange s'.1
  rw [whole] at ordered member
  rcases List.mem_append.mp member with earlier | later
  · -- the search has passed the entries before
    have none_ := others s'.1 earlier
    rw [if_pos entryUsed', Option.map_eq_none_iff, CxlcgEntry.findSlot_eq_none] at none_
    exact absurd (holds.symm.trans (none_ s'.2)) (by decide)
  · rcases List.mem_cons.mp later with same | later
    · refine .inr ⟨same.symm, ?_⟩
      rw [same] at holds
      exact find?_finRange_le first holds
    · exact .inl (List.rel_of_pairwise_cons (List.pairwise_append.mp ordered).2.1 later)

theorem notifyProcFailure_slot (found : failureSlot t groupLeader = some s) :
    ((notifyProcFailure t groupLeader).1.slot s).inUse = false ∧
      ∀ s', s' ≠ s → (notifyProcFailure t groupLeader).1.slot s' = t.slot s' := by
  rw [notifyProcFailure, found]
  refine ⟨by simp [Table.slot, Table.setSlot_procs], fun s' other => ?_⟩
  by_cases group : s'.1 = s.1
  · have index : s'.2 ≠ s.2 := fun same => other (Prod.ext group same)
    simp [Table.slot, Table.setSlot, group, index]
  · simp only [Table.slot, t.setSlot_of_ne _ _ group]

end Search

/-- A process failure removes exactly the machine's own members with this group leader if and
only if there is at most one of them, and no other machine's member with the same address
comes before it in the table. -/
theorem process_failure_removes_exactly_iff (t : Table) (groupLeader : Nat)
    (machineId : BitVec 32) :
    RemovesExactly t groupLeader machineId ↔
      (∀ s s', Matches t groupLeader s → OwnedBy t machineId s →
        Matches t groupLeader s' → OwnedBy t machineId s' → s = s') ∧
      ∀ s, Matches t groupLeader s →
        ∃ s', Matches t groupLeader s' ∧ OwnedBy t machineId s' ∧ s'.Before s := by
  cases found : failureSlot t groupLeader with
  | none =>
      have noMatch : ∀ s, ¬ Matches t groupLeader s := fun s => failureSlot_eq_none found
      have same : (notifyProcFailure t groupLeader).1 = t := by rw [notifyProcFailure, found]
      refine iff_of_true (fun s => ⟨fun own => absurd own.1 (noMatch s), fun _ => by rw [same]⟩)
        ⟨fun s _ isMatch => absurd isMatch (noMatch s), fun s isMatch => absurd isMatch (noMatch s)⟩
  | some first =>
      obtain ⟨isMatch, earliest⟩ := failureSlot_eq_some found
      obtain ⟨removed, others⟩ := notifyProcFailure_slot found
      constructor
      · intro removes
        have own : OwnedBy t machineId first := by
          by_contra foreign
          rw [(removes first).2 fun both => foreign both.2, isMatch.2.1] at removed
          exact absurd removed Bool.true_eq_false_eq_False
        have only : ∀ s, Matches t groupLeader s → OwnedBy t machineId s → s = first := by
          intro s matches_ owned
          by_contra other
          have out := (removes s).1 ⟨matches_, owned⟩
          rw [others s other, matches_.2.1] at out
          exact absurd out Bool.true_eq_false_eq_False
        refine ⟨fun s s' matches_ owned matches' owned' =>
          (only s matches_ owned).trans (only s' matches' owned').symm, fun s matches_ =>
          ⟨first, isMatch, own, earliest s matches_⟩⟩
      · rintro ⟨single, preceded⟩ s
        obtain ⟨s', matches', owned', before⟩ := preceded first isMatch
        obtain rfl := (earliest s' matches').antisymm before
        refine ⟨fun ⟨matches_, owned⟩ => ?_, fun other => others s ?_⟩
        · rw [single s first matches_ owned isMatch owned']
          exact removed
        · rintro rfl
          exact other ⟨isMatch, owned'⟩

/-- A process in two groups stays in the second; a process of another machine with the same
address is removed instead. -/
theorem process_failure_misses_members :
    (let t := tableMachine.final [.request (.create [65, 0]), .request (.create [66, 0]),
        .request (.join (osiiOf 1 0) 4096 [65, 0] 7), .request (.join (osiiOf 1 0) 4096 [66, 0] 7)]
      let s : SlotIndex := (groupOf [66, 0], firstSlot)
      (t s.1).inUse = true ∧ getOsId (t.slot s).procId.osii = 1 ∧
        (t.slot s).tsk = some 4096 ∧ ((notifyProcFailure t 4096).1.slot s).inUse = true) ∧
    (let t := tableMachine.final [.request (.create [65, 0]),
        .request (.join (osiiOf 2 0) 4096 [65, 0] 9), .request (.join (osiiOf 1 0) 4096 [65, 0] 7)]
      let s : SlotIndex := (groupOf [65, 0], firstSlot)
      getOsId (t.slot s).procId.osii = 2 ∧ (t.slot s).inUse = true ∧
        ((notifyProcFailure t 4096).1.slot s).inUse = false) := by
  decide +kernel

/-! ## What a recovery leaves behind -/

/-- No member in use is of the machine. -/
def Cleared (t : Table) (machineId : BitVec 32) : Prop :=
  ∀ s, (t.slot s).inUse = true → ¬ OwnedBy t machineId s

theorem CxlcgEntry.sweep_procs (entry : CxlcgEntry) (machineId : BitVec 32)
    {i : Fin maxProcPerGroup} (used : ((entry.sweep machineId).procs i).inUse = true) :
    getOsId ((entry.sweep machineId).procs i).procId.osii ≠ machineId := by
  unfold CxlcgEntry.sweep at used ⊢
  dsimp only at used ⊢
  split at used
  · exact absurd used (by decide)
  · rename_i kept
    rw [if_neg kept]
    rw [Bool.and_eq_true, beq_iff_eq] at kept
    exact fun own => kept ⟨used, own⟩

/-- A recovery clears the memberships of the machine exactly if the entries that are not in use
had none. -/
theorem recovery_clears_memberships_iff (t : Table) (machineId : BitVec 32) :
    Cleared (recoverCxlcgMeta t machineId) machineId ↔
      ∀ s, (t s.1).inUse = false → (t.slot s).inUse = true → ¬ OwnedBy t machineId s := by
  constructor
  · intro cleared s unused used
    have same : (recoverCxlcgMeta t machineId).slot s = t.slot s := by
      simp [Table.slot, recoverCxlcgMeta, unused]
    have gone := cleared s
    rw [OwnedBy, same] at gone
    exact gone used
  · intro unusedCleared s used
    cases entryUsed : (t s.1).inUse with
    | false =>
        have same : (recoverCxlcgMeta t machineId).slot s = t.slot s := by
          simp [Table.slot, recoverCxlcgMeta, entryUsed]
        rw [OwnedBy, same]
        exact unusedCleared s entryUsed (same ▸ used)
    | true =>
        have swept : recoverCxlcgMeta t machineId s.1 = (t s.1).sweep machineId := by
          simp [recoverCxlcgMeta, entryUsed]
        simp only [Table.slot, OwnedBy, swept] at used ⊢
        exact CxlcgEntry.sweep_procs _ _ used

/-- Who joins before the group is created is not swept. -/
theorem recovery_leaves_member_of_unused_entry :
    let t := tableMachine.final [.request (.join (osiiOf 1 0) 4096 [65, 0] 7)]
    let s : SlotIndex := (groupOf [65, 0], firstSlot)
    ((recoverCxlcgMeta t 1).slot s).inUse = true ∧
      getOsId ((recoverCxlcgMeta t 1).slot s).procId.osii = 1 := by
  decide +kernel

end Lupin.Cgroup
