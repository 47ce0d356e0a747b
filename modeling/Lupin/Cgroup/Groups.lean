import Lupin.Cgroup.Osii
import Lupin.Lib.Memory
import Lupin.Lib.Transition

/-!
# The table of groups

Processes of different machines meet in a group by a secret string. A group lives in
the entry of a shared table that a hash of the secret selects; the secret that is
stored there is not looked at again.
-/

namespace Lupin.Cgroup

open Lupin.Memory Lupin.Transition

/-- `MAX_GROUP_NUM`. -/
def maxGroupNum : Nat := 50

/-- `MAX_PROC_PER_GROUP`. -/
def maxProcPerGroup : Nat := 16

/-- `struct global_proc_id`. -/
structure GlobalProcId where
  osii : Word
  localProcId : Word
deriving DecidableEq

/-- `struct member_proc`; `tsk` is the task's address, `none` for a null pointer. -/
structure MemberProc where
  procId : GlobalProcId
  tsk : Option Nat
  inUse : Bool
deriving DecidableEq

/-- `struct cxlcg_entry`. -/
structure CxlcgEntry where
  procs : Fin maxProcPerGroup → MemberProc
  secretStr : List Byte
  inUse : Bool

abbrev Table := Fin maxGroupNum → CxlcgEntry

/-- A member slot or an entry after `memset` to 0. -/
def MemberProc.zero : MemberProc := ⟨⟨0, 0⟩, none, false⟩

def CxlcgEntry.zero : CxlcgEntry := ⟨fun _ => MemberProc.zero, List.replicate 20 0, false⟩

/-- `hash_func`; `char` is signed. -/
def hashFunc (word : List Byte) : BitVec 32 :=
  (word.takeWhile (· ≠ 0)).foldl (fun hash c => 31 * hash + c.signExtend 32) 0

/-- The entry a secret leads to. -/
def groupOf (secretStr : List Byte) : Fin maxGroupNum :=
  ⟨(hashFunc secretStr).toNat % maxGroupNum, Nat.mod_lt _ (by decide)⟩

/-- The comparison of a slot with a process in `do_join_cxlcg` and `do_leave_cxlcg`. -/
def MemberProc.isFor (slot : MemberProc) (procId : GlobalProcId) : Bool :=
  slot.inUse && getOsId slot.procId.osii == getOsId procId.osii &&
    getGenId slot.procId.osii == getGenId procId.osii &&
    slot.procId.localProcId == procId.localProcId

/-- The first slot of a group with a property. -/
def CxlcgEntry.findSlot (entry : CxlcgEntry) (property : MemberProc → Bool) :
    Option (Fin maxProcPerGroup) :=
  (List.finRange maxProcPerGroup).find? fun i => property (entry.procs i)

def Table.setSlot (t : Table) (g : Fin maxGroupNum) (i : Fin maxProcPerGroup)
    (slot : MemberProc) : Table :=
  Function.update t g { t g with procs := Function.update (t g).procs i slot }

/-- `do_create_cxlcg`: the table after the call and its result. -/
def doCreateCxlcg (t : Table) (secretStr : List Byte) : Table × Int :=
  let hash := groupOf secretStr
  if (t hash).inUse then (t, -1)
  else (Function.update t hash { t hash with secretStr, inUse := true }, 0)

/-- `do_delete_cxlcg`. -/
def doDeleteCxlcg (t : Table) (secretStr : List Byte) : Table × Int :=
  (Function.update t (groupOf secretStr) CxlcgEntry.zero, 0)

/-- `do_join_cxlcg` by the task `current` on the machine with `myOsii`. -/
def doJoinCxlcg (myOsii : Word) (current : Nat) (t : Table) (secretStr : List Byte)
    (localProcId : Word) : Table × Int :=
  let hash := groupOf secretStr
  let procId : GlobalProcId := ⟨myOsii, localProcId⟩
  match (t hash).findSlot (·.isFor procId) with
  | some _ => (t, 0)
  | none =>
      match (t hash).findSlot (!·.inUse) with
      | none => (t, -1)
      | some i => (t.setSlot hash i ⟨procId, some current, true⟩, 0)

/-- `do_leave_cxlcg`. -/
def doLeaveCxlcg (t : Table) (secretStr : List Byte) (procId : GlobalProcId) : Table × Int :=
  let hash := groupOf secretStr
  match (t hash).findSlot (·.isFor procId) with
  | none => (t, 0)
  | some i => (t.setSlot hash i MemberProc.zero, 0)

/-- A request of some process. -/
inductive Request where
  | create (secretStr : List Byte)
  | delete (secretStr : List Byte)
  | join (myOsii : Word) (current : Nat) (secretStr : List Byte) (localProcId : Word)
  | leave (secretStr : List Byte) (procId : GlobalProcId)

def Request.secretStr : Request → List Byte
  | create secretStr => secretStr
  | delete secretStr => secretStr
  | join _ _ secretStr _ => secretStr
  | leave secretStr _ => secretStr

/-- The table after a request. -/
def Table.after (t : Table) : Request → Table
  | .create secretStr => (doCreateCxlcg t secretStr).1
  | .delete secretStr => (doDeleteCxlcg t secretStr).1
  | .join myOsii current secretStr localProcId =>
      (doJoinCxlcg myOsii current t secretStr localProcId).1
  | .leave secretStr procId => (doLeaveCxlcg t secretStr procId).1

/-- Requests one after the other, under the lock of the table. -/
def groupMachine : Machine Table Request where
  initial := fun _ => CxlcgEntry.zero
  step t request := some (t.after request)

/-! ## Who can change a group -/

/-- The `in_use` flag or a member slot of the entry differs. -/
def CxlcgEntry.Differs (entry entry' : CxlcgEntry) : Prop :=
  entry.inUse ≠ entry'.inUse ∨ entry.procs ≠ entry'.procs

/-- The request changes no group in use but that of its own secret. -/
def Request.KeepsToSecret (request : Request) (t : Table) : Prop :=
  ∀ g, (t g).inUse = true → (t g).Differs (t.after request g) →
    cString request.secretStr = cString (t g).secretStr

/-- The request finds nothing to do in the entry its secret leads to. -/
def Request.Idle (request : Request) (t : Table) : Prop :=
  match request with
  | create _ => True
  | delete _ => False
  | join myOsii _ secretStr localProcId =>
      (∃ i, ((t (groupOf secretStr)).procs i).isFor ⟨myOsii, localProcId⟩ = true) ∨
        ∀ i, ((t (groupOf secretStr)).procs i).inUse = true
  | leave secretStr procId =>
      ∀ i, ((t (groupOf secretStr)).procs i).isFor procId = false

theorem CxlcgEntry.findSlot_eq_none {entry : CxlcgEntry} {property : MemberProc → Bool} :
    entry.findSlot property = none ↔ ∀ i, property (entry.procs i) = false := by
  simp [findSlot]

theorem CxlcgEntry.findSlot_eq_some {entry : CxlcgEntry} {property : MemberProc → Bool}
    {i : Fin maxProcPerGroup} (found : entry.findSlot property = some i) :
    property (entry.procs i) = true := by
  unfold findSlot at found
  have satisfied := List.find?_some found
  exact satisfied

theorem Table.setSlot_of_ne (t : Table) {g g' : Fin maxGroupNum} (i : Fin maxProcPerGroup)
    (slot : MemberProc) (other : g' ≠ g) : t.setSlot g i slot g' = t g' :=
  Function.update_of_ne other _ _

theorem Table.setSlot_procs (t : Table) (g : Fin maxGroupNum) (i : Fin maxProcPerGroup)
    (slot : MemberProc) : (t.setSlot g i slot g).procs i = slot := by
  simp [setSlot]

/-- Requests leave the entries of other hashes alone. -/
theorem Table.after_of_ne (t : Table) (request : Request) {g : Fin maxGroupNum}
    (other : g ≠ groupOf request.secretStr) : t.after request g = t g := by
  cases request with
  | create secretStr =>
      simp only [after, doCreateCxlcg]
      split
      · rfl
      · exact Function.update_of_ne other _ _
  | delete secretStr => exact Function.update_of_ne other _ _
  | join myOsii current secretStr localProcId =>
      simp only [after, doJoinCxlcg]
      split
      · rfl
      · split
        · rfl
        · exact t.setSlot_of_ne _ _ other
  | leave secretStr procId =>
      simp only [after, doLeaveCxlcg]
      split
      · rfl
      · exact t.setSlot_of_ne _ _ other

/-- A request with nothing to do leaves a group in use as it is. -/
theorem Request.Idle.after_eq {request : Request} {t : Table} (idle : request.Idle t)
    (inUse : (t (groupOf request.secretStr)).inUse = true) : t.after request = t := by
  cases request with
  | create secretStr =>
      have used : (t (groupOf secretStr)).inUse = true := inUse
      simp [Table.after, doCreateCxlcg, used]
  | delete secretStr => exact idle.elim
  | join myOsii current secretStr localProcId =>
      simp only [Table.after, doJoinCxlcg]
      split
      · rfl
      · rename_i noMember
        rcases idle with ⟨i, isMember⟩ | full
        · rw [CxlcgEntry.findSlot_eq_none.mp noMember i] at isMember
          exact absurd isMember (by decide)
        · rw [CxlcgEntry.findSlot_eq_none.mpr fun i => by rw [full i]; rfl]
  | leave secretStr procId =>
      have noMember : (t (groupOf secretStr)).findSlot (·.isFor procId) = none :=
        CxlcgEntry.findSlot_eq_none.mpr idle
      simp only [Table.after, doLeaveCxlcg, noMember]

/-- A request with something to do changes the group it leads to. -/
theorem Request.differs_of_not_idle {request : Request} {t : Table} (busy : ¬ request.Idle t)
    (inUse : (t (groupOf request.secretStr)).inUse = true) :
    (t (groupOf request.secretStr)).Differs
      (t.after request (groupOf request.secretStr)) := by
  cases request with
  | create secretStr => exact absurd trivial busy
  | delete secretStr =>
      refine .inl ?_
      rw [inUse]
      simp [Table.after, doDeleteCxlcg, Request.secretStr, CxlcgEntry.zero]
  | join myOsii current secretStr localProcId =>
      obtain ⟨notMember, notFull⟩ := not_or.mp busy
      have noMember : (t (groupOf secretStr)).findSlot (·.isFor ⟨myOsii, localProcId⟩) = none :=
        CxlcgEntry.findSlot_eq_none.mpr fun i =>
          Bool.eq_false_iff.mpr fun isMember => notMember ⟨i, isMember⟩
      cases free : (t (groupOf secretStr)).findSlot (!·.inUse) with
      | none =>
          refine absurd (fun i => ?_) notFull
          simpa using CxlcgEntry.findSlot_eq_none.mp free i
      | some i =>
          have wasFree := CxlcgEntry.findSlot_eq_some free
          refine .inr fun same => ?_
          have slot := congrFun same i
          simp only [Request.secretStr, Table.after, doJoinCxlcg, noMember, free,
            Table.setSlot_procs] at slot
          rw [slot] at wasFree
          exact absurd wasFree (by simp)
  | leave secretStr procId =>
      cases member : (t (groupOf secretStr)).findSlot (·.isFor procId) with
      | none => exact absurd (CxlcgEntry.findSlot_eq_none.mp member) busy
      | some i =>
          have wasMember := CxlcgEntry.findSlot_eq_some member
          refine .inr fun same => ?_
          have slot := congrFun same i
          simp only [Request.secretStr, Table.after, doLeaveCxlcg, member,
            Table.setSlot_procs] at slot
          rw [slot] at wasMember
          exact absurd wasMember (by simp [MemberProc.isFor, MemberProc.zero])

/-- A request keeps to the group of its secret exactly if the entry that the hash of the secret
selects is not in use, or stores this secret, or leaves the request nothing to do. -/
theorem request_keeps_to_secret_iff (t : Table) (request : Request) :
    request.KeepsToSecret t ↔
      (t (groupOf request.secretStr)).inUse = false ∨
      cString request.secretStr = cString (t (groupOf request.secretStr)).secretStr ∨
      request.Idle t := by
  constructor
  · intro keeps
    by_contra failing
    simp only [not_or, Bool.not_eq_false] at failing
    obtain ⟨inUse, otherSecret, busy⟩ := failing
    exact otherSecret (keeps _ inUse (Request.differs_of_not_idle busy inUse))
  · intro condition g inUse differs
    by_cases here : g = groupOf request.secretStr
    · subst here
      rcases condition with unused | same | idle
      · rw [unused] at inUse
        exact absurd inUse (by decide)
      · exact same
      · rw [idle.after_eq inUse] at differs
        rcases differs with flag | procs
        · exact absurd rfl flag
        · exact absurd rfl procs
    · rw [t.after_of_ne request here] at differs
      rcases differs with flag | procs
      · exact absurd rfl flag
      · exact absurd rfl procs

/-- The secrets `A` and `s` share an entry: who knows only `s` deletes the group of `A`. -/
theorem other_secret_deletes_group :
    let t := groupMachine.final [.create [65, 0]]
    let g := groupOf [65, 0]
    (t g).inUse = true ∧ (t.after (.delete [115, 0]) g).inUse = false ∧
      cString [115, 0] ≠ cString (t g).secretStr := by
  decide +kernel

end Lupin.Cgroup
