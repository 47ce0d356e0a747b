import Lupin.Buddy.Arena
import Lupin.Log.Entry

/-!
# Executing the redo log

`execute_log` goes through the entries of the array in shared memory and makes
their stores. It reads an entry from memory when its turn comes.
-/

namespace Lupin.Log

open Lupin.Memory Lupin.Buddy

/-! ## The structures the entries are about -/

/-- `NUM_OBJ_SLOTS`. -/
def numObjSlots : Nat := 340

/-- `SIZEOF_OBJ_BITSET`. -/
def sizeofObjBitset : Nat := 43

/-- `sizeof(struct obj_header)`. -/
def sizeofObjHeader : Nat := 48

/-- `sizeof(struct obj_allocation_records)`. -/
def sizeofRecords : Nat := 16384

/-- `le_next_optr`. -/
def leNextOptr (le : Nat) : Nat := le

/-- `le_prev_optr`. -/
def lePrevOptr (le : Nat) : Nat := le + 8

/-! Fields of `struct obj_allocation_records`, after its `list_entry`. -/

def objAllocBitset (records : Nat) : Nat := records + 16
def availableSlotsAddr (records : Nat) : Nat := records + 60
def objHeader (records slot : Nat) : Nat := records + 64 + sizeofObjHeader * slot

/-! Fields of `struct obj_header`, after its `list_entry`. -/

def machineIdAddr (header : Nat) : Nat := header + 16
def slotIdAddr (header : Nat) : Nat := header + 18
def progIdAddr (header : Nat) : Nat := header + 20
def objOptrAddr (header : Nat) : Nat := header + 32
def lengthAddr (header : Nat) : Nat := header + 40

/-- The stores of `init_obj_allocation_records`; `memset` stores byte by byte. -/
def initObjAllocationRecords (records : Nat) : List Store :=
  [Mem.scalar 8 (leNextOptr records) 0, Mem.scalar 8 (lePrevOptr records) 0] ++
  Mem.copy (objAllocBitset records) (List.replicate sizeofObjBitset 0) ++
  Mem.scalar 2 (availableSlotsAddr records) numObjSlots ::
  (List.range numObjSlots).map fun i => Mem.scalar 2 (slotIdAddr (objHeader records i)) i

/-! ## `execute_log` -/

/-- One entry. The value is `cur_obj_recs` of the machine that executes it, `none` for
a null pointer. -/
def executeEntry (b : BuddyAlloc) (curObjRecs : Option Nat) : LogEntry → Shm (Option Nat)
  | .buddyAlloc pos => do
      let _ ← buddyMallocApply b pos
      pure curObjRecs
  | .buddyFree pos => do
      buddyFreeApply b pos
      pure curObjRecs
  | .val off value => do
      Shm.put (Mem.scalar 8 off value)
      pure curObjRecs
  | .twoVal off1 value1 off2 value2 => do
      Shm.bugOn (off1 == 0)
      Shm.put (Mem.scalar 8 off1 value1)
      Shm.bugOn (off2 == 0)
      Shm.put (Mem.scalar 8 off2 value2)
      pure curObjRecs
  | .str off progId => do
      Shm.putAll (Mem.copy off progId)
      pure curObjRecs
  | .objHdrAlloc allocRecPtr objPtr length slot availableSlots progId machineId => do
      Shm.bugOn (allocRecPtr == 0)
      bitsetSet (objAllocBitset allocRecPtr) slot
      Shm.putAll
        [Mem.scalar 2 (availableSlotsAddr allocRecPtr) availableSlots,
          Mem.scalar 8 (objOptrAddr (objHeader allocRecPtr slot)) objPtr,
          Mem.scalar 8 (lengthAddr (objHeader allocRecPtr slot)) length,
          Mem.scalar 2 (machineIdAddr (objHeader allocRecPtr slot)) machineId,
          Mem.scalar 2 (slotIdAddr (objHeader allocRecPtr slot)) slot]
      Shm.putAll (Mem.copy (progIdAddr (objHeader allocRecPtr slot)) progId)
      pure curObjRecs
  | .objHdrFree allocRecPtr slot availableSlots => do
      Shm.bugOn (allocRecPtr == 0)
      bitsetClear (objAllocBitset allocRecPtr) slot
      Shm.put (Mem.scalar 2 (availableSlotsAddr allocRecPtr) availableSlots)
      pure curObjRecs
  | .initObjAllocRecs newObjAllocEntry => do
      Shm.bugOn (newObjAllocEntry == 0)
      Shm.putAll (initObjAllocationRecords newObjAllocEntry)
      pure (some newObjAllocEntry)

/-- The loop of `execute_log` over `count` entries from index `i` on. -/
def executeLogLoop (b : BuddyAlloc) (log : Nat) :
    (count i : Nat) → Option Nat → Shm (Option Nat)
  | 0, _, curObjRecs => pure curObjRecs
  | count + 1, i, curObjRecs => do
      let m ← Shm.get
      match readEntry m (entryAddr log i) with
      | some entry => do
          let curObjRecs ← executeEntry b curObjRecs entry
          executeLogLoop b log count (i + 1) curObjRecs
      | none => executeLogLoop b log count (i + 1) curObjRecs

/-- `execute_log`. -/
def executeLog (b : BuddyAlloc) (log length : Nat) (curObjRecs : Option Nat) :
    Shm (Option Nat) :=
  executeLogLoop b log length 0 curObjRecs

/-! ## Entries that are in the array -/

/-- Entries executed one after the other. -/
def executeEntries (b : BuddyAlloc) : List LogEntry → Option Nat → Shm (Option Nat)
  | [], curObjRecs => pure curObjRecs
  | entry :: rest, curObjRecs => do
      let curObjRecs ← executeEntry b curObjRecs entry
      executeEntries b rest curObjRecs

section Execute

variable {b : BuddyAlloc} {log start : Nat} {entries : List LogEntry}

theorem executeEntries_nil (m : Mem) (curObjRecs : Option Nat) :
    (executeEntries b [] curObjRecs).Returns m [] curObjRecs :=
  Shm.Returns.pure m curObjRecs

theorem executeEntries_cons {m : Mem} {entry : LogEntry} {curObjRecs cur cur' : Option Nat}
    {first second : List Store} (returns : (executeEntry b curObjRecs entry).Returns m first cur)
    (rest : (executeEntries b entries cur).Returns (m.apply first) second cur') :
    (executeEntries b (entry :: entries) curObjRecs).Returns m (first ++ second) cur' :=
  returns.bind rest

theorem executeEntries_concat_eq (b : BuddyAlloc) (first second : List LogEntry)
    (curObjRecs : Option Nat) :
    executeEntries b (first ++ second) curObjRecs =
      executeEntries b first curObjRecs >>= executeEntries b second := by
  induction first generalizing curObjRecs with
  | nil => simp only [List.nil_append, executeEntries, pure_bind]
  | cons entry others inductionHypothesis =>
      simp only [List.cons_append, executeEntries, bind_assoc, inductionHypothesis]

theorem executeEntries_concat {m : Mem} {first second : List LogEntry}
    {curObjRecs cur cur' : Option Nat} {stores stores' : List Store}
    (returns : (executeEntries b first curObjRecs).Returns m stores cur)
    (rest : (executeEntries b second cur).Returns (m.apply stores) stores' cur') :
    (executeEntries b (first ++ second) curObjRecs).Returns m (stores ++ stores') cur' := by
  rw [executeEntries_concat_eq]
  exact returns.bind rest

theorem executeEntry_val (m : Mem) (curObjRecs : Option Nat) (off value : Nat) :
    (executeEntry b curObjRecs (.val off value)).Returns m [Mem.scalar 8 off value] curObjRecs :=
  .put_bind (.pure _ _)

theorem executeEntry_twoVal (m : Mem) (curObjRecs : Option Nat) {off1 off2 : Nat}
    (value1 value2 : Nat) (notNull1 : off1 ≠ 0) (notNull2 : off2 ≠ 0) :
    (executeEntry b curObjRecs (.twoVal off1 value1 off2 value2)).Returns m
      [Mem.scalar 8 off1 value1, Mem.scalar 8 off2 value2] curObjRecs :=
  .bugOn_bind (by simpa using notNull1) (.put_bind (.bugOn_bind (by simpa using notNull2)
    (.put_bind (.pure _ _))))

/-- A pair of stores with a null second target stops after the first store. -/
theorem executeEntry_twoVal_null (m : Mem) (curObjRecs : Option Nat) {off1 : Nat}
    (value1 value2 : Nat) (notNull1 : off1 ≠ 0) :
    executeEntry b curObjRecs (.twoVal off1 value1 0 value2) m =
      ([Mem.scalar 8 off1 value1], none) := by
  rw [executeEntry, (Shm.Returns.bugOn (by simpa using notNull1) m).bind_eq,
    (Shm.Returns.put m _).bind_apply]
  rfl

/-! The entries about headers and pages. -/

theorem objHeader_eq (p i : Nat) : objHeader p i = p + 64 + 48 * i := rfl

theorem objHeader_bounds {p i : Nat} (bound : i < numObjSlots) :
    p + 64 ≤ objHeader p i ∧ objHeader p i + 48 ≤ p + 16384 := by
  unfold numObjSlots at bound
  rw [objHeader_eq]
  omega

/-- The stores of an `OBJ_HDR_ALLOC` entry. -/
def hdrAllocStores (m : Mem) (p objPtr length slot availableSlots : Nat) (progId : List Byte)
    (machineId : Nat) : List Store :=
  indexStore (fun byte mask => byte ||| mask) (objAllocBitset p) m slot ::
    ([Mem.scalar 2 (availableSlotsAddr p) availableSlots,
      Mem.scalar 8 (objOptrAddr (objHeader p slot)) objPtr,
      Mem.scalar 8 (lengthAddr (objHeader p slot)) length,
      Mem.scalar 2 (machineIdAddr (objHeader p slot)) machineId,
      Mem.scalar 2 (slotIdAddr (objHeader p slot)) slot] ++
    Mem.copy (progIdAddr (objHeader p slot)) progId)

theorem executeEntry_objHdrAlloc (m : Mem) (curObjRecs : Option Nat)
    {p : Nat} (objPtr length slot availableSlots : Nat) (progId : List Byte) (machineId : Nat)
    (notNull : p ≠ 0) :
    (executeEntry b curObjRecs
        (.objHdrAlloc p objPtr length slot availableSlots progId machineId)).Returns m
      (hdrAllocStores m p objPtr length slot availableSlots progId machineId) curObjRecs := by
  refine .bugOn_bind (by simpa using notNull) ?_
  exact Shm.Returns.bind (bitsetSet_returns _ _ m)
    (Shm.Returns.putAll_bind (Shm.Returns.putAll_pure _ _ _))

theorem hdrAllocStores_within {m : Mem} {p slot objPtr length availableSlots machineId : Nat}
    {progId : List Byte} (bound : slot < numObjSlots) (short : progId.length ≤ 28) :
    ∀ t ∈ hdrAllocStores m p objPtr length slot availableSlots progId machineId,
      t.Within (p + 16) (p + 62) ∨
        t.Within (objHeader p slot + 16) (objHeader p slot + 48) := by
  unfold numObjSlots at bound
  simp only [hdrAllocStores, List.forall_mem_cons, List.forall_mem_append, List.not_mem_nil,
    IsEmpty.forall_iff, implies_true, and_true, Mem.scalar_within, availableSlotsAddr, objOptrAddr,
    lengthAddr, machineIdAddr, slotIdAddr]
  refine ⟨.inl ⟨?_, ?_⟩, ⟨by omega, by omega, by omega, by omega, by omega⟩, fun t member => ?_⟩
  · simp only [indexStore, objAllocBitset]
    omega
  · simp only [indexStore, objAllocBitset, List.length_singleton]
    omega
  · refine .inr ((Mem.copy_within member).mono ?_ ?_) <;> unfold progIdAddr <;> omega

/-- The stores of an `OBJ_HDR_FREE` entry. -/
def hdrFreeStores (m : Mem) (p slot availableSlots : Nat) : List Store :=
  [indexStore (fun byte mask => byte &&& ~~~mask) (objAllocBitset p) m slot,
    Mem.scalar 2 (availableSlotsAddr p) availableSlots]

theorem executeEntry_objHdrFree (m : Mem) (curObjRecs : Option Nat) {p : Nat}
    (slot availableSlots : Nat) (notNull : p ≠ 0) :
    (executeEntry b curObjRecs (.objHdrFree p slot availableSlots)).Returns m
      (hdrFreeStores m p slot availableSlots) curObjRecs :=
  .bugOn_bind (by simpa using notNull) (Shm.Returns.bind (bitsetClear_returns _ _ m)
    (.put_bind (.pure _ _)))

theorem hdrFreeStores_within {m : Mem} {p slot availableSlots : Nat} (bound : slot < numObjSlots) :
    ∀ t ∈ hdrFreeStores m p slot availableSlots, t.Within (p + 16) (p + 62) := by
  unfold numObjSlots at bound
  simp only [hdrFreeStores, List.forall_mem_cons, List.not_mem_nil, IsEmpty.forall_iff,
    implies_true, and_true, Mem.scalar_within, availableSlotsAddr]
  simp only [Store.Within, indexStore, objAllocBitset, List.length_singleton]
  omega

theorem executeEntry_initObjAllocRecs (m : Mem) (curObjRecs : Option Nat) {p : Nat}
    (notNull : p ≠ 0) :
    (executeEntry b curObjRecs (.initObjAllocRecs p)).Returns m (initObjAllocationRecords p)
      (some p) :=
  .bugOn_bind (by simpa using notNull) (Shm.Returns.putAll_pure m _ _)

theorem initObjAllocationRecords_within {p : Nat} :
    ∀ t ∈ initObjAllocationRecords p, t.Within p (p + 16384) := by
  simp only [initObjAllocationRecords, List.forall_mem_append, List.forall_mem_cons,
    List.not_mem_nil, IsEmpty.forall_iff, implies_true, and_true, Mem.scalar_within, leNextOptr,
    lePrevOptr, availableSlotsAddr]
  refine ⟨⟨by omega, fun t member => (Mem.copy_within member).mono ?_ ?_⟩, by omega,
    fun t member => ?_⟩
  · unfold objAllocBitset
    omega
  · simp only [objAllocBitset, List.length_replicate, sizeofObjBitset]
    omega
  · obtain ⟨i, inRange, rfl⟩ := List.mem_map.mp member
    have bounds := objHeader_bounds (p := p) (List.mem_range.mp inRange)
    simp only [Mem.scalar_within, slotIdAddr]
    omega

/-- The entries in the array are executed one after the other, as long as that does not
write to the array itself. -/
theorem executeLogLoop_eq {m : Mem} {curObjRecs : Option Nat}
    (readable : ∀ entry ∈ entries, entry.Readable)
    (written : ∀ i entry, entries[i]? = some entry → Written m (entryAddr log (start + i)) entry)
    (outside : ∀ s ∈ (executeEntries b entries curObjRecs).stores m,
      s.Outside (entryAddr log start) (entryAddr log (start + entries.length)))
    (rest : Nat) :
    executeLogLoop b log (entries.length + rest) start curObjRecs m =
      (do
        let curObjRecs ← executeEntries b entries curObjRecs
        executeLogLoop b log rest (start + entries.length) curObjRecs : Shm (Option Nat)) m := by
  induction entries generalizing m start curObjRecs with
  | nil => rw [List.length_nil, Nat.zero_add, Nat.add_zero, executeEntries, pure_bind]
  | cons entry entries inductionHypothesis =>
      have entryReadable := readable entry List.mem_cons_self
      have first := (written 0 entry rfl).readEntry_eq entryReadable
      have more : (entry :: entries).length + rest = (entries.length + rest) + 1 := by
        rw [List.length_cons]
        omega
      rw [more, executeLogLoop, (Shm.Returns.get m).bind_eq]
      rw [Nat.add_zero] at first
      simp only [first, executeEntries, bind_assoc]
      refine Shm.bind_congr fun stores cur returns => ?_
      have allStores : (executeEntries b (entry :: entries) curObjRecs).stores m =
          stores ++ (executeEntries b entries cur).stores (m.apply stores) :=
        congrArg Prod.fst returns.bind_apply
      rw [allStores, List.length_cons, List.forall_mem_append] at outside
      have afterEntry : start + 1 + entries.length = start + (entries.length + 1) := by omega
      rw [List.length_cons, ← afterEntry]
      refine inductionHypothesis (fun e member => readable e (List.mem_cons_of_mem _ member)) ?_ ?_
      · intro i e isEntry
        have before := written (i + 1) e (by simpa using isEntry)
        have bound : i < entries.length := (List.getElem?_eq_some_iff.mp isEntry).1
        have eReadable := readable e (List.mem_cons_of_mem _ (List.mem_of_getElem? isEntry))
        have place : start + 1 + i = start + (i + 1) := by omega
        rw [place]
        refine before.apply_outside eReadable fun s member => (outside.1 s member).mono ?_ ?_
        · exact entryAddr_le (by omega)
        · rw [← entryAddr_succ]
          exact entryAddr_le (by omega)
      · refine fun s member => (outside.2 s member).mono (entryAddr_le (by omega)) ?_
        rw [afterEntry]

end Execute

/-! ## `recover_with_redolog` -/

/-- `ELOG_ERR`. -/
def elogErr : Nat := 134

/-- The scan of `recover_with_redolog`: the index of the first `COMMIT` when its
checksum is right. -/
def findCommit (log : Nat) : (count i : Nat) → Shm (Except Nat (Option Nat))
  | 0, _ => pure (.ok none)
  | count + 1, i => do
      let m ← Shm.get
      if m.read 4 (entryAddr log i) = EntryType.commit.code then
        let right ← utilChecksum log (sizeofLogEntry * i) (entryAddr log i + 8) false 0
        if right then pure (.ok (some i)) else pure (.error elogErr)
      else findCommit log count (i + 1)

/-- `recover_with_redolog`: its result and `cur_obj_recs`. -/
def recoverWithRedolog (b : BuddyAlloc) (log : Nat) (curObjRecs : Option Nat) :
    Shm (Nat × Option Nat) := do
  match ← findCommit log redologEntries 0 with
  | .error code => pure (code, curObjRecs)
  | .ok none => pure (0, curObjRecs)
  | .ok (some redologPos) => do
      let curObjRecs ← executeLog b log redologPos curObjRecs
      pure (0, curObjRecs)

end Lupin.Log
