import Lupin.Buddy.Tree
import Lupin.Log.Checksum

/-!
# Redo log entries

An entry of the redo log is a tag and a union of 52 bytes, written field by field
over what an earlier log left there. The setters blank the entry behind the one
they write.
-/

namespace Lupin.Log

open Lupin.Memory Lupin.Buddy

/-- `REDOLOG_ENTRIES`. -/
def redologEntries : Nat := 10

/-- `sizeof(struct log_entry)`. -/
def sizeofLogEntry : Nat := 56

/-- `PROG_ID_SIZE`. -/
def progIdSize : Nat := 12

/-- `enum entry_type`. -/
inductive EntryType where
  | invalid | buddyAlloc | buddyFree | val | str | objHdrAlloc | objHdrFree | twoValLog
  | initObjAllocRecs | commit
deriving DecidableEq, Repr

def EntryType.code : EntryType → Nat
  | invalid => 0
  | buddyAlloc => 1
  | buddyFree => 2
  | val => 3
  | str => 4
  | objHdrAlloc => 5
  | objHdrFree => 6
  | twoValLog => 7
  | initObjAllocRecs => 8
  | commit => 9

theorem EntryType.code_lt (tp : EntryType) : tp.code < 256 ^ 4 := by
  cases tp <;> decide

/-- An entry other than `COMMIT`, with the fields of its member of the union.
Names are the bytes that are copied, with the terminating NUL. -/
inductive LogEntry where
  | buddyAlloc (pos : BuddyTreePos)
  | buddyFree (pos : BuddyTreePos)
  | val (off value : Nat)
  | str (off : Nat) (val : List Byte)
  | objHdrAlloc (allocRecPtr objPtr length slot availableSlots : Nat) (progId : List Byte)
      (machineId : Nat)
  | objHdrFree (allocRecPtr slot availableSlots : Nat)
  | twoVal (off1 value1 off2 value2 : Nat)
  | initObjAllocRecs (newObjAllocEntry : Nat)
deriving DecidableEq, Repr

def LogEntry.tp : LogEntry → EntryType
  | buddyAlloc _ => .buddyAlloc
  | buddyFree _ => .buddyFree
  | val _ _ => .val
  | str _ _ => .str
  | objHdrAlloc .. => .objHdrAlloc
  | objHdrFree .. => .objHdrFree
  | twoVal .. => .twoValLog
  | initObjAllocRecs _ => .initObjAllocRecs

/-- The address of entry `i` of the log. -/
def entryAddr (log i : Nat) : Nat := log + sizeofLogEntry * i

theorem entryAddr_le {log i j : Nat} (le : i ≤ j) : entryAddr log i ≤ entryAddr log j := by
  unfold entryAddr sizeofLogEntry
  omega

theorem entryAddr_succ (log i : Nat) :
    entryAddr log (i + 1) = entryAddr log i + sizeofLogEntry := by
  unfold entryAddr sizeofLogEntry
  omega

/-! ## The setters -/

/-- The assignment of `EMPTY_LOG_ENTRY`, word by word. -/
def blankEntry (a : Nat) : List Store := (List.range 7).map fun i => Mem.scalar 8 (a + 8 * i) 0

/-- `*redolog_pos_ptr += 1`, and the next entry is blanked if there is one. -/
def advance (log pos : Nat) : Shm Nat := do
  if pos + 1 < redologEntries then
    Shm.putAll (blankEntry (entryAddr log (pos + 1)))
  pure (pos + 1)

/-- The common body of the setters: the tag, the fields, the next entry. The value
is the new position. -/
def setLogEntry (log pos : Nat) (tp : EntryType) (fields : Nat → List Store) : Shm Nat := do
  Shm.bugOn (pos == redologEntries)
  Shm.put (Mem.scalar 4 (entryAddr log pos) tp.code)
  Shm.putAll (fields (entryAddr log pos))
  advance log pos

/-! The stores to the members of the union of the entry at `a`. -/

def buddyopLoge (pos : BuddyTreePos) (a : Nat) : List Store :=
  [Mem.scalar 8 (a + 8) pos.index, Mem.scalar 8 (a + 16) pos.depth]

def valLoge (off value a : Nat) : List Store :=
  [Mem.scalar 8 (a + 8) off, Mem.scalar 8 (a + 16) value]

def twoValLoge (off1 value1 off2 value2 a : Nat) : List Store :=
  [Mem.scalar 8 (a + 8) off1, Mem.scalar 8 (a + 16) value1, Mem.scalar 8 (a + 24) off2,
    Mem.scalar 8 (a + 32) value2]

def strLoge (off : Nat) (progId : List Byte) (a : Nat) : List Store :=
  Mem.scalar 8 (a + 8) off :: Mem.copy (a + 16) progId

def objHdrAllocLoge (allocRecPtr objPtr length slot availableSlots : Nat) (progId : List Byte)
    (machineId a : Nat) : List Store :=
  [Mem.scalar 8 (a + 8) allocRecPtr, Mem.scalar 2 (a + 32) slot, Mem.scalar 8 (a + 16) objPtr,
    Mem.scalar 8 (a + 24) length, Mem.scalar 2 (a + 34) availableSlots,
    Mem.scalar 1 (a + 50) progId.length] ++
  Mem.copy (a + 36) progId ++ [Mem.scalar 2 (a + 48) machineId]

def objHdrFreeLoge (allocRecPtr slot availableSlots a : Nat) : List Store :=
  [Mem.scalar 8 (a + 8) allocRecPtr, Mem.scalar 2 (a + 16) slot,
    Mem.scalar 2 (a + 18) availableSlots]

def initObjAllocLoge (newObjAllocEntry a : Nat) : List Store :=
  [Mem.scalar 8 (a + 8) newObjAllocEntry]

/-- `set_buddyop_log_entry`. -/
def setBuddyopLogEntry (log redologPos : Nat) (tp : EntryType) (pos : BuddyTreePos) : Shm Nat :=
  setLogEntry log redologPos tp (buddyopLoge pos)

/-- `set_value_log_entry`. -/
def setValueLogEntry (log redologPos off value : Nat) : Shm Nat :=
  setLogEntry log redologPos .val (valLoge off value)

/-- `set_two_value_log_entry`. -/
def setTwoValueLogEntry (log redologPos off1 value1 off2 value2 : Nat) : Shm Nat :=
  setLogEntry log redologPos .twoValLog (twoValLoge off1 value1 off2 value2)

/-- `set_str_log_entry`. -/
def setStrLogEntry (log redologPos off : Nat) (progId : List Byte) : Shm Nat :=
  setLogEntry log redologPos .str (strLoge off (cString progId))

/-- `set_obj_hdr_alloc_log_entry`. -/
def setObjHdrAllocLogEntry (log redologPos allocRecPtr objOffset length : Nat)
    (progId : List Byte) (slot machineId availableSlots : Nat) : Shm Nat :=
  setLogEntry log redologPos .objHdrAlloc
    (objHdrAllocLoge allocRecPtr objOffset length slot availableSlots (cString progId) machineId)

/-- `set_obj_hdr_free_log_entry`. -/
def setObjHdrFreeLogEntry (log redologPos allocRecPtr slot availableSlots : Nat) : Shm Nat :=
  setLogEntry log redologPos .objHdrFree (objHdrFreeLoge allocRecPtr slot availableSlots)

/-- `set_init_obj_allocs_log_entry`. -/
def setInitObjAllocsLogEntry (log redologPos initAllocPtr : Nat) : Shm Nat :=
  setLogEntry log redologPos .initObjAllocRecs (initObjAllocLoge initAllocPtr)

/-- `set_commit_log_entry`. -/
def setCommitLogEntry (log redologPos : Nat) : Shm Nat := do
  Shm.bugOn (redologPos == redologEntries)
  Shm.put (Mem.scalar 4 (entryAddr log redologPos) EntryType.commit.code)
  let m ← Shm.get
  let csum := utilChecksumCompute m log (redologPos * sizeofLogEntry) none 0
  Shm.put (Mem.scalar 8 (entryAddr log redologPos + 8) csum)
  advance log redologPos

/-- The call that writes an entry. -/
def LogEntry.set (log redologPos : Nat) : LogEntry → Shm Nat
  | buddyAlloc pos => setBuddyopLogEntry log redologPos .buddyAlloc pos
  | buddyFree pos => setBuddyopLogEntry log redologPos .buddyFree pos
  | val off value => setValueLogEntry log redologPos off value
  | str off progId => setStrLogEntry log redologPos off progId
  | objHdrAlloc allocRecPtr objPtr length slot availableSlots progId machineId =>
      setObjHdrAllocLogEntry log redologPos allocRecPtr objPtr length progId slot machineId
        availableSlots
  | objHdrFree allocRecPtr slot availableSlots =>
      setObjHdrFreeLogEntry log redologPos allocRecPtr slot availableSlots
  | twoVal off1 value1 off2 value2 => setTwoValueLogEntry log redologPos off1 value1 off2 value2
  | initObjAllocRecs ptr => setInitObjAllocsLogEntry log redologPos ptr

/-- The calls that write a log, in order. -/
def setAll (log : Nat) : (redologPos : Nat) → List LogEntry → Shm Nat
  | redologPos, [] => pure redologPos
  | redologPos, entry :: rest => do
      let redologPos ← entry.set log redologPos
      setAll log redologPos rest

/-! ## Reading an entry -/

/-- `strlen` of a string in an array of `bound` bytes. -/
def strlen (m : Mem) : (bound a : Nat) → Nat
  | 0, _ => 0
  | bound + 1, a => if m a = 0 then 0 else strlen m bound (a + 1) + 1

/-- The entry at an address as `execute_log` reads it, `none` for tags it does nothing for. -/
def readEntry (m : Mem) (a : Nat) : Option LogEntry :=
  match m.read 4 a with
  | 1 => some (.buddyAlloc ⟨m.read 8 (a + 8), m.read 8 (a + 16)⟩)
  | 2 => some (.buddyFree ⟨m.read 8 (a + 8), m.read 8 (a + 16)⟩)
  | 3 => some (.val (m.read 8 (a + 8)) (m.read 8 (a + 16)))
  | 4 => some (.str (m.read 8 (a + 8)) (m.bytesAt (strlen m progIdSize (a + 16) + 1) (a + 16)))
  | 5 => some (.objHdrAlloc (m.read 8 (a + 8)) (m.read 8 (a + 16)) (m.read 8 (a + 24))
      (m.read 2 (a + 32)) (m.read 2 (a + 34)) (m.bytesAt (m.read 1 (a + 50)) (a + 36))
      (m.read 2 (a + 48)))
  | 6 => some (.objHdrFree (m.read 8 (a + 8)) (m.read 2 (a + 16)) (m.read 2 (a + 18)))
  | 7 => some (.twoVal (m.read 8 (a + 8)) (m.read 8 (a + 16)) (m.read 8 (a + 24))
      (m.read 8 (a + 32)))
  | 8 => some (.initObjAllocRecs (m.read 8 (a + 8)))
  | _ => none

/-! ## What fits into an entry -/

/-- The bytes of a NUL-terminated name that fits into a `prog_id`. -/
structure IsProgId (bytes : List Byte) : Prop where
  terminated : ∃ chars, bytes = chars ++ [0] ∧ ∀ c ∈ chars, c ≠ 0
  length_le : bytes.length ≤ progIdSize

/-- The arguments of the setter are in the range of their C types. -/
def LogEntry.Fits : LogEntry → Prop
  | buddyAlloc pos => pos.index < 256 ^ 8 ∧ pos.depth < 256 ^ 8
  | buddyFree pos => pos.index < 256 ^ 8 ∧ pos.depth < 256 ^ 8
  | val off value => off < 256 ^ 8 ∧ value < 256 ^ 8
  | str off progId => off < 256 ^ 8 ∧ IsProgId progId
  | objHdrAlloc allocRecPtr objPtr length slot availableSlots progId machineId =>
      allocRecPtr < 256 ^ 8 ∧ objPtr < 256 ^ 8 ∧ length < 256 ^ 8 ∧ slot < 256 ^ 2 ∧
        availableSlots < 256 ^ 2 ∧ IsProgId progId ∧ machineId < 256 ^ 2
  | objHdrFree allocRecPtr slot availableSlots =>
      allocRecPtr < 256 ^ 8 ∧ slot < 256 ^ 2 ∧ availableSlots < 256 ^ 2
  | twoVal off1 value1 off2 value2 =>
      off1 < 256 ^ 8 ∧ value1 < 256 ^ 8 ∧ off2 < 256 ^ 8 ∧ value2 < 256 ^ 8
  | initObjAllocRecs ptr => ptr < 256 ^ 8

/-- The fields of the entry can be read back. Behind a name that fills its array the machine
id follows, so up to two bytes more are still bytes of the entry. -/
def LogEntry.Readable : LogEntry → Prop
  | objHdrAlloc allocRecPtr objPtr length slot availableSlots progId machineId =>
      allocRecPtr < 256 ^ 8 ∧ objPtr < 256 ^ 8 ∧ length < 256 ^ 8 ∧ slot < 256 ^ 2 ∧
        availableSlots < 256 ^ 2 ∧ progId.length ≤ progIdSize + 2 ∧ machineId < 256 ^ 2
  | entry => entry.Fits

/-- The entry may be recorded: a name need not end inside its array. -/
structure LogEntry.Recordable (entry : LogEntry) : Prop where
  readable : entry.Readable
  terminated : ∀ {allocRecPtr objPtr length slot availableSlots : Nat} {progId : List Byte}
    {machineId : Nat},
    entry = .objHdrAlloc allocRecPtr objPtr length slot availableSlots progId machineId →
      cString progId = progId

/-- The entry as the array holds it: the machine id is stored over the end of a name that is
too long. -/
def LogEntry.logged : LogEntry → LogEntry
  | objHdrAlloc allocRecPtr objPtr length slot availableSlots progId machineId =>
      .objHdrAlloc allocRecPtr objPtr length slot availableSlots
        (progId.take progIdSize ++ (Mem.leBytes 2 machineId).take (progId.length - progIdSize))
        machineId
  | entry => entry

/-! ## An entry is read as it was written -/

/-- `strlen` of a terminated string. -/
theorem strlen_eq {m : Mem} {chars : List Byte} {bound a : Nat} (nonzero : ∀ c ∈ chars, c ≠ 0)
    (stored : m.bytesAt (chars.length + 1) a = chars ++ [0]) (fits : chars.length < bound) :
    strlen m bound a = chars.length := by
  induction chars generalizing bound a with
  | nil =>
      obtain ⟨bound, rfl⟩ : ∃ rest, bound = rest + 1 := ⟨bound - 1, by simp at fits; omega⟩
      simp only [List.length_nil, Mem.bytesAt, List.nil_append, List.cons.injEq, and_true] at stored
      simp [strlen, stored]
  | cons c rest inductionHypothesis =>
      obtain ⟨bound, rfl⟩ : ∃ rest, bound = rest + 1 := ⟨bound - 1, by simp at fits; omega⟩
      simp only [List.length_cons, Mem.bytesAt, List.cons_append, List.cons.injEq] at stored
      obtain ⟨first, others⟩ := stored
      have later := inductionHypothesis (fun d member => nonzero d (List.mem_cons_of_mem _ member))
        (by simpa [Mem.bytesAt] using others) (by simpa using fits : rest.length < bound)
      rw [strlen, first, if_neg (nonzero c List.mem_cons_self), later, List.length_cons]

/-- The stores to the union of an entry. -/
def LogEntry.fields : LogEntry → Nat → List Store
  | buddyAlloc pos => buddyopLoge pos
  | buddyFree pos => buddyopLoge pos
  | val off value => valLoge off value
  | str off progId => strLoge off progId
  | objHdrAlloc allocRecPtr objPtr length slot availableSlots progId machineId =>
      objHdrAllocLoge allocRecPtr objPtr length slot availableSlots progId machineId
  | objHdrFree allocRecPtr slot availableSlots => objHdrFreeLoge allocRecPtr slot availableSlots
  | twoVal off1 value1 off2 value2 => twoValLoge off1 value1 off2 value2
  | initObjAllocRecs ptr => initObjAllocLoge ptr

theorem IsProgId.cString_eq {bytes : List Byte} (isProgId : IsProgId bytes) :
    cString bytes = bytes := by
  obtain ⟨chars, rfl, nonzero⟩ := isProgId.terminated
  unfold cString
  rw [List.takeWhile_append_of_pos (by simpa using nonzero)]
  simp

theorem LogEntry.Fits.readable {entry : LogEntry} (fits : entry.Fits) : entry.Readable := by
  cases entry with
  | objHdrAlloc allocRecPtr objPtr length slot availableSlots progId machineId =>
      obtain ⟨recFits, objFits, lengthFits, slotFits, availableFits, isProgId, machineFits⟩ := fits
      exact ⟨recFits, objFits, lengthFits, slotFits, availableFits,
        isProgId.length_le.trans (Nat.le_add_right _ _), machineFits⟩
  | _ => exact fits

theorem LogEntry.Fits.recordable {entry : LogEntry} (fits : entry.Fits) : entry.Recordable := by
  refine ⟨fits.readable, ?_⟩
  rintro _ _ _ _ _ progId _ rfl
  exact IsProgId.cString_eq fits.2.2.2.2.2.1

/-- A name that fits its array is logged as it is. -/
theorem LogEntry.logged_of_short (allocRecPtr objPtr length slot availableSlots : Nat)
    {progId : List Byte} (short : progId.length ≤ progIdSize) (machineId : Nat) :
    (objHdrAlloc allocRecPtr objPtr length slot availableSlots progId machineId).logged =
      objHdrAlloc allocRecPtr objPtr length slot availableSlots progId machineId := by
  rw [logged, List.take_of_length_le short, Nat.sub_eq_zero_of_le short, List.take_zero,
    List.append_nil]

theorem LogEntry.Fits.logged_eq {entry : LogEntry} (fits : entry.Fits) : entry.logged = entry := by
  cases entry with
  | objHdrAlloc allocRecPtr objPtr length slot availableSlots progId machineId =>
      exact logged_of_short _ _ _ _ _ fits.2.2.2.2.2.1.length_le _
  | _ => rfl

theorem LogEntry.Recordable.logged_readable {entry : LogEntry} (recordable : entry.Recordable) :
    entry.logged.Readable := by
  have readable := recordable.readable
  cases entry with
  | objHdrAlloc allocRecPtr objPtr length slot availableSlots progId machineId =>
      obtain ⟨recFits, objFits, lengthFits, slotFits, availableFits, _, machineFits⟩ := readable
      refine ⟨recFits, objFits, lengthFits, slotFits, availableFits, ?_, machineFits⟩
      simp only [List.length_append, List.length_take, Mem.length_leBytes]
      omega
  | _ => exact readable

theorem LogEntry.set_eq {entry : LogEntry} (recordable : entry.Recordable) (log pos : Nat) :
    entry.set log pos = setLogEntry log pos entry.tp entry.fields := by
  cases entry with
  | str off progId =>
      rw [set, setStrLogEntry, IsProgId.cString_eq recordable.readable.2]
      rfl
  | objHdrAlloc allocRecPtr objPtr length slot availableSlots progId machineId =>
      rw [set, setObjHdrAllocLogEntry, recordable.terminated rfl]
      rfl
  | _ => rfl

/-- The stores of an entry stay behind its tag and inside it. -/
theorem LogEntry.fields_within {entry : LogEntry} (readable : entry.Readable) (a : Nat) :
    ∀ s ∈ entry.fields a, s.Within (a + 4) (a + sizeofLogEntry) := by
  have copyWithin : ∀ {b : Nat} {bytes : List Byte}, bytes.length ≤ progIdSize + 2 → a + 4 ≤ b →
      b + (progIdSize + 2) ≤ a + sizeofLogEntry →
      ∀ s ∈ Mem.copy b bytes, s.Within (a + 4) (a + sizeofLogEntry) := by
    intro b bytes short low high s inCopy
    exact (Mem.copy_within inCopy).mono low (by omega)
  unfold sizeofLogEntry at *
  unfold progIdSize at *
  cases entry with
  | str off progId =>
      have short := readable.2.length_le
      rintro s (_ | ⟨_, inCopy⟩)
      · exact Mem.scalar_within.mpr (by omega)
      · exact copyWithin (short.trans (by decide)) (by omega) (by omega) s inCopy
  | objHdrAlloc allocRecPtr objPtr length slot availableSlots progId machineId =>
      have name := copyWithin readable.2.2.2.2.2.1 (by omega : a + 4 ≤ a + 36) (by omega)
      simp only [fields, objHdrAllocLoge, List.forall_mem_append, List.forall_mem_cons,
        List.not_mem_nil, IsEmpty.forall_iff, implies_true, Mem.scalar_within, and_true]
      exact ⟨⟨by omega, name⟩, by omega⟩
  | _ =>
      simp only [fields, buddyopLoge, valLoge, objHdrFreeLoge, twoValLoge, initObjAllocLoge,
        List.forall_mem_cons, List.not_mem_nil, IsEmpty.forall_iff, implies_true,
        Mem.scalar_within, and_true]
      omega

/-- The scalars and byte strings an entry is made of, its tag first. -/
def LogEntry.parts (entry : LogEntry) (a : Nat) : List Store :=
  Mem.scalar 4 a entry.tp.code ::
    match entry with
    | str off progId => [Mem.scalar 8 (a + 8) off, ⟨a + 16, progId⟩]
    | objHdrAlloc allocRecPtr objPtr length slot availableSlots progId machineId =>
        [Mem.scalar 8 (a + 8) allocRecPtr, Mem.scalar 2 (a + 32) slot,
          Mem.scalar 8 (a + 16) objPtr, Mem.scalar 8 (a + 24) length,
          Mem.scalar 2 (a + 34) availableSlots, Mem.scalar 1 (a + 50) progId.length,
          ⟨a + 36, progId⟩, Mem.scalar 2 (a + 48) machineId]
    | _ => entry.fields a

theorem LogEntry.apply_parts (entry : LogEntry) (m : Mem) (a : Nat) :
    m.apply (Mem.scalar 4 a entry.tp.code :: entry.fields a) = m.apply (entry.parts a) := by
  cases entry with
  | str off progId => simp [parts, fields, strLoge, Mem.apply_copy]
  | objHdrAlloc allocRecPtr objPtr length slot availableSlots progId machineId =>
      simp [parts, fields, objHdrAllocLoge, Mem.apply_append, Mem.apply_copy]
  | _ => rfl

/-- The parts of an entry do not overlap. -/
theorem LogEntry.parts_apart {entry : LogEntry} (fits : entry.Fits) (a : Nat) :
    (entry.parts a).Pairwise Store.Apart := by
  cases entry with
  | str off progId =>
      simp only [parts, List.pairwise_cons, List.forall_mem_cons, List.not_mem_nil,
        IsEmpty.forall_iff, implies_true, and_true, List.Pairwise.nil, Store.Apart, Mem.scalar,
        Mem.length_leBytes]
      omega
  | objHdrAlloc allocRecPtr objPtr length slot availableSlots progId machineId =>
      have short := fits.2.2.2.2.2.1.length_le
      unfold progIdSize at short
      simp only [parts, List.pairwise_cons, List.forall_mem_cons, List.not_mem_nil,
        IsEmpty.forall_iff, implies_true, and_true, List.Pairwise.nil, Store.Apart, Mem.scalar,
        Mem.length_leBytes]
      omega
  | _ =>
      simp only [parts, fields, buddyopLoge, valLoge, objHdrFreeLoge, twoValLoge,
        initObjAllocLoge, List.pairwise_cons, List.forall_mem_cons, List.not_mem_nil,
        IsEmpty.forall_iff, implies_true, and_true, List.Pairwise.nil, Mem.scalar_apart]
      omega

theorem LogEntry.parts_within {entry : LogEntry} (readable : entry.Readable) (a : Nat) :
    ∀ s ∈ entry.parts a, s.Within a (a + sizeofLogEntry) := by
  have tag : ∀ tp : EntryType, (Mem.scalar 4 a tp.code).Within a (a + sizeofLogEntry) :=
    fun tp => Mem.scalar_within.mpr (by unfold sizeofLogEntry; omega)
  have name : ∀ {b : Nat} {bytes : List Byte}, bytes.length ≤ progIdSize + 2 → a ≤ b →
      b + (progIdSize + 2) ≤ a + sizeofLogEntry →
      (⟨b, bytes⟩ : Store).Within a (a + sizeofLogEntry) := by
    intro b bytes short low high
    exact ⟨low, by dsimp only; omega⟩
  cases entry with
  | str off progId =>
      have := name (readable.2.length_le.trans (Nat.le_add_right _ 2)) (by omega : a ≤ a + 16)
        (by unfold progIdSize sizeofLogEntry; omega)
      simp only [parts, List.forall_mem_cons, List.not_mem_nil, IsEmpty.forall_iff, implies_true,
        and_true, Mem.scalar_within, sizeofLogEntry] at this ⊢
      exact ⟨by omega, by omega, this⟩
  | objHdrAlloc allocRecPtr objPtr length slot availableSlots progId machineId =>
      have := name readable.2.2.2.2.2.1 (by omega : a ≤ a + 36)
        (by unfold progIdSize sizeofLogEntry; omega)
      simp only [parts, List.forall_mem_cons, List.not_mem_nil, IsEmpty.forall_iff, implies_true,
        and_true, Mem.scalar_within, sizeofLogEntry] at this ⊢
      exact ⟨by omega, by omega, by omega, by omega, by omega, by omega, by omega, this, by omega⟩
  | _ =>
      rintro s (_ | ⟨_, later⟩)
      · exact tag _
      · exact (fields_within readable a s later).mono (by omega) le_rfl

/-- A logged name is found by `strlen`. -/
theorem bytesAt_strlen {m : Mem} {progId : List Byte} {a : Nat} (isProgId : IsProgId progId)
    (stored : m.bytesAt progId.length a = progId) :
    m.bytesAt (strlen m progIdSize a + 1) a = progId := by
  obtain ⟨chars, rfl, nonzero⟩ := isProgId.terminated
  have short := isProgId.length_le
  rw [List.length_append, List.length_singleton] at stored short
  rw [strlen_eq nonzero stored (by omega), stored]

/-- The entry is in memory as its setter wrote it. -/
def Written (m : Mem) (a : Nat) (entry : LogEntry) : Prop := ∀ s ∈ entry.parts a, m.Shows s

/-- An entry is read as it was written. -/
theorem Written.readEntry_eq {m : Mem} {a : Nat} {entry : LogEntry} (written : Written m a entry)
    (fits : entry.Readable) : readEntry m a = some entry := by
  have tag : m.read 4 a = entry.tp.code := (written _ List.mem_cons_self).read_eq entry.tp.code_lt
  have scalar : ∀ {n b value : Nat}, Mem.scalar n b value ∈ entry.parts a → value < 256 ^ n →
      m.read n b = value :=
    fun member bound => (written _ member).read_eq bound
  have name : ∀ {b : Nat} {bytes : List Byte}, ⟨b, bytes⟩ ∈ entry.parts a →
      m.bytesAt bytes.length b = bytes :=
    fun member => written _ member
  unfold readEntry
  rw [tag]
  cases entry with
  | buddyAlloc pos | buddyFree pos =>
      simp only [LogEntry.parts, LogEntry.fields, buddyopLoge] at scalar
      simp only [LogEntry.tp, EntryType.code, Option.some.injEq, LogEntry.buddyAlloc.injEq,
        LogEntry.buddyFree.injEq]
      rw [scalar (by simp) fits.1, scalar (by simp) fits.2]
  | val off value =>
      simp only [LogEntry.parts, LogEntry.fields, valLoge] at scalar
      simp only [LogEntry.tp, EntryType.code]
      rw [scalar (by simp) fits.1, scalar (by simp) fits.2]
  | str off progId =>
      simp only [LogEntry.parts] at scalar name
      simp only [LogEntry.tp, EntryType.code]
      rw [scalar (by simp) fits.1, bytesAt_strlen fits.2 (name (by simp))]
  | objHdrAlloc allocRecPtr objPtr length slot availableSlots progId machineId =>
      obtain ⟨recFits, objFits, lengthFits, slotFits, availableFits, short, machineFits⟩ := fits
      unfold progIdSize at short
      simp only [LogEntry.parts] at scalar name
      simp only [LogEntry.tp, EntryType.code]
      have nameLength : m.read 1 (a + 50) = progId.length := scalar (by simp) (by omega)
      rw [scalar (by simp) recFits, scalar (by simp) objFits, scalar (by simp) lengthFits,
        scalar (by simp) slotFits, scalar (by simp) availableFits, scalar (by simp) machineFits,
        nameLength, name (by simp)]
  | objHdrFree allocRecPtr slot availableSlots =>
      simp only [LogEntry.parts, LogEntry.fields, objHdrFreeLoge] at scalar
      simp only [LogEntry.tp, EntryType.code]
      rw [scalar (by simp) fits.1, scalar (by simp) fits.2.1, scalar (by simp) fits.2.2]
  | twoVal off1 value1 off2 value2 =>
      simp only [LogEntry.parts, LogEntry.fields, twoValLoge] at scalar
      simp only [LogEntry.tp, EntryType.code]
      rw [scalar (by simp) fits.1, scalar (by simp) fits.2.1, scalar (by simp) fits.2.2.1,
        scalar (by simp) fits.2.2.2]
  | initObjAllocRecs ptr =>
      simp only [LogEntry.parts, LogEntry.fields, initObjAllocLoge] at scalar
      simp only [LogEntry.tp, EntryType.code]
      rw [scalar (by simp) fits]

/-- The stores of a setter to its own entry. -/
def LogEntry.stores (entry : LogEntry) (a : Nat) : List Store :=
  Mem.scalar 4 a entry.tp.code :: entry.fields a

/-- The machine id is stored last, over the end of a name that is too long. -/
theorem LogEntry.written_logged {allocRecPtr objPtr length slot availableSlots machineId : Nat}
    {progId : List Byte} (long : progIdSize ≤ progId.length)
    (short : progId.length ≤ progIdSize + 2) (m : Mem) (a : Nat) :
    Written (m.apply ((objHdrAlloc allocRecPtr objPtr length slot availableSlots progId
      machineId).stores a)) a
      (objHdrAlloc allocRecPtr objPtr length slot availableSlots progId machineId).logged := by
  unfold progIdSize at long short
  have keptLength : (progId.take 12).length = 12 := by
    rw [List.length_take]
    omega
  -- the parts with what is left of the name
  let kept : List Store :=
    [Mem.scalar 4 a EntryType.objHdrAlloc.code, Mem.scalar 8 (a + 8) allocRecPtr,
      Mem.scalar 2 (a + 32) slot, Mem.scalar 8 (a + 16) objPtr, Mem.scalar 8 (a + 24) length,
      Mem.scalar 2 (a + 34) availableSlots, Mem.scalar 1 (a + 50) progId.length,
      ⟨a + 36, progId.take 12⟩, Mem.scalar 2 (a + 48) machineId]
  have apart : kept.Pairwise Store.Apart := by
    simp only [kept, List.pairwise_cons, List.forall_mem_cons, List.not_mem_nil,
      IsEmpty.forall_iff, implies_true, and_true, List.Pairwise.nil, Store.Apart, Mem.scalar,
      Mem.length_leBytes, keptLength]
    omega
  have same : m.apply ((objHdrAlloc allocRecPtr objPtr length slot availableSlots progId
      machineId).stores a) = m.apply kept := by
    rw [stores, apply_parts]
    have overlap := fun m' : Mem => m'.store_store_overlap (a + 36) (progId.take 12)
      (progId.drop 12) (Mem.leBytes 2 machineId)
      (by rw [List.length_drop, Mem.length_leBytes]; omega)
    simp only [List.take_append_drop, keptLength, Nat.add_assoc] at overlap
    simp only [parts, kept, Mem.apply_cons, Mem.apply_nil]
    exact overlap _
  have shown : ∀ s ∈ kept, (m.apply kept).Shows s := fun s member =>
    Mem.shows_apply_of_mem apart member m
  have nameLength : (progId.take 12 ++ (Mem.leBytes 2 machineId).take (progId.length - 12)).length =
      progId.length := by
    rw [List.length_append, keptLength, List.length_take, Mem.length_leBytes]
    omega
  have name : (m.apply kept).Shows
      ⟨a + 36, progId.take 12 ++ (Mem.leBytes 2 machineId).take (progId.length - 12)⟩ := by
    have front := shown ⟨a + 36, progId.take 12⟩ (by simp [kept])
    have back := shown (Mem.scalar 2 (a + 48) machineId) (by simp [kept])
    simp only [Mem.Shows, Mem.scalar, Mem.length_leBytes, keptLength] at front back
    have whole : progId.length = 12 + (progId.length - 12) := by omega
    simp only [Mem.Shows, nameLength]
    rw [whole, Mem.bytesAt_add, front, ← whole, ← back, Mem.take_bytesAt _ (by omega)]
  rw [same]
  intro s member
  simp only [logged, parts, tp, progIdSize, nameLength, List.mem_cons, List.not_mem_nil, or_false]
    at member
  rcases member with rfl | rfl | rfl | rfl | rfl | rfl | rfl | rfl | rfl
  case inr.inr.inr.inr.inr.inr.inr.inl => exact name
  all_goals exact shown _ (by simp [kept])

theorem LogEntry.written {entry : LogEntry} (recordable : entry.Recordable) (m : Mem) (a : Nat) :
    Written (m.apply (entry.stores a)) a entry.logged := by
  have ofFits : entry.Fits → Written (m.apply (entry.stores a)) a entry.logged := by
    intro fits s member
    rw [fits.logged_eq] at member
    rw [stores, entry.apply_parts]
    exact Mem.shows_apply_of_mem (entry.parts_apart fits a) member m
  cases entry with
  | objHdrAlloc allocRecPtr objPtr length slot availableSlots progId machineId =>
      obtain ⟨recFits, objFits, lengthFits, slotFits, availableFits, short, machineFits⟩ :=
        recordable.readable
      by_cases fitting : progId.length ≤ progIdSize
      · refine ofFits ⟨recFits, objFits, lengthFits, slotFits, availableFits,
          ⟨⟨progId.takeWhile (· ≠ 0), (recordable.terminated rfl).symm, fun c member => ?_⟩,
            fitting⟩,
          machineFits⟩
        simpa using List.all_eq_true.mp List.all_takeWhile c member
      · exact written_logged (by omega) short m a
  | _ => exact ofFits recordable.readable

theorem LogEntry.stores_within {entry : LogEntry} (readable : entry.Readable) (a : Nat) :
    ∀ s ∈ entry.stores a, s.Within a (a + sizeofLogEntry) := by
  rintro s (_ | ⟨_, later⟩)
  · exact Mem.scalar_within.mpr ⟨le_rfl, by unfold sizeofLogEntry; omega⟩
  · exact (entry.fields_within readable a s later).mono (by omega) le_rfl

/-- Stores elsewhere leave an entry as it is. -/
theorem Written.apply_outside {m : Mem} {a : Nat} {entry : LogEntry} (written : Written m a entry)
    (readable : entry.Readable) {stores : List Store}
    (outside : ∀ s ∈ stores, s.Outside a (a + sizeofLogEntry)) :
    Written (m.apply stores) a entry := by
  intro s member
  have within := entry.parts_within readable a s member
  exact (written s member).congr fun b covers => Mem.apply_of_outside outside
    (within.1.trans covers.1) (lt_of_lt_of_le covers.2 within.2) m

theorem Written.apply_behind {m : Mem} {a : Nat} {entry : LogEntry} (written : Written m a entry)
    (readable : entry.Readable) {stores : List Store} {high : Nat}
    (behind : ∀ s ∈ stores, s.Within (a + sizeofLogEntry) high) :
    Written (m.apply stores) a entry :=
  written.apply_outside readable fun s member => .inr (behind s member).1

end Lupin.Log
